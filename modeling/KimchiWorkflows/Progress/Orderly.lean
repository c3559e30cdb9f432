import KimchiWorkflows.Engine.ExecutionKeys
import KimchiWorkflows.Progress.Entries

/-!
Logs in which nothing is entered again once it has been closed, and what then holds at every point.
-/

namespace KimchiWorkflows.Progress

open KimchiWorkflows.Flow KimchiWorkflows.Engine

/-- A construct or foreach item of the run has been closed, or nothing of it has been recorded. -/
structure Accounted (nodes : List WorkflowNode) (log : List RunEvent) : Prop where
  construct : ∀ scope node, OccursAt nodes scope node → (∀ step, node ≠ .step step) →
    Closed log (appendSegment scope (nodeName node)) ∨
      ∀ event ∈ log, ∀ key, keyed event = some key → ¬ KeyIn scope node key
  item : ∀ scope name body selector concurrency feedback index,
    OccursAt nodes scope (.foreach name body selector concurrency feedback) →
    Closed log (itemKeyOf scope name index) ∨
      ∀ event ∈ log, keyed event ≠ some (itemKeyOf scope name index)

/-- What an event may do after a log: enter what was never closed, start a foreach none of whose items is
done, set steps to work inside open constructs and arms in progress, and close what is at rest. -/
structure Allowed (nodes : List WorkflowNode) (log : List RunEvent) (event : RunEvent) : Prop where
  entered : ∀ key, entersKey event = some key → ¬ Closed log key
  restarted : ∀ key, startsForeach event = some key → doneSince log key = []
  worked : ∀ key step, Held nodes key step → Open (log ++ [event]) step → Open log step ∨ ¬ Closed log key
  closed : ∀ key step, closesKey event = some key → Held nodes key step → ¬ Open (log ++ [event]) step
  armed : ∀ arm step, HeldByArm nodes arm step → Open (log ++ [event]) step →
    Dict.get (deriveStepStates (log ++ [event])) arm = some .inProgress
  finished : RunFinished (log ++ [event]) → Accounted nodes (log ++ [event])

inductive Orderly (nodes : List WorkflowNode) : List RunEvent → Prop where
  | start : Orderly nodes []
  | next {log : List RunEvent} {event : RunEvent} : Orderly nodes log → Allowed nodes log event →
      Orderly nodes (log ++ [event])

/-- What the projection of an orderly log may rely on. -/
structure InOrder (nodes : List WorkflowNode) (log : List RunEvent) : Prop where
  last : ∀ key, Closed log key → ClosedLast log key
  quiet : ∀ key step, Held nodes key step → Closed log key → ¬ Open log step
  armed : ∀ arm step, HeldByArm nodes arm step → Open log step →
    Dict.get (deriveStepStates log) arm = some .inProgress
  done : ∀ key, (log.foldl Fold.next {}).done key = doneSince log key
  finished : RunFinished log → Accounted nodes log

variable {nodes : List WorkflowNode} {log : List RunEvent} {event : RunEvent} {key : NodePath}

theorem closed_append : Closed (log ++ [event]) key ↔ Closed log key ∨ closesKey event = some key := by
  simp [Closed, or_and_right, exists_or]

theorem doneSince_append : doneSince (log ++ [event]) key = doneNext key (doneSince log key) event := by
  rw [doneSince, List.foldl_append]
  rfl

theorem finishesItem_of_starts (h : startsForeach event = some key) : finishesItem key event = none := by
  cases event <;> first | rfl | cases h

theorem inOrder_next (h : InOrder nodes log) (ha : Allowed nodes log event) : InOrder nodes (log ++ [event]) where
  last := by
    intro key hc
    by_cases hnow : closesKey event = some key
    · exact ⟨log, event, [], rfl, hnow, by simp⟩
    · have hbefore := (closed_append.mp hc).resolve_right hnow
      obtain ⟨before, close, after, rfl, hclose, hafter⟩ := h.last key hbefore
      refine ⟨before, close, after ++ [event], by simp, hclose, ?_⟩
      intro later hl
      obtain hl | hl := List.mem_append.mp hl
      · exact hafter later hl
      · rw [List.mem_singleton.mp hl]
        exact fun henters => ha.entered key henters hbefore
  quiet := by
    intro key step hheld hc hopen
    obtain hc | hc := closed_append.mp hc
    · obtain hopen | hnot := ha.worked key step hheld hopen
      · exact h.quiet key step hheld hc hopen
      · exact hnot hc
    · exact ha.closed key step hc hheld hopen
  armed := ha.armed
  done := by
    intro key
    rw [List.foldl_append, List.foldl_cons, List.foldl_nil, done_next, h.done key, doneSince_append, doneNext]
    split_ifs with hstarts
    · rw [finishesItem_of_starts hstarts, ha.restarted key hstarts]
      rfl
    · rfl
  finished := ha.finished

theorem Orderly.inOrder (h : Orderly nodes log) : InOrder nodes log := by
  induction h with
  | start =>
    refine ⟨?_, ?_, ?_, fun key => rfl, ?_⟩
    · rintro key ⟨event, hm, -⟩
      cases hm
    · rintro key step - ⟨event, hm, -⟩
      cases hm
    · intro arm step _ hopen
      cases hopen
    · intro hf
      cases hf
  | next _ ha ih => exact inOrder_next ih ha

theorem Orderly.earlier {first : List RunEvent} (h : Orderly nodes log) (hp : first <+: log) : Orderly nodes first := by
  induction h with
  | start =>
    rw [List.prefix_nil.mp hp]
    exact .start
  | @next log event hlog ha ih =>
    obtain rfl | hp := List.prefix_concat_iff.mp hp
    · exact .next hlog ha
    · exact ih hp

end KimchiWorkflows.Progress
