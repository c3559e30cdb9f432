import KimchiWorkflows.Engine.Calls
import KimchiWorkflows.Progress.Honesty

/-!
A run in which nothing is entered again once closed is never shown ahead of its log; one that enters a
construct of a loop body again is.
-/

namespace KimchiWorkflows.Progress

open KimchiWorkflows.Flow KimchiWorkflows.Engine

variable {log : List RunEvent} {event : RunEvent} {key : NodePath}

/-- In every view of an orderly log, at every prefix, no row is ahead of the log. -/
theorem faithful_of_orderly (workflow : WorkflowDefinition) (log : List RunEvent)
    (h : Orderly workflow.nodes log) :
    ∀ first view, first <+: log → project (buildOutline workflow) first = .ok view →
      ∀ row ∈ rows view.nodes, Faithful first row := by
  intro first view hp hv row hrow
  obtain ⟨fold, hfold, rfl⟩ : ∃ fold, foldEvents first = .ok fold ∧
      projectedView (buildOutline workflow) first fold = view := by
    unfold project at hv
    cases hf : foldEvents first with
    | error error =>
      rw [hf] at hv
      cases hv
    | ok fold =>
      rw [hf] at hv
      exact ⟨fold, rfl, Except.ok.inj hv⟩
  obtain rfl : fold = first.foldl Fold.next {} := by
    unfold foldEvents at hfold
    split at hfold
    · cases hfold
    · exact (Except.ok.inj hfold).symm
  have horder := (h.earlier hp).inOrder
  simp only [projectedView, buildOutline] at hrow
  rw [projectNodes_outline] at hrow
  obtain ⟨child, hm, hrow⟩ := mem_rows.mp hrow
  exact (honest_nodes horder false [] workflow.nodes (fun node hn => .top hn) child hm).1 row hrow

theorem closedLast_append (h : ClosedLast (log ++ [event]) key) :
    closesKey event = some key ∨ (ClosedLast log key ∧ entersKey event ≠ some key) := by
  obtain ⟨before, close, after, heq, hcloses, hafter⟩ := h
  obtain rfl | ⟨rest, last, rfl⟩ := List.eq_nil_or_concat after
  · obtain ⟨-, hlast⟩ := List.append_inj' heq rfl
    cases hlast
    exact .inl hcloses
  · rw [List.concat_eq_append, ← List.cons_append, ← List.append_assoc] at heq
    obtain ⟨rfl, hlast⟩ := List.append_inj' heq rfl
    cases hlast
    refine .inr ⟨⟨before, close, rest, rfl, hcloses, ?_⟩, ?_⟩
    · intro later hl
      exact hafter later (by simp [hl])
    · exact hafter event (by simp)

section Examples

def readStep : StepDefinition := .function { name := "read" }

def reviewing : WorkflowDefinition := { name := "reviewing", nodes := [.step readStep] }

def shipping : WorkflowDefinition := { name := "shipping", nodes := [.workflow "review" reviewing.nodes] }

def saysStop (_ : RunContext) (last : Value) : Except String Bool :=
  match last with
  | .bool stop => .ok stop
  | _ => .ok false

def polishing : WorkflowDefinition :=
  { name := "polishing", nodes := [.loop "until-good" .dountil shipping.nodes saysStop 3] }

theorem committed_shipping : Committed shipping :=
  .assembled [reviewing] (List.forall_mem_singleton.mpr (.flat (show reviewing.nodes.flatMap bodiesOf = [] from rfl) rfl))
    (show shipping.nodes.flatMap bodiesOf = _ from rfl) rfl

theorem committed_polishing : Committed polishing :=
  .assembled [shipping] (List.forall_mem_singleton.mpr committed_shipping)
    (show polishing.nodes.flatMap bodiesOf = _ from rfl) rfl

def reviewPath : NodePath := [{ name := "review" }]

def readPath : NodePath := [{ name := "review" }, { name := "read" }]

def shippingLog : List RunEvent :=
  [.runStarted "run-1" "shipping" .null, .nodeStarted reviewPath .workflow, .stepStarted readPath .undefined,
    .stepCompleted readPath (.bool true), .nodeCompleted reviewPath (.bool true), .runCompleted (.bool true)]

theorem returns_shipping : Returns shipping (.run "run-1" .null) [] shippingLog (.ok (.bool true)) :=
  returns_of_attempt [{ outcome := .ok (.bool true) }] 100 rfl

theorem occursAt_shipping {scope : NodePath} {node : WorkflowNode} (h : OccursAt shipping.nodes scope node) :
    (scope = [] ∧ node = .workflow "review" reviewing.nodes) ∨ (scope = reviewPath ∧ node = .step readStep) := by
  induction h with
  | top hm => exact .inl ⟨rfl, List.mem_singleton.mp hm⟩
  | inside _ hc hm ih =>
    obtain ⟨rfl, rfl⟩ | ⟨rfl, rfl⟩ := ih
    · cases hc
      exact .inr ⟨rfl, List.mem_singleton.mp hm⟩
    · cases hc

theorem held_shipping {step : NodePath} (h : Held shipping.nodes key step) : key = reviewPath ∧ step = readPath := by
  cases h with
  | construct hocc hnode hr =>
    obtain ⟨rfl, rfl⟩ | ⟨rfl, rfl⟩ := occursAt_shipping hocc
    · refine ⟨rfl, ?_⟩
      obtain ⟨inner, body, hc, child, hm, hr⟩ := (runsAt_inside _ (by simp) (by simp)).mp hr
      cases hc
      rw [List.mem_singleton.mp hm] at hr
      exact (runsAt_step.mp hr).1
    · exact absurd rfl (hnode _)
  | item index hocc =>
    obtain ⟨-, h⟩ | ⟨-, h⟩ := occursAt_shipping hocc <;> cases h

theorem not_heldByArm_shipping {arm step : NodePath} : ¬ HeldByArm shipping.nodes arm step := by
  rintro ⟨hocc, -⟩
  obtain ⟨-, h⟩ | ⟨-, h⟩ := occursAt_shipping hocc <;> cases h

theorem accounted_shipping (h : Closed log reviewPath) : Accounted shipping.nodes log where
  construct := by
    intro scope node hocc hnode
    obtain ⟨rfl, rfl⟩ | ⟨rfl, rfl⟩ := occursAt_shipping hocc
    · exact .inl h
    · exact absurd rfl (hnode _)
  item := by
    intro scope name body selector concurrency feedback index hocc
    obtain ⟨-, h⟩ | ⟨-, h⟩ := occursAt_shipping hocc <;> cases h

theorem allowed_shipping (hentered : ∀ key ∈ entersKey event, ¬ Closed log key) (hs : startsForeach event = none)
    (hworked : Closed log reviewPath → ¬ Open (log ++ [event]) readPath)
    (hclosed : reviewPath ∈ closesKey event → ¬ Open (log ++ [event]) readPath)
    (hfinished : RunFinished (log ++ [event]) → Closed (log ++ [event]) reviewPath) :
    Allowed shipping.nodes log event where
  entered := hentered
  restarted := by
    intro key hstarts
    rw [hs] at hstarts
    cases hstarts
  worked := by
    intro key step hheld hopen
    obtain ⟨rfl, rfl⟩ := held_shipping hheld
    exact .inr (fun hc => hworked hc hopen)
  closed := by
    intro key step hc hheld
    obtain ⟨rfl, rfl⟩ := held_shipping hheld
    exact hclosed hc
  armed := fun arm step harm => absurd harm not_heldByArm_shipping
  finished := fun hf => accounted_shipping (hfinished hf)

instance : Decidable (Closed log key) := inferInstanceAs (Decidable (∃ event ∈ log, closesKey event = some key))

instance : Decidable (Open log key) := inferInstanceAs (Decidable (_ = true))

instance : Decidable (RunFinished log) := inferInstanceAs (Decidable (_ = _))

theorem orderly_shipping : Orderly shipping.nodes shippingLog := by
  have hstep : ∀ {log event}, Orderly shipping.nodes log → (∀ key ∈ entersKey event, ¬ Closed log key) →
      startsForeach event = none → (Closed log reviewPath → ¬ Open (log ++ [event]) readPath) →
      (reviewPath ∈ closesKey event → ¬ Open (log ++ [event]) readPath) →
      (RunFinished (log ++ [event]) → Closed (log ++ [event]) reviewPath) →
      Orderly shipping.nodes (log ++ [event]) := fun h he hs hw hc hf => .next h (allowed_shipping he hs hw hc hf)
  have hstart : Orderly shipping.nodes (shippingLog.take 1) :=
    hstep .start (by decide) rfl (by decide) (by decide) (by decide)
  have hopened : Orderly shipping.nodes (shippingLog.take 2) :=
    hstep hstart (by decide) rfl (by decide) (by decide) (by decide)
  have hread : Orderly shipping.nodes (shippingLog.take 3) :=
    hstep hopened (by decide) rfl (by decide) (by decide) (by decide)
  have hdone : Orderly shipping.nodes (shippingLog.take 4) :=
    hstep hread (by decide) rfl (by decide) (by decide) (by decide)
  have hclosed : Orderly shipping.nodes (shippingLog.take 5) :=
    hstep hdone (by decide) rfl (by decide) (by decide) (by decide)
  exact hstep hclosed (by decide) rfl (by decide) (by decide) (by decide)

theorem faithful_shipping : Returns shipping (.run "run-1" .null) [] shippingLog (.ok (.bool true)) ∧
    ∀ first view, first <+: shippingLog → project (buildOutline shipping) first = .ok view →
      ∀ row ∈ rows view.nodes, Faithful first row :=
  ⟨returns_shipping, faithful_of_orderly shipping shippingLog orderly_shipping⟩

def iterationPath (iteration : Nat) : NodePath := [{ name := "until-good", index := some (.loop, iteration) }]

def polishingLog : List RunEvent :=
  [.runStarted "run-1" "polishing" .null, .nodeStarted [{ name := "until-good" }] .loop,
    .loopIteration (iterationPath 1) 1, .nodeStarted (iterationPath 1 ++ reviewPath) .workflow,
    .stepStarted (iterationPath 1 ++ readPath) .undefined,
    .stepCompleted (iterationPath 1 ++ readPath) (.bool false),
    .nodeCompleted (iterationPath 1 ++ reviewPath) (.bool false),
    .loopIteration (iterationPath 2) 2, .nodeStarted (iterationPath 2 ++ reviewPath) .workflow,
    .stepStarted (iterationPath 2 ++ readPath) .undefined]

def polishingView : ProgressView :=
  projectedView (buildOutline polishing) polishingLog (polishingLog.foldl Fold.next {})

theorem rows_polishingView : rows polishingView.nodes =
    rows (projectedNodes (deriveStepStates polishingLog) (polishingLog.foldl Fold.next {}) false [] polishing.nodes) :=
  congrArg rows (projectNodes_outline _ _ _ _ _)

/-- The engine enters a closed construct again, and the view shows it completed with its step in progress. -/
theorem reentered_shown_completed : Committed polishing ∧
    (∃ log outcome, Returns polishing (.run "run-1" .null) [] log outcome ∧ polishingLog <+: log) ∧
    project (buildOutline polishing) polishingLog = .ok polishingView ∧
    ∃ row ∈ rows polishingView.nodes, row.kind = .outline .workflow ∧ row.state = some .completed ∧
      ¬ ClosedLast polishingLog row.path ∧
      ∃ step ∈ rows row.children, step.kind = .outline .step ∧ step.state = some .inProgress := by
  refine ⟨committed_polishing, ⟨_, _, returns_of_attempt [{ outcome := .ok (.bool false) },
    { outcome := .ok (.bool true) }] 100 rfl, ⟨_, rfl⟩⟩, rfl, ?_⟩
  rw [rows_polishingView]
  refine ⟨_, .tail _ (.head _), rfl, rfl, ?_, _, .head _, rfl, rfl⟩
  intro hlast
  obtain hcloses | ⟨hbefore, -⟩ := closedLast_append (show ClosedLast (polishingLog.take 9 ++ [_]) _ from hlast)
  · cases hcloses
  · obtain hcloses | ⟨-, henters⟩ := closedLast_append (show ClosedLast (polishingLog.take 8 ++ [_]) _ from hbefore)
    · cases hcloses
    · exact henters rfl

end Examples

end KimchiWorkflows.Progress
