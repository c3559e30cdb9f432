import KimchiWorkflows.Engine.CallStatus
import KimchiWorkflows.Engine.PlainAsks
import KimchiWorkflows.Flow.Scopes

/-!
Which of the top-level nodes a call executes: those from the one it starts with on.
-/

namespace KimchiWorkflows.Engine

open KimchiWorkflows.Flow Process Process.Proc Scheduling

def entryIndex (nodes : List WorkflowNode) (path : Option NodePath) : Nat :=
  (path.bind List.head?).elim 0 (fun segment =>
    (nodes.findIdx? (matchesReentryTarget segment.name)).getD nodes.length)

/-- The index of the top-level node a call on the log starts with. -/
def EngineCall.startsAt (workflow : WorkflowDefinition) (log : List RunEvent) : EngineCall → Nat
  | .run _ _ => 0
  | .resume => firstIncompleteTopLevelIndex workflow.nodes (rebuildStepOutputs log)
  | .answer _ path => entryIndex workflow.nodes path
  | .respond _ path => entryIndex workflow.nodes path

/-- The path belongs to one of the top-level nodes from the index on. -/
def Ahead (workflow : WorkflowDefinition) (index : Nat) (path : NodePath) : Prop :=
  ∃ node ∈ workflow.nodes.drop index, Under [] (scopeNames node) path

variable {workflow : WorkflowDefinition} {log : List RunEvent} {call : EngineCall} {launched : Launched}
  {index : Nat}

def ExecutesAhead (workflow : WorkflowDefinition) (index : Nat) (code : Code) : Prop :=
  code.Only (fun action => ∀ event path, action = .emit event → event.executes = some path →
    Ahead workflow index path) (fun _ => True)

theorem subject_of_executes {event : RunEvent} {path : NodePath} (h : event.executes = some path) :
    event.subject = some path := by
  cases event <;> simp_all [RunEvent.executes, RunEvent.subject]

theorem ahead_mono {other : Nat} {path : NodePath} (h : Ahead workflow other path) (hle : index ≤ other) :
    Ahead workflow index path := by
  obtain ⟨node, hm, hp⟩ := h
  refine ⟨node, ?_, hp⟩
  have hdrop : workflow.nodes.drop other = (workflow.nodes.drop index).drop (other - index) := by
    rw [List.drop_drop]
    congr 1
    omega
  rw [hdrop] at hm
  exact List.mem_of_mem_drop hm

theorem confined_walk {env : RunEnv} (henv : PendingByKey env) (input : Value) (reentry : Option Reentry) :
    Confined (Ahead workflow index)
      (walkNodes [] [] ((walked env workflow.nodes).drop index) input reentry) := by
  refine confined_walkNodes_of ?_ ?_
  · exact fun node hm => stays_walked henv workflow.nodes node (List.mem_of_mem_drop hm)
  · intro node hm path hp
    refine ⟨node.1, ?_, hp⟩
    have hmap := List.mem_map_of_mem (f := Prod.fst) hm
    rwa [List.map_drop, map_fst_walked] at hmap

theorem findIdx_walked (env : RunEnv) (nodes : List WorkflowNode) (targetName : String) :
    (walked env nodes).findIdx? (fun node => matchesReentryTarget targetName node.1) =
      nodes.findIdx? (matchesReentryTarget targetName) := by
  have hmap := List.findIdx?_map (f := Prod.fst) (l := walked env nodes) (p := matchesReentryTarget targetName)
  rw [map_fst_walked] at hmap
  exact hmap.symm

theorem executesAhead_of_confined {code : Code} (h : Confined (Ahead workflow index) code) :
    ExecutesAhead workflow index code := by
  refine only_mono h ?_ (fun _ _ => trivial)
  rintro action ha event path rfl he
  obtain ⟨-, other, hs, hp, -⟩ := ha
  obtain rfl := Option.some.inj (hs.symm.trans (subject_of_executes he))
  exact hp

theorem executesAhead_emit {event : RunEvent} {code : Code} (he : event.executes = none)
    (h : ExecutesAhead workflow index code) : ExecutesAhead workflow index (emit event code) := by
  refine ⟨?_, h⟩
  intro other path ho hx
  cases ho
  rw [he] at hx
  cases hx

theorem executesAhead_execute {cursor : ExecutionCursor} (hsequence : Confined (Ahead workflow index) (runNodeSequence (walked (envOf workflow cursor) workflow.nodes)
      cursor.previousOutput [] [] cursor.startIndex cursor.reentry)) :
    ExecutesAhead workflow index (execute workflow cursor) := by
  refine only_bind (executesAhead_of_confined hsequence) ?_
  intro result _
  cases result with
  | error error => exact trivial
  | ok outcome =>
    cases outcome with
    | blocked block => exact trivial
    | _ => exact executesAhead_emit rfl trivial

theorem pendingByKey_nil {cursor : ExecutionCursor} (h : cursor.pendingBlocks = []) :
    PendingByKey (envOf workflow cursor) := by
  intro key block hg
  rw [envOf, h] at hg
  cases hg

theorem path_of_findAskedAt {keep : Asked → Bool} {path : NodePath} {pending : Asked}
    (h : findAskedAt keep log path = some pending) : pending.path = path := by
  have hm := List.mem_filter.mp (List.mem_of_getLast? h)
  simp only [Bool.and_eq_true, decide_eq_true_eq] at hm
  exact hm.2.2

theorem confined_reentry {env : RunEnv} (henv : PendingByKey env) (input : Value) (startIndex : Nat)
    (reentry : Reentry) :
    Confined (Ahead workflow (entryIndex workflow.nodes (some reentry.path)))
      (runNodeSequence (walked env workflow.nodes) input [] [] startIndex (some reentry)) := by
  simp only [runNodeSequence]
  cases hleaf : leafNameOf reentry with
  | none => exact confined_raise _
  | some targetName =>
    obtain ⟨segment, hseg, rfl⟩ := Option.map_eq_some_iff.mp hleaf
    simp only [findIdx_walked]
    cases hfind : workflow.nodes.findIdx? (matchesReentryTarget segment.name) with
    | none => exact confined_conclude (by simp)
    | some index =>
      have hindex : entryIndex workflow.nodes (some reentry.path) = index := by
        simp [entryIndex, hseg, hfind]
      rw [hindex]
      exact fun memory => confined_walk henv _ _

theorem executesAhead_input {keep : Asked → Bool} {path : Option NodePath} {missing : String}
    {overtaken : String → String → String} {provided : NodePath → RunEvent} {deliver : Asked → Reentry}
    (hprovided : ∀ path, (provided path).executes = none)
    (hdeliver : ∀ pending, (deliver pending).path = pending.path)
    (h : resumeWithInput workflow log keep path missing overtaken provided deliver = .ok launched) :
    ExecutesAhead workflow (entryIndex workflow.nodes path) launched.code := by
  unfold resumeWithInput at h
  split at h
  · cases h
  · split at h
    · cases h
    · rename_i pending hp
      have hle : entryIndex workflow.nodes path ≤ entryIndex workflow.nodes (some pending.path) := by
        cases path with
        | none => exact Nat.zero_le _
        | some path => rw [path_of_findAskedAt hp]
      split at h
      · cases h
      · split at h
        · cases h
          exact executesAhead_emit rfl trivial
        · cases h
          refine executesAhead_emit (hprovided _) (executesAhead_execute ?_)
          refine (confined_reentry ?_ _ _ (deliver pending)).mono ?_
          · exact pendingByKey_of_launch (.inr ⟨pending.path, rfl⟩)
          · rw [hdeliver]
            exact fun _ hp => ahead_mono hp hle

/-- A call on the log of a run executes no top-level node before the one it starts with. -/
theorem executesAhead_launch (h : launch workflow log call = .ok launched) :
    ExecutesAhead workflow (call.startsAt workflow log) launched.code := by
  cases call with
  | run runId input =>
    simp only [launch, Except.ok.injEq, runWorkflow] at h
    subst h
    split
    · exact executesAhead_emit rfl trivial
    · exact executesAhead_emit rfl (executesAhead_execute
        (confined_walk (pendingByKey_nil rfl) _ none))
  | resume =>
    simp only [launch, resumeWorkflow] at h
    split at h
    · cases h
    · split at h
      · cases h
        exact executesAhead_emit rfl trivial
      · cases h
        exact executesAhead_emit rfl (executesAhead_execute
          (confined_walk (pendingByKey_nil rfl) _ none))
  | answer answers path =>
    simp only [launch, resumeWithAnswer] at h
    exact executesAhead_input (fun _ => rfl) (fun _ => rfl) h
  | respond response path =>
    simp only [launch, resumeWithInteraction] at h
    exact executesAhead_input (fun _ => rfl) (fun _ => rfl) h

theorem not_executed_of_ahead {node : WorkflowNode} {path : NodePath}
    (hu : scopesUnique workflow.nodes = true) (hm : node ∈ workflow.nodes)
    (hn : node ∉ workflow.nodes.drop index) (hp : Ahead workflow index path) :
    ¬ Under [] (scopeNames node) path := by
  obtain ⟨other, ho, segment, hs, hother⟩ := hp
  rintro ⟨segment', hs', hnode⟩
  have hsame : segment = segment' := by
    have hlen : [segment].length = [segment'].length := rfl
    have := List.prefix_of_prefix_length_le hother hnode (le_of_eq hlen)
    simpa using List.IsPrefix.eq_of_length this hlen
  have hbefore : node ∈ workflow.nodes.take index := by
    rw [← List.take_append_drop index workflow.nodes] at hm
    rcases List.mem_append.mp hm with h | h
    · exact h
    · exact absurd h hn
  have hnodup : (workflow.nodes.flatMap scopeNames).Nodup :=
    of_decide_eq_true ((Bool.and_eq_true _ _).mp hu).1
  rw [← List.take_append_drop index workflow.nodes, List.flatMap_append, List.nodup_append] at hnodup
  refine hnodup.2.2 _ (List.mem_flatMap.mpr ⟨node, hbefore, hs'⟩) _
    (List.mem_flatMap.mpr ⟨other, ho, hs⟩) ?_
  rw [hsame]

end KimchiWorkflows.Engine
