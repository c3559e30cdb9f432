import KimchiWorkflows.Flow.Scopes
import KimchiWorkflows.Engine.OwnMarks

namespace KimchiWorkflows.Engine

open KimchiWorkflows.Flow Process Process.Proc

variable {env : RunEnv} {key parentPath : NodePath} {frames : List ScopeFrame} {name : String}
  {input : Value} {reentry : Option Reentry} {body : List Walked} {note : Note}

section Foreach

variable {each : ForeachDefinition} {items : List Value} {history : ItemHistory} {index : Nat}

theorem ne_of_below_item {path : NodePath}
    (h : Below (itemKey parentPath each.name index) (staticKeyOf path)) :
    staticKeyOf path ≠ staticChildKey parentPath each.name := by
  intro he
  have hlt := h.2
  rw [he, length_itemKey] at hlt
  simp [staticChildKey] at hlt

theorem marks_runItem {next : ExecOutcome → Code} (hn : ∀ node ∈ body, Stays node.1 node.2)
    (h : ∀ outcome, Marks (staticChildKey parentPath each.name) note (next outcome)) :
    Marks (staticChildKey parentPath each.name) note
      (runItem each body parentPath frames items index input reentry next) := by
  have hc : Confined (fun other => Below (itemKey parentPath each.name index) (staticKeyOf other))
      (runNodeSequence body input (appendForeachItem parentPath each.name index)
        (frames ++ [foreachFrame each.name index items]) 0 reentry) :=
    confined_runNodeSequence hn (fun _ => id)
  refine marks_opening rfl (marks_andThen hc (fun _ => ne_of_below_item) ?_)
  intro outcome
  refine marks_emitAll ?_ (h outcome)
  intro event he
  cases outcome with
  | ok output =>
    rw [List.mem_singleton.mp he]
    rfl
  | _ => cases he

theorem marks_completeForeach (results : List Value) :
    Marks (staticChildKey parentPath each.name) note (completeForeach each parentPath results) :=
  marks_checkpoint (staticKeyOf_appendSegment parentPath each.name) _

variable (hn : ∀ node ∈ body, Stays node.1 node.2)

include hn

theorem marks_runItemsFrom {remaining : Nat} {results : List Value} {fed : Value} :
    Marks (staticChildKey parentPath each.name) note
      (runItemsFrom each body parentPath frames items remaining index results fed reentry) := by
  induction remaining generalizing index results fed reentry with
  | zero => exact marks_completeForeach results
  | succ remaining ih =>
    intro memory _
    dsimp only
    split
    · exact marks_conclude rfl
    · refine marks_runItem hn ?_
      intro outcome
      cases outcome with
      | ok output => exact ih
      | _ => exact marks_conclude rfl

theorem marks_runForeachSequential :
    Marks (staticChildKey parentPath each.name) note
      (runForeachSequential each body parentPath frames items input history reentry) := by
  cases reentry with
  | none => exact marks_runItemsFrom hn
  | some active =>
    simp only [runForeachSequential]
    split
    · exact marks_raise _
    · exact marks_runItemsFrom hn

theorem marks_runForeachConcurrentFresh :
    Marks (staticChildKey parentPath each.name) note
      (runForeachConcurrentFresh each body parentPath frames items history) := by
  unfold runForeachConcurrentFresh
  let region : NodePath → Prop := fun path => ∃ index, Within (itemKey parentPath each.name index) path
  have hregion : ∀ path, region path → staticKeyOf path ≠ staticChildKey parentPath each.name := by
    rintro path ⟨index, hp⟩ he
    have hp' : itemKey parentPath each.name index <+: staticKeyOf path := hp
    rw [he] at hp'
    have heq := hp'.eq_of_length (by rw [length_itemKey]; simp [staticChildKey])
    rw [itemKey, staticPathOf_appendForeachItem, staticChildKey] at heq
    have hlast := List.append_inj_right' heq rfl
    simp at hlast
  refine marks_pool ?_ hregion (fun results => marks_completeForeach _)
  intro task ht
  obtain ⟨index, -, rfl⟩ := List.mem_map.mp ht
  exact confined_runItem hn (fun path hp => ⟨index, hp⟩) (fun outcome ho => confined_conclude ho)

theorem marks_runExtraItems {finish : List (Nat × ExecOutcome) → Code} {toRun : List Nat}
    {settled : List (Nat × ExecOutcome)}
    (h : ∀ settled, Marks (staticChildKey parentPath each.name) note (finish settled)) :
    Marks (staticChildKey parentPath each.name) note
      (runExtraItems each body parentPath frames items finish toRun settled) := by
  induction toRun generalizing settled with
  | nil => exact h settled
  | cons index rest ih =>
    intro memory _
    dsimp only
    split
    · exact h _
    · exact marks_runItem hn (fun outcome => ih)

theorem marks_runForeachConcurrentReentry {active : Reentry} :
    Marks (staticChildKey parentPath each.name) note
      (runForeachConcurrentReentry each body parentPath frames items env history active) := by
  unfold runForeachConcurrentReentry
  split
  · exact marks_raise _
  · refine marks_runItem hn ?_
    intro outcome
    refine marks_runExtraItems hn ?_
    exact fun settled => marks_settleConcurrent (marks_completeForeach _)

theorem marks_runForeachNode :
    Marks (staticChildKey parentPath each.name) note
      (runForeachNode env each body input parentPath frames reentry) := by
  intro memory _
  dsimp only
  split
  · exact marks_conclude rfl
  · refine marks_opening rfl ?_
    split
    · exact marks_runForeachSequential hn
    · split
      · exact marks_runForeachConcurrentReentry hn
      · exact marks_runForeachConcurrentFresh hn
  · exact marks_conclude rfl

end Foreach

section Parallel

variable {arms : List StepDefinition} {parallelPath : NodePath}

theorem confined_armBelow (arm : StepDefinition) :
    Confined (fun path => Below (staticPathOf parallelPath) (staticKeyOf path))
      (runStepNode env arm input parallelPath frames reentry) := by
  refine (confined_runStepNode arm input reentry).mono ?_
  rintro path rfl
  exact below_appendSegment parallelPath arm.name

theorem marks_completeParallel (output : Record) :
    Marks (staticPathOf parallelPath) note (completeParallel parallelPath output) :=
  marks_checkpoint rfl _

theorem marks_reenterArms {active : Reentry} {targetName : String} {gathered : Gathered} :
    Marks (staticPathOf parallelPath) note (reenterArms env input parallelPath frames active targetName
      (settleReentry name targetName parallelPath) arms gathered) := by
  induction arms generalizing gathered with
  | nil =>
    simp only [reenterArms, settleReentry]
    split
    · exact marks_raise _
    · exact marks_settleConcurrent (marks_completeParallel _)
  | cons arm rest ih =>
    simp only [reenterArms]
    split
    · exact marks_andThen (confined_armBelow arm) (fun _ => ne_of_below) (fun outcome => ih)
    · intro memory _
      dsimp only
      split
      · exact ih
      · split
        · exact ih
        · split
          · exact ih
          · exact marks_andThen (confined_armBelow arm) (fun _ => ne_of_below) (fun outcome => ih)

theorem marksOwn_runParallelNode : MarksOwn (.parallel name arms) (runParallelNode env name arms) := by
  intro input parentPath frames reentry note
  have hk : staticPathOf (appendSegment parentPath name) = staticChildKey parentPath name :=
    staticPathOf_appendSegment parentPath name
  show Marks (staticChildKey parentPath name) note _
  rw [← hk]
  cases reentry with
  | none =>
    refine marks_emit rfl (marks_pool ?_ (fun _ => ne_of_below) (fun results => marks_completeParallel _))
    intro task ht
    obtain ⟨arm, -, rfl⟩ := List.mem_map.mp ht
    exact confined_armBelow arm
  | some active =>
    simp only [runParallelNode, runParallelReentry]
    split
    · exact marks_raise _
    · exact marks_reenterArms

end Parallel

theorem marksOwn_runNode (henv : PendingByKey env) (node : WorkflowNode) (h : (scopeNames node).Nodup) :
    MarksOwn node (runNode env node) := by
  cases node with
  | step step => exact marksOwn_runStepNode step
  | branch name arms =>
    refine marksOwn_runBranchNode ?_ (stays_walkedArms henv arms) h
    intro arm ha
    have hm := List.mem_map_of_mem (f := Prod.fst) ha
    rwa [fst_walkedArms] at hm
  | loop name mode body condition maxIterations => exact marksOwn_runLoopNode (stays_walked henv body)
  | foreach name body selector concurrency feedback =>
    intro input parentPath frames reentry note
    have h := @marks_runForeachNode env parentPath frames input reentry (walked env body) note
      ⟨name, selector, concurrency, feedback⟩ (stays_walked henv body)
    exact h
  | parallel name arms => exact marksOwn_runParallelNode
  | workflow name nodes => exact marksOwn_runNestedWorkflowNode (stays_walked henv nodes)

end KimchiWorkflows.Engine
