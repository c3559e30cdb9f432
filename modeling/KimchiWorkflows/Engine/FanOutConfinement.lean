import KimchiWorkflows.Engine.ForeachSettling
import KimchiWorkflows.Engine.NodeConfinement

namespace KimchiWorkflows.Engine

open KimchiWorkflows.Flow Process Process.Proc

variable {env : RunEnv} {region : NodePath → Prop} {parentPath : NodePath} {frames : List ScopeFrame}
  {name : String} {input : Value} {reentry : Option Reentry} {body : List Walked}

section Foreach

variable {each : ForeachDefinition} {items : List Value} {history : ItemHistory} {index : Nat}

theorem under_item {path : NodePath} (index : Nat) (h : Within (itemKey parentPath each.name index) path) :
    Under (staticPathOf parentPath) [each.name] path := by
  rw [itemKey, staticPathOf_appendForeachItem] at h
  exact under_of_within (by simp) h

theorem confined_runItem {next : ExecOutcome → Code} (hn : ∀ node ∈ body, Stays node.1 node.2)
    (hr : ∀ path, Within (itemKey parentPath each.name index) path → region path)
    (h : ∀ outcome, (∀ block, outcome = .blocked block → region block.path) →
      Confined region (next outcome)) :
    Confined region (runItem each body parentPath frames items index input reentry next) := by
  refine confined_opening (keepsTo_node rfl rfl rfl (hr _ (within_self _)))
    (confined_andThen (confined_runNodeSequence hn (fun path hp => hr path hp.1)) ?_)
  intro outcome ho
  refine confined_emitAll ?_ (h outcome ho)
  intro event he
  cases outcome with
  | ok output =>
    rw [List.mem_singleton.mp he]
    exact keepsTo_node rfl rfl rfl (hr _ (within_self _))
  | _ => cases he

theorem confined_completeForeach (results : List Value) :
    Confined (Under (staticPathOf parentPath) [each.name]) (completeForeach each parentPath results) := by
  exact confined_checkpoint (under_node (by simp)) _ _

variable (hn : ∀ node ∈ body, Stays node.1 node.2)

include hn

theorem confined_runItemsFrom {remaining : Nat} {results : List Value} {fed : Value} :
    Confined (Under (staticPathOf parentPath) [each.name])
      (runItemsFrom each body parentPath frames items remaining index results fed reentry) := by
  induction remaining generalizing index results fed reentry with
  | zero => exact confined_completeForeach results
  | succ remaining ih =>
    intro memory
    dsimp only
    split
    · exact confined_conclude (by simp)
    · refine confined_runItem hn (fun path => under_item index) ?_
      intro outcome ho
      cases outcome with
      | ok output => exact ih
      | _ => exact confined_conclude ho

theorem confined_runForeachSequential :
    Confined (Under (staticPathOf parentPath) [each.name])
      (runForeachSequential each body parentPath frames items input history reentry) := by
  cases reentry with
  | none => exact confined_runItemsFrom hn
  | some active =>
    simp only [runForeachSequential]
    split
    · exact confined_raise _
    · exact confined_runItemsFrom hn

theorem confined_runForeachConcurrentFresh :
    Confined (Under (staticPathOf parentPath) [each.name])
      (runForeachConcurrentFresh each body parentPath frames items history) := by
  unfold runForeachConcurrentFresh
  refine confined_pool ?_ (fun results => confined_completeForeach _)
  intro task ht
  obtain ⟨index, -, rfl⟩ := List.mem_map.mp ht
  exact confined_runItem hn (fun path => under_item index) (fun outcome ho => confined_conclude ho)

theorem confined_runExtraItems {finish : List (Nat × ExecOutcome) → Code} {toRun : List Nat}
    {settled : List (Nat × ExecOutcome)}
    (hs : ∀ entry ∈ settled, ∀ block, entry.2 = .blocked block →
      Under (staticPathOf parentPath) [each.name] block.path)
    (hf : ∀ settled : List (Nat × ExecOutcome), (∀ entry ∈ settled, ∀ block, entry.2 = .blocked block →
      Under (staticPathOf parentPath) [each.name] block.path) →
      Confined (Under (staticPathOf parentPath) [each.name]) (finish settled)) :
    Confined (Under (staticPathOf parentPath) [each.name])
      (runExtraItems each body parentPath frames items finish toRun settled) := by
  have hadd : ∀ (settled : List (Nat × ExecOutcome)) index outcome,
      (∀ entry ∈ settled, ∀ block, entry.2 = .blocked block →
        Under (staticPathOf parentPath) [each.name] block.path) →
      (∀ block, outcome = .blocked block → Under (staticPathOf parentPath) [each.name] block.path) →
      ∀ entry ∈ settled ++ [(index, outcome)], ∀ block, entry.2 = .blocked block →
        Under (staticPathOf parentPath) [each.name] block.path := by
    intro settled index outcome hs ho entry he
    rcases List.mem_append.mp he with he | he
    · exact hs entry he
    · rw [List.mem_singleton.mp he]
      exact ho
  induction toRun generalizing settled with
  | nil => exact hf settled hs
  | cons index rest ih =>
    intro memory
    dsimp only
    split_ifs
    · exact hf _ (hadd settled index _ hs (by simp))
    · refine confined_runItem hn (fun path => under_item index) ?_
      intro outcome ho
      exact ih (hadd settled index outcome hs ho)

theorem confined_runForeachConcurrentReentry (henv : PendingByKey env) {active : Reentry} :
    Confined (Under (staticPathOf parentPath) [each.name])
      (runForeachConcurrentReentry each body parentPath frames items env history active) := by
  unfold runForeachConcurrentReentry
  split
  · exact confined_raise _
  · refine confined_runItem hn (fun path => under_item _) ?_
    intro outcome ho
    refine confined_runExtraItems hn ?_ ?_
    · intro entry he
      rw [List.mem_singleton.mp he]
      exact ho
    · intro settled hs
      refine confined_settleConcurrent ?_ ?_ (confined_completeForeach _)
      · intro block hb
        obtain ⟨entry, he, hentry⟩ := List.mem_map.mp hb
        exact hs entry he block hentry
      · intro block hb
        obtain ⟨index, -, hp⟩ := List.mem_filterMap.mp hb
        refine under_item index ?_
        have hkey : staticPathOf block.path = itemKey parentPath each.name index := henv _ _ hp
        exact within_of_eq hkey

theorem confined_runForeachNode (henv : PendingByKey env) :
    Confined (Under (staticPathOf parentPath) [each.name])
      (runForeachNode env each body input parentPath frames reentry) := by
  intro memory
  dsimp only
  split
  · exact confined_conclude (by simp)
  · refine confined_opening (keepsTo_node rfl rfl rfl ?_) ?_
    · exact under_node (by simp)
    · split_ifs
      · exact confined_runForeachSequential hn
      · split
        · exact confined_runForeachConcurrentReentry hn henv
        · exact confined_runForeachConcurrentFresh hn
  · exact confined_conclude (by simp)

end Foreach

section Parallel

variable {arms : List StepDefinition} {parallelPath : NodePath}

theorem confined_arm (arm : StepDefinition)
    (hr : ∀ path, Within (staticPathOf parallelPath) path → region path) :
    Confined region (runStepNode env arm input parallelPath frames reentry) := by
  refine (confined_runStepNode arm input reentry).mono ?_
  rintro path rfl
  apply hr
  rw [Within, staticPathOf_appendSegment]
  exact List.prefix_append _ _

theorem confined_runParallelFresh (hr : ∀ path, Within (staticPathOf parallelPath) path → region path) :
    Confined region (runParallelFresh env arms input parallelPath frames) := by
  refine confined_emit (keepsTo_node rfl rfl rfl (hr _ (within_self _))) ?_
  refine confined_pool ?_ (fun results => confined_checkpoint (hr _ (within_self _)) _ _)
  intro task ht
  obtain ⟨arm, -, rfl⟩ := List.mem_map.mp ht
  exact confined_arm arm hr

structure Gathered.WaitsIn (gathered : Gathered) (region : NodePath → Prop) : Prop where
  target : ∀ block, gathered.target = some (.blocked block) → region block.path
  extra : ∀ block, .blocked block ∈ gathered.extra → region block.path
  stillBlocked : ∀ block ∈ gathered.stillBlocked, region block.path

theorem Gathered.WaitsIn.addExtra {gathered : Gathered} (h : gathered.WaitsIn region) (output : Record)
    {outcome : ExecOutcome} (ho : ∀ block, outcome = .blocked block → region block.path) :
    ({ gathered with output := output, extra := gathered.extra ++ [outcome] } : Gathered).WaitsIn region := by
  refine ⟨h.target, ?_, h.stillBlocked⟩
  intro block hb
  rcases List.mem_append.mp hb with hb | hb
  · exact h.extra block hb
  · exact ho block (List.mem_singleton.mp hb).symm

theorem confined_reenterArms (henv : PendingByKey env) {active : Reentry} {targetName : String}
    {gathered : Gathered} (hr : ∀ path, Within (staticPathOf parallelPath) path → region path)
    (hg : gathered.WaitsIn region) :
    Confined region (reenterArms env input parallelPath frames active targetName
      (settleReentry name targetName parallelPath) arms gathered) := by
  induction arms generalizing gathered with
  | nil =>
    simp only [reenterArms, settleReentry]
    split
    · exact confined_raise _
    · rename_i target ht
      refine confined_settleConcurrent ?_ hg.stillBlocked (confined_checkpoint (hr _ (within_self _)) _ _)
      intro block hb
      rcases List.mem_cons.mp hb with hb | hb
      · exact hg.target block (by rw [ht, hb])
      · exact hg.extra block hb
  | cons arm rest ih =>
    simp only [reenterArms]
    split
    · refine confined_andThen (confined_arm arm hr) ?_
      intro outcome ho
      refine ih ⟨?_, hg.extra, hg.stillBlocked⟩
      intro block hb
      exact ho block (Option.some.inj hb)
    · intro memory
      dsimp only
      split
      · exact ih ⟨hg.target, hg.extra, hg.stillBlocked⟩
      · split
        · rename_i pending hp
          refine ih ⟨hg.target, hg.extra, ?_⟩
          intro block hb
          rcases List.mem_append.mp hb with hb | hb
          · exact hg.stillBlocked block hb
          · rw [List.mem_singleton.mp hb]
            have hkey : staticPathOf pending.path = staticChildKey parallelPath arm.name := henv _ _ hp
            apply hr
            rw [Within, hkey]
            exact List.prefix_append _ _
        · split
          · exact ih (hg.addExtra _ (by simp))
          · refine confined_andThen (confined_arm arm hr) ?_
            intro outcome ho
            exact ih (hg.addExtra _ ho)

theorem stays_runParallelNode (henv : PendingByKey env) :
    Stays (.parallel name arms) (runParallelNode env name arms) := by
  intro input parentPath frames reentry
  have hr : ∀ path, Within (staticPathOf (appendSegment parentPath name)) path →
      Under (staticPathOf parentPath) (scopeNames (.parallel name arms)) path := by
    intro path hp
    rw [staticPathOf_appendSegment] at hp
    exact under_of_within (by simp [scopeNames, nodeName]) hp
  cases reentry with
  | none => exact confined_runParallelFresh hr
  | some active =>
    simp only [runParallelNode, runParallelReentry]
    split
    · exact confined_raise _
    · exact confined_reenterArms henv hr ⟨by simp, by simp, by simp⟩

end Parallel

end KimchiWorkflows.Engine

namespace KimchiWorkflows.Engine

open KimchiWorkflows.Flow Process Process.Proc

variable {env : RunEnv}

theorem map_fst_walked (env : RunEnv) (nodes : List WorkflowNode) :
    (walked env nodes).map Prod.fst = nodes := by
  induction nodes with
  | nil => rfl
  | cons node rest ih => rw [walked, List.map_cons, ih]

theorem fst_walkedArms (env : RunEnv) (arms : List BranchArm) :
    (walkedArms env arms).map Prod.fst = arms := by
  induction arms with
  | nil => rfl
  | cons arm rest ih =>
    obtain ⟨armName, condition, nodes⟩ := arm
    rw [walkedArms, List.map_cons, ih]

mutual

theorem stays_runNode (henv : PendingByKey env) (node : WorkflowNode) : Stays node (runNode env node) := by
  cases node with
  | step step => exact stays_runStepNode step
  | branch name arms =>
    refine stays_runBranchNode ?_ (stays_walkedArms henv arms)
    intro arm ha
    have hm := List.mem_map_of_mem (f := Prod.fst) ha
    rwa [fst_walkedArms] at hm
  | loop name mode body condition maxIterations =>
    intro input parentPath frames reentry
    rw [runNode]
    exact (confined_runLoopNode (stays_walked henv body)).mono (fun _ => id)
  | foreach name body selector concurrency feedback =>
    intro input parentPath frames reentry
    rw [runNode]
    exact (confined_runForeachNode (stays_walked henv body) henv).mono (fun _ => id)
  | parallel name arms => exact stays_runParallelNode henv
  | workflow name nodes => exact fun _ _ _ _ => confined_runNestedWorkflowNode (stays_walked henv nodes)

theorem stays_walked (henv : PendingByKey env) (nodes : List WorkflowNode) :
    ∀ node ∈ walked env nodes, Stays node.1 node.2 := by
  cases nodes with
  | nil => simp [walked]
  | cons node rest =>
    intro other ho
    rcases List.mem_cons.mp ho with rfl | ho
    · exact stays_runNode henv node
    · exact stays_walked henv rest other ho

theorem stays_walkedArms (henv : PendingByKey env) (arms : List BranchArm) :
    ∀ arm ∈ walkedArms env arms, ∀ node ∈ arm.2, Stays node.1 node.2 := by
  match arms with
  | [] => simp [walkedArms]
  | .mk name condition body :: rest =>
    intro arm ha
    rcases List.mem_cons.mp ha with rfl | ha
    · exact stays_walked henv body
    · exact stays_walkedArms henv rest arm ha

end

end KimchiWorkflows.Engine
