import KimchiWorkflows.Engine.SlotPhases
import KimchiWorkflows.Engine.FanOutConfinement

/-!
Every node of a tree takes slots for the steps it runs only, and lets only what its fan-outs allow overlap.
-/

namespace KimchiWorkflows.Engine

open KimchiWorkflows.Flow Process Process.Proc

variable {clash : NodePath → StepDefinition → NodePath → StepDefinition → Prop}
  {region : NodePath → StepDefinition → Prop} {env : RunEnv} {parentPath : NodePath} {frames : List ScopeFrame}
  {name : String} {input : Value} {reentry : Option Reentry} {body : List Walked}

def TakesSlots (node : WorkflowNode) (run : NodeRunner) : Prop :=
  ∀ input parentPath frames reentry, Slotted (Overlap (staticPathOf parentPath) node)
    (RunsAt (staticPathOf parentPath) node) (run input parentPath frames reentry)

theorem slotted_walkNodes (hn : ∀ node ∈ body, TakesSlots node.1 node.2)
    (hc : Covers clash region (staticPathOf parentPath) (body.map Prod.fst)) :
    Slotted clash region (walkNodes parentPath frames body input reentry) := by
  induction body generalizing input reentry with
  | nil => exact slotted_conclude _
  | cons node rest ih =>
    obtain ⟨node, run⟩ := node
    intro memory
    dsimp only
    split_ifs
    · exact slotted_conclude _
    · obtain ⟨hr, ho⟩ := hc node (by simp)
      refine slotted_ifOk ((hn (node, run) List.mem_cons_self _ _ _ _).mono hr ho) ?_
      intro output
      exact slotted_store _ _ (ih (fun other hm => hn other (List.mem_cons_of_mem _ hm))
        (fun other hm => hc other (List.mem_cons_of_mem _ hm)))

theorem slotted_runNodeSequence {startIndex : Nat} (hn : ∀ node ∈ body, TakesSlots node.1 node.2)
    (hc : Covers clash region (staticPathOf parentPath) (body.map Prod.fst)) :
    Slotted clash region (runNodeSequence body input parentPath frames startIndex reentry) := by
  have hwalk : ∀ index input reentry, Slotted clash region
      (walkNodes parentPath frames (body.drop index) input reentry) := by
    intro index input reentry
    refine slotted_walkNodes (fun node hm => hn node (List.mem_of_mem_drop hm)) ?_
    intro node hm
    rw [List.map_drop] at hm
    exact hc node (List.mem_of_mem_drop hm)
  cases reentry with
  | none => exact hwalk _ _ _
  | some active =>
    simp only [runNodeSequence]
    split
    · exact slotted_raise _
    · split
      · exact slotted_conclude _
      · exact fun memory => hwalk _ _ _

theorem slotted_runTakenArms {finish : Record → Code} {decisions : List DecidedArm} {result : Record}
    (hn : ∀ decision ∈ decisions, ∀ node ∈ decision.1.2, TakesSlots node.1 node.2)
    (hc : ∀ decision ∈ decisions, Covers clash region (staticChildKey parentPath decision.1.1.name)
      (decision.1.2.map Prod.fst))
    (hf : ∀ result, Slotted clash region (finish result)) :
    Slotted clash region (runTakenArms input parentPath frames finish decisions result reentry) := by
  induction decisions generalizing result reentry with
  | nil => exact hf result
  | cons decision rest ih =>
    obtain ⟨⟨arm, nodes⟩, taken⟩ := decision
    have hrest : ∀ result reentry,
        Slotted clash region (runTakenArms input parentPath frames finish rest result reentry) :=
      fun result reentry => ih (fun d hd => hn d (List.mem_cons_of_mem _ hd))
        (fun d hd => hc d (List.mem_cons_of_mem _ hd))
    have hrun : ∀ armReentry, Slotted clash region (runArm nodes input parentPath frames arm.name armReentry
        (fun output => runTakenArms input parentPath frames finish rest (assign result arm.name output)
          none)) := by
      intro armReentry memory
      dsimp only
      split_ifs
      · exact slotted_conclude _
      · refine slotted_ifOk (slotted_runNodeSequence (hn _ List.mem_cons_self) ?_) ?_
        · rw [staticPathOf_appendSegment]
          exact hc ((arm, nodes), taken) List.mem_cons_self
        · exact fun output => slotted_emit _ (hrest _ _)
    cases taken with
    | false => exact hrest _ _
    | true =>
      simp only [runTakenArms, if_true]
      cases reentry with
      | none => exact hrun none
      | some active =>
        dsimp only
        split
        · exact slotted_raise _
        · split_ifs
          · exact hrun _
          · exact fun memory => hrest _ _

theorem slotted_runBranchNode {arms : List WalkedArm}
    (hn : ∀ arm ∈ arms, ∀ node ∈ arm.2, TakesSlots node.1 node.2)
    (hc : ∀ arm ∈ arms, Covers clash region (staticChildKey parentPath arm.1.name) (arm.2.map Prod.fst)) :
    Slotted clash region (runBranchNode env name arms input parentPath frames reentry) := by
  refine slotted_emitAll _ ?_
  intro memory
  dsimp only
  split
  · exact slotted_conclude _
  · rename_i decisions hd
    have hmem := mem_of_decideArms hd
    exact slotted_emitAll _ (slotted_runTakenArms (fun decision hm => hn _ (hmem decision hm))
      (fun decision hm => hc _ (hmem decision hm)) (fun result => slotted_checkpoint _ _ _))

section Loop

variable {loop : LoopDefinition}

theorem slotted_iterate {remaining iteration : Nat} (hn : ∀ node ∈ body, TakesSlots node.1 node.2)
    (hc : Covers clash region (staticChildKey parentPath loop.name) (body.map Prod.fst)) :
    Slotted clash region (iterate env loop body parentPath frames remaining iteration input reentry) := by
  induction remaining generalizing iteration input reentry with
  | zero => exact slotted_conclude _
  | succ remaining ih =>
    intro memory
    dsimp only
    split
    · exact slotted_conclude _
    · refine slotted_emitAll _ (slotted_ifOk (slotted_runNodeSequence hn ?_) ?_)
      · rwa [staticPathOf_appendLoopIteration]
      · intro output memory
        dsimp only
        split
        · exact slotted_conclude _
        · split_ifs
          · exact slotted_checkpoint _ _ _
          · exact ih

theorem slotted_runLoopNode (hn : ∀ node ∈ body, TakesSlots node.1 node.2)
    (hc : Covers clash region (staticChildKey parentPath loop.name) (body.map Prod.fst)) :
    Slotted clash region (runLoopNode env loop body input parentPath frames reentry) := by
  cases reentry with
  | none => exact slotted_emit _ (slotted_iterate hn hc)
  | some active =>
    simp only [runLoopNode]
    split
    · exact slotted_raise _
    · exact fun memory => slotted_iterate hn hc

end Loop

theorem slotted_runNestedWorkflowNode (hn : ∀ node ∈ body, TakesSlots node.1 node.2)
    (hc : Covers clash region (staticChildKey parentPath name) (body.map Prod.fst)) :
    Slotted clash region (runNestedWorkflowNode name body input parentPath frames reentry) := by
  refine slotted_emitAll _ (slotted_ifOk (slotted_runNodeSequence hn ?_) (fun output => slotted_checkpoint _ _ _))
  rwa [staticPathOf_appendSegment]

section Foreach

variable {each : ForeachDefinition} {items : List Value} {history : ItemHistory} {index : Nat}
  (hn : ∀ node ∈ body, TakesSlots node.1 node.2)

def itemScope (parentPath : NodePath) (name : String) (index : Nat) : NodePath :=
  staticPathOf parentPath ++ [{ name := name, index := some (.foreach, index) }]

include hn

theorem slotted_runItem {next : ExecOutcome → Code}
    (hc : Covers clash region (itemScope parentPath each.name index) (body.map Prod.fst))
    (h : ∀ outcome, Slotted clash region (next outcome)) :
    Slotted clash region (runItem each body parentPath frames items index input reentry next) := by
  refine slotted_emitAll _ (slotted_andThen (slotted_runNodeSequence hn ?_) ?_)
  · rwa [staticPathOf_appendForeachItem]
  · exact fun outcome => slotted_emitAll _ (h outcome)

variable (hc : ∀ index, Covers clash region (itemScope parentPath each.name index) (body.map Prod.fst))

include hc

theorem slotted_runItemsFrom {remaining : Nat} {results : List Value} {fed : Value} :
    Slotted clash region (runItemsFrom each body parentPath frames items remaining index results fed reentry) := by
  induction remaining generalizing index results fed reentry with
  | zero => exact slotted_checkpoint _ _ _
  | succ remaining ih =>
    intro memory
    dsimp only
    split
    · exact slotted_conclude _
    · refine slotted_runItem hn (hc _) ?_
      intro outcome
      cases outcome with
      | ok output => exact ih
      | _ => exact slotted_conclude _

theorem slotted_runForeachSequential :
    Slotted clash region (runForeachSequential each body parentPath frames items input history reentry) := by
  cases reentry with
  | none => exact slotted_runItemsFrom hn hc
  | some active =>
    simp only [runForeachSequential]
    split
    · exact slotted_raise _
    · exact slotted_runItemsFrom hn hc

theorem slotted_runExtraItems {finish : List (Nat × ExecOutcome) → Code} {toRun : List Nat}
    {settled : List (Nat × ExecOutcome)} (hf : ∀ settled, Slotted clash region (finish settled)) :
    Slotted clash region (runExtraItems each body parentPath frames items finish toRun settled) := by
  induction toRun generalizing settled with
  | nil => exact hf settled
  | cons index rest ih =>
    intro memory
    dsimp only
    split_ifs
    · exact hf _
    · exact slotted_runItem hn (hc _) (fun outcome => ih)

theorem slotted_runForeachConcurrentReentry {active : Reentry} :
    Slotted clash region (runForeachConcurrentReentry each body parentPath frames items env history active) := by
  unfold runForeachConcurrentReentry
  split
  · exact slotted_raise _
  · refine slotted_runItem hn (hc _) ?_
    intro outcome
    exact slotted_runExtraItems hn hc (fun settled => slotted_settleConcurrent _ _ (slotted_checkpoint _ _ _))

end Foreach

section FanOut

variable {each : ForeachDefinition} {items : List Value} {history : ItemHistory} {feedback : Bool}
  {nodes : List WorkflowNode}

theorem slotted_runForeachConcurrentFresh (hn : ∀ node ∈ body, TakesSlots node.1 node.2)
    (hc : 1 < each.concurrency) (hnodes : body.map Prod.fst = nodes) :
    Slotted (Overlap (staticPathOf parentPath) (.foreach each.name nodes each.selector each.concurrency feedback))
      (RunsAt (staticPathOf parentPath) (.foreach each.name nodes each.selector each.concurrency feedback))
      (runForeachConcurrentFresh each body parentPath frames items history) := by
  unfold runForeachConcurrentFresh
  dsimp only
  generalize htoRun : (List.range items.length).filter (fun index => !Dict.has history index) = toRun
  have hnodup : toRun.Nodup := htoRun ▸ List.nodup_range.filter _
  have hchild : ∀ index, Child (staticPathOf parentPath)
      (.foreach each.name nodes each.selector each.concurrency feedback)
      (itemScope parentPath each.name index) nodes := fun index => .item index
  refine slotted_runConcurrent (fun i key step => ∃ node ∈ nodes,
    RunsAt (itemScope parentPath each.name (toRun.getD i 0)) node key step) ?_ ?_ ?_ ?_
  · intro i hi
    rw [List.length_map] at hi
    rw [List.getElem_map]
    refine slotted_runItem hn ?_ (fun outcome => slotted_conclude _)
    intro node hm
    rw [hnodes] at hm
    rw [List.getD_eq_getElem _ _ hi]
    exact ⟨fun _ _ hr => ⟨node, hm, hr⟩, fun _ _ _ _ ho => .inside (hchild _) hm ho⟩
  · rintro i hi key step ⟨node, hm, hr⟩
    exact .inside (hchild _) hm hr
  · rintro i hi j hj hne key step key' step' ⟨m, hm, hr⟩ ⟨n, hn, hr'⟩
    rw [List.length_map] at hi hj
    rw [List.getD_eq_getElem _ _ hi] at hr
    rw [List.getD_eq_getElem _ _ hj] at hr'
    refine .items hc (fun he => hne ?_) hm hn hr hr'
    exact (List.Nodup.getElem_inj_iff hnodup).mp he
  · exact fun results => slotted_settleAll _ (slotted_checkpoint _ _ _)

theorem slotted_runForeachNode (each : ForeachDefinition) (hn : ∀ node ∈ body, TakesSlots node.1 node.2) (hnodes : body.map Prod.fst = nodes) :
    Slotted (Overlap (staticPathOf parentPath) (.foreach each.name nodes each.selector each.concurrency feedback))
      (RunsAt (staticPathOf parentPath) (.foreach each.name nodes each.selector each.concurrency feedback))
      (runForeachNode env each body input parentPath frames reentry) := by
  have hc : ∀ index, Covers
      (Overlap (staticPathOf parentPath) (.foreach each.name nodes each.selector each.concurrency feedback))
      (RunsAt (staticPathOf parentPath) (.foreach each.name nodes each.selector each.concurrency feedback))
      (itemScope parentPath each.name index) (body.map Prod.fst) := by
    intro index
    rw [hnodes]
    exact covers_child (.item index)
  intro memory
  dsimp only
  split
  · exact slotted_conclude _
  · refine slotted_emitAll _ ?_
    split_ifs with hone
    · exact slotted_runForeachSequential hn hc
    · split
      · exact slotted_runForeachConcurrentReentry hn hc
      · exact slotted_runForeachConcurrentFresh hn (not_le.mp hone) hnodes
  · exact slotted_conclude _

variable {arms : List StepDefinition} {parallelPath : NodePath}

theorem slotted_runParallelFresh (harms : (arms.map StepDefinition.name).Nodup)
    (hr : ∀ arm ∈ arms, region (staticChildKey parallelPath arm.name) arm)
    (ho : ∀ a ∈ arms, ∀ b ∈ arms, a.name ≠ b.name →
      clash (staticChildKey parallelPath a.name) a (staticChildKey parallelPath b.name) b) :
    Slotted clash region (runParallelFresh env arms input parallelPath frames) := by
  refine slotted_emit _ (slotted_runConcurrent (fun i key step => ∃ arm, arms[i]? = some arm ∧
    key = staticChildKey parallelPath arm.name ∧ step = arm) ?_ ?_ ?_ ?_)
  · intro i hi
    rw [List.length_map] at hi
    rw [List.getElem_map]
    exact slotted_runStepNode ⟨arms[i], List.getElem?_eq_getElem hi, rfl, rfl⟩
  · rintro i hi key step ⟨arm, harm, rfl, rfl⟩
    exact hr _ (List.mem_of_getElem? harm)
  · rintro i hi j hj hne key step key' step' ⟨a, ha, rfl, rfl⟩ ⟨b, hb, rfl, rfl⟩
    refine ho _ (List.mem_of_getElem? ha) _ (List.mem_of_getElem? hb) (fun he => hne ?_)
    rw [List.length_map] at hi hj
    have hi' : i < (arms.map StepDefinition.name).length := by simpa using hi
    have hj' : j < (arms.map StepDefinition.name).length := by simpa using hj
    have hnames : (arms.map StepDefinition.name)[i] = (arms.map StepDefinition.name)[j] := by
      rw [List.getElem?_eq_getElem hi, Option.some.injEq] at ha
      rw [List.getElem?_eq_getElem hj, Option.some.injEq] at hb
      rw [List.getElem_map, List.getElem_map, ha, hb, he]
    exact (List.Nodup.getElem_inj_iff harms).mp hnames
  · exact fun results => slotted_settleAll _ (slotted_checkpoint _ _ _)

theorem slotted_reenterArms {active : Reentry} {targetName : String} {finish : Gathered → Code} {gathered : Gathered}
    (hr : ∀ arm ∈ arms, region (staticChildKey parallelPath arm.name) arm)
    (hf : ∀ gathered, Slotted clash region (finish gathered)) :
    Slotted clash region (reenterArms env input parallelPath frames active targetName finish arms gathered) := by
  induction arms generalizing gathered with
  | nil => exact hf gathered
  | cons arm rest ih =>
    have hnext : ∀ gathered, Slotted clash region
        (reenterArms env input parallelPath frames active targetName finish rest gathered) :=
      fun gathered => ih (fun other hm => hr other (List.mem_cons_of_mem _ hm))
    have harm := hr arm List.mem_cons_self
    simp only [reenterArms]
    split
    · exact slotted_andThen (slotted_runStepNode harm) (fun outcome => hnext _)
    · intro memory
      dsimp only
      split
      · exact hnext _
      · split
        · exact hnext _
        · split
          · exact hnext _
          · exact slotted_andThen (slotted_runStepNode harm) (fun outcome => hnext _)

theorem takesSlots_runParallelNode {name : String} (harms : (arms.map StepDefinition.name).Nodup) :
    TakesSlots (.parallel name arms) (runParallelNode env name arms) := by
  intro input parentPath frames reentry
  have hkey : ∀ arm : StepDefinition, staticChildKey (appendSegment parentPath name) arm.name =
      staticPathOf parentPath ++ [{ name := name }] ++ [{ name := arm.name }] := by
    intro arm
    rw [staticChildKey, staticPathOf_appendSegment, staticChildKey]
  have hr : ∀ arm ∈ arms, RunsAt (staticPathOf parentPath) (.parallel name arms)
      (staticChildKey (appendSegment parentPath name) arm.name) arm := by
    intro arm hm
    rw [hkey]
    exact .arm hm
  cases reentry with
  | none =>
    refine slotted_runParallelFresh harms hr ?_
    intro a ha b hb hne
    rw [hkey, hkey]
    exact .arms ha hb hne
  | some active =>
    simp only [runParallelNode, runParallelReentry]
    split
    · exact slotted_raise _
    · refine slotted_reenterArms hr ?_
      intro gathered
      unfold settleReentry
      split
      · exact slotted_raise _
      · exact slotted_settleConcurrent _ _ (slotted_checkpoint _ _ _)

end FanOut

theorem walkedArms_body {arms : List BranchArm} {arm : WalkedArm} (h : arm ∈ walkedArms env arms) :
    arm.1 ∈ arms ∧ arm.2 = walked env arm.1.body := by
  induction arms with
  | nil => simp [walkedArms] at h
  | cons first rest ih =>
    obtain ⟨armName, condition, nodes⟩ := first
    rw [walkedArms] at h
    obtain rfl | h := List.mem_cons.mp h
    · exact ⟨List.mem_cons_self, rfl⟩
    · exact ⟨List.mem_cons_of_mem _ (ih h).1, (ih h).2⟩

mutual

theorem takesSlots_runNode (node : WorkflowNode) (hu : scopesUniqueUnder node = true) :
    TakesSlots node (runNode env node) := by
  cases node with
  | step step =>
    intro input parentPath frames reentry
    exact slotted_runStepNode .step
  | branch name arms =>
    intro input parentPath frames reentry
    rw [runNode]
    refine slotted_runBranchNode (takesSlots_walkedArms arms hu) ?_
    intro arm ha
    obtain ⟨hm, hbody⟩ := walkedArms_body ha
    rw [hbody, map_fst_walked]
    exact covers_child (.arm hm)
  | loop name mode body condition maxIterations =>
    intro input parentPath frames reentry
    rw [runNode]
    refine slotted_runLoopNode (takesSlots_walked body ((Bool.and_eq_true _ _).mp hu).2) ?_
    rw [map_fst_walked]
    exact covers_child .loop
  | foreach name body selector concurrency feedback =>
    intro input parentPath frames reentry
    rw [runNode]
    exact slotted_runForeachNode ⟨name, selector, concurrency, feedback⟩ (takesSlots_walked body ((Bool.and_eq_true _ _).mp hu).2) (map_fst_walked env body)
  | parallel name arms => exact takesSlots_runParallelNode (of_decide_eq_true hu)
  | workflow name nodes =>
    intro input parentPath frames reentry
    rw [runNode]
    refine slotted_runNestedWorkflowNode (takesSlots_walked nodes ((Bool.and_eq_true _ _).mp hu).2) ?_
    rw [map_fst_walked]
    exact covers_child .workflow

theorem takesSlots_walked (nodes : List WorkflowNode) (hu : scopesUniqueIn nodes = true) :
    ∀ node ∈ walked env nodes, TakesSlots node.1 node.2 := by
  cases nodes with
  | nil => simp [walked]
  | cons node rest =>
    have hparts := (Bool.and_eq_true _ _).mp hu
    intro other ho
    rcases List.mem_cons.mp ho with rfl | ho
    · exact takesSlots_runNode node hparts.1
    · exact takesSlots_walked rest hparts.2 other ho

theorem takesSlots_walkedArms (arms : List BranchArm) (hu : scopesUniqueInArms arms = true) :
    ∀ arm ∈ walkedArms env arms, ∀ node ∈ arm.2, TakesSlots node.1 node.2 := by
  cases arms with
  | nil => simp [walkedArms]
  | cons first rest =>
    obtain ⟨armName, condition, body⟩ := first
    have hparts := (Bool.and_eq_true _ _).mp hu
    intro arm ha
    rcases List.mem_cons.mp ha with rfl | ha
    · exact takesSlots_walked body ((Bool.and_eq_true _ _).mp hparts.1).2
    · exact takesSlots_walkedArms rest hparts.2 arm ha

end

end KimchiWorkflows.Engine
