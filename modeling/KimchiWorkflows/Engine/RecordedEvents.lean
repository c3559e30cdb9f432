import KimchiWorkflows.Engine.EventGrammar
import KimchiWorkflows.Engine.SlotKeeping

/-!
Whatever a run of a workflow records, some node of it can record under the path it is run at.
-/

namespace KimchiWorkflows.Engine

open KimchiWorkflows.Flow Process Process.Proc Scheduling

variable {env : RunEnv} {allowed : RunEvent → Prop} {parentPath : NodePath} {frames : List ScopeFrame}
  {name : String} {input : Value} {reentry : Option Reentry} {body : List Walked}

def PendingAllowed (env : RunEnv) (allowed : RunEvent → Prop) : Prop :=
  ∀ key block, Dict.get env.pendingBlocks key = some block → allowed (.stepCancelled block.path)

/-- Under whichever path a node is run, it records what it can record there. -/
def Speaks (env : RunEnv) (node : WorkflowNode) (run : NodeRunner) : Prop :=
  ∀ input parentPath frames reentry allowed, PendingAllowed env allowed →
    (∀ event, Emitted parentPath node event → allowed event) → Records allowed (run input parentPath frames reentry)

section Bodies

variable (hn : ∀ node ∈ body, Speaks env node.1 node.2) (hp : PendingAllowed env allowed)

include hn hp

theorem records_walkNodes (hc : ∀ node ∈ body, ∀ event, Emitted parentPath node.1 event → allowed event) :
    Records allowed (walkNodes parentPath frames body input reentry) := by
  induction body generalizing input reentry with
  | nil => exact records_conclude trivial
  | cons node rest ih =>
    obtain ⟨node, run⟩ := node
    intro memory
    dsimp only
    split_ifs
    · exact records_conclude trivial
    · refine records_ifOk (hn (node, run) List.mem_cons_self _ _ _ _ _ hp (hc (node, run) List.mem_cons_self)) ?_
      intro output
      exact records_act (by simp) (ih (fun other ho => hn other (List.mem_cons_of_mem _ ho))
        (fun other ho => hc other (List.mem_cons_of_mem _ ho)))

theorem records_runNodeSequence {startIndex : Nat}
    (hc : ∀ node ∈ body, ∀ event, Emitted parentPath node.1 event → allowed event) :
    Records allowed (runNodeSequence body input parentPath frames startIndex reentry) := by
  have hwalk : ∀ index input reentry, Records allowed (walkNodes parentPath frames (body.drop index) input reentry) :=
    fun index input reentry => records_walkNodes (fun node hm => hn node (List.mem_of_mem_drop hm)) hp
      (fun node hm => hc node (List.mem_of_mem_drop hm))
  cases reentry with
  | none => exact hwalk _ _ _
  | some active =>
    simp only [runNodeSequence]
    split
    · exact records_raise _
    · split
      · exact records_conclude trivial
      · exact fun memory => hwalk _ _ _

end Bodies

section Branch

theorem records_runTakenArms {finish : Record → Code} {decisions : List DecidedArm} {result : Record}
    (hp : PendingAllowed env allowed) (hn : ∀ decision ∈ decisions, ∀ node ∈ decision.1.2, Speaks env node.1 node.2)
    (hc : ∀ decision ∈ decisions, ∀ node ∈ decision.1.2, ∀ event,
      Emitted (appendSegment parentPath decision.1.1.name) node.1 event → allowed event)
    (harm : ∀ decision ∈ decisions, ∀ output,
      allowed (.nodeCompleted (appendSegment parentPath decision.1.1.name) output))
    (hf : ∀ result, Records allowed (finish result)) :
    Records allowed (runTakenArms input parentPath frames finish decisions result reentry) := by
  induction decisions generalizing result reentry with
  | nil => exact hf result
  | cons decision rest ih =>
    obtain ⟨⟨arm, nodes⟩, taken⟩ := decision
    have hrest : ∀ result reentry,
        Records allowed (runTakenArms input parentPath frames finish rest result reentry) :=
      fun result reentry => ih (fun d hd => hn d (List.mem_cons_of_mem _ hd))
        (fun d hd => hc d (List.mem_cons_of_mem _ hd)) (fun d hd => harm d (List.mem_cons_of_mem _ hd))
    have hrun : ∀ armReentry, Records allowed (runArm nodes input parentPath frames arm.name armReentry
        (fun output => runTakenArms input parentPath frames finish rest (assign result arm.name output) none)) := by
      intro armReentry memory
      dsimp only
      split_ifs
      · exact records_conclude trivial
      · refine records_ifOk (records_runNodeSequence (hn _ List.mem_cons_self) hp (hc _ List.mem_cons_self)) ?_
        exact fun output => records_emit (harm _ List.mem_cons_self output) (hrest _ _)
    cases taken with
    | false => exact hrest _ _
    | true =>
      simp only [runTakenArms, if_true]
      cases reentry with
      | none => exact hrun none
      | some active =>
        dsimp only
        split
        · exact records_raise _
        · split_ifs
          · exact hrun _
          · exact fun memory => hrest _ _

theorem speaks_runBranchNode {arms : List BranchArm} {walkedArms : List WalkedArm}
    (hw : ∀ arm ∈ walkedArms, arm.1 ∈ arms ∧ ∀ node ∈ arm.2, node.1 ∈ arm.1.body)
    (hn : ∀ arm ∈ walkedArms, ∀ node ∈ arm.2, Speaks env node.1 node.2) :
    Speaks env (.branch name arms) (runBranchNode env name walkedArms) := by
  intro input parentPath frames reentry allowed hp ha
  refine records_opening (ha _ (.opened rfl)) ?_
  intro memory
  dsimp only
  split
  · exact records_conclude (ha _ (.crashed _ .node))
  · rename_i decisions hd
    have hmem := mem_of_decideArms hd
    refine records_emitAll ?_ (records_runTakenArms hp (fun decision hm => hn _ (hmem decision hm)) ?_ ?_ ?_)
    · intro event he
      split_ifs at he
      · cases he
      · obtain ⟨decision, hm, rfl⟩ := List.mem_map.mp he
        exact ha _ (.armDecided _ (hw _ (hmem decision hm)).1)
    · intro decision hm node hnode event he
      obtain ⟨harm, hbody⟩ := hw _ (hmem decision hm)
      exact ha _ (.inside (.arm harm) (hbody node hnode) he)
    · intro decision hm output
      exact ha _ (.armClosed output (hw _ (hmem decision hm)).1)
    · exact fun result => records_checkpoint (ha _ (.closed _ (by simp))) _

end Branch

section Loop

variable {loop : LoopDefinition} {nodes : List WorkflowNode}

theorem records_iterate {remaining iteration : Nat} (hp : PendingAllowed env allowed)
    (hn : ∀ node ∈ body, Speaks env node.1 node.2) (hnodes : ∀ node ∈ body, node.1 ∈ nodes)
    (ha : ∀ event, Emitted parentPath (.loop loop.name loop.mode nodes loop.condition loop.maxIterations) event →
      allowed event) :
    Records allowed (iterate env loop body parentPath frames remaining iteration input reentry) := by
  induction remaining generalizing iteration input reentry with
  | zero => exact records_conclude (ha _ (.crashed _ .node))
  | succ remaining ih =>
    intro memory
    dsimp only
    split
    · exact records_conclude trivial
    · refine records_opening (ha _ (.iterated iteration)) (records_ifOk (records_runNodeSequence hn hp ?_) ?_)
      · intro node hm event he
        exact ha _ (.inside (.iteration iteration) (hnodes node hm) he)
      · intro output memory
        dsimp only
        split
        · exact records_conclude (ha _ (.crashed _ (.iteration iteration)))
        · split_ifs
          · exact records_checkpoint (ha _ (.closed _ (by simp))) _
          · exact ih

theorem records_runLoopNode (hp : PendingAllowed env allowed)
    (hn : ∀ node ∈ body, Speaks env node.1 node.2) (hnodes : ∀ node ∈ body, node.1 ∈ nodes)
    (ha : ∀ event, Emitted parentPath (.loop loop.name loop.mode nodes loop.condition loop.maxIterations) event →
      allowed event) : Records allowed (runLoopNode env loop body input parentPath frames reentry) := by
  cases reentry with
  | none => exact records_emit (ha _ (.opened rfl)) (records_iterate hp hn hnodes ha)
  | some active =>
    simp only [runLoopNode]
    split
    · exact records_raise _
    · exact fun memory => records_iterate hp hn hnodes ha

end Loop

theorem records_runNestedWorkflowNode {nodes : List WorkflowNode} (hp : PendingAllowed env allowed)
    (hn : ∀ node ∈ body, Speaks env node.1 node.2) (hnodes : ∀ node ∈ body, node.1 ∈ nodes)
    (ha : ∀ event, Emitted parentPath (.workflow name nodes) event → allowed event) :
    Records allowed (runNestedWorkflowNode name body input parentPath frames reentry) := by
  refine records_opening (ha _ (.opened rfl)) (records_ifOk (records_runNodeSequence hn hp ?_) ?_)
  · intro node hm event he
    exact ha _ (.inside .workflow (hnodes node hm) he)
  · exact fun output => records_checkpoint (ha _ (.closed _ (by simp))) _

section Foreach

variable {each : ForeachDefinition} {items : List Value} {history : ItemHistory} {index : Nat}
  {nodes : List WorkflowNode} (hp : PendingAllowed env allowed) (hn : ∀ node ∈ body, Speaks env node.1 node.2)
  (hnodes : ∀ node ∈ body, node.1 ∈ nodes)
  (ha : ∀ event, Emitted parentPath (.foreach each.name nodes each.selector each.concurrency each.feedback) event →
    allowed event)

include ha

theorem records_completeForeach (results : List Value) :
    Records allowed (completeForeach each parentPath results) :=
  records_checkpoint (ha _ (.closed _ (by simp))) _

include hp hn hnodes

theorem records_runItem {next : ExecOutcome → Code} (h : ∀ outcome, MayEnd allowed outcome → Records allowed (next outcome)) :
    Records allowed (runItem each body parentPath frames items index input reentry next) := by
  refine records_opening (ha _ (.itemStarted index)) (records_andThen (records_runNodeSequence hn hp ?_) ?_)
  · intro node hm event he
    exact ha _ (.inside (.item index) (hnodes node hm) he)
  · intro outcome ho
    refine records_emitAll ?_ (h outcome ho)
    intro event he
    cases outcome with
    | ok output =>
      rw [List.mem_singleton.mp he]
      exact ha _ (.itemCompleted index output)
    | _ => cases he

theorem records_runItemsFrom {remaining : Nat} {results : List Value} {fed : Value} :
    Records allowed (runItemsFrom each body parentPath frames items remaining index results fed reentry) := by
  induction remaining generalizing index results fed reentry with
  | zero => exact records_completeForeach ha results
  | succ remaining ih =>
    intro memory
    dsimp only
    split
    · exact records_conclude trivial
    · refine records_runItem hp hn hnodes ha ?_
      intro outcome ho
      cases outcome with
      | ok output => exact ih
      | _ => exact records_conclude ho

theorem records_runForeachSequential :
    Records allowed (runForeachSequential each body parentPath frames items input history reentry) := by
  cases reentry with
  | none => exact records_runItemsFrom hp hn hnodes ha
  | some active =>
    simp only [runForeachSequential]
    split
    · exact records_raise _
    · exact records_runItemsFrom hp hn hnodes ha

theorem records_runForeachConcurrentFresh :
    Records allowed (runForeachConcurrentFresh each body parentPath frames items history) := by
  unfold runForeachConcurrentFresh
  refine records_pool ?_ (fun results => records_completeForeach ha _)
  intro task ht
  obtain ⟨index, -, rfl⟩ := List.mem_map.mp ht
  exact records_runItem hp hn hnodes ha (fun outcome ho => records_conclude ho)

theorem records_runExtraItems {finish : List (Nat × ExecOutcome) → Code} {toRun : List Nat}
    {settled : List (Nat × ExecOutcome)}
    (hs : ∀ entry ∈ settled, MayEnd allowed entry.2)
    (hf : ∀ settled : List (Nat × ExecOutcome), (∀ entry ∈ settled, MayEnd allowed entry.2) →
      Records allowed (finish settled)) :
    Records allowed (runExtraItems each body parentPath frames items finish toRun settled) := by
  have hadd : ∀ (settled : List (Nat × ExecOutcome)) index outcome,
      (∀ entry ∈ settled, MayEnd allowed entry.2) → MayEnd allowed outcome →
      ∀ entry ∈ settled ++ [(index, outcome)], MayEnd allowed entry.2 := by
    intro settled index outcome hs ho entry he
    obtain he | he := List.mem_append.mp he
    · exact hs entry he
    · rw [List.mem_singleton.mp he]
      exact ho
  induction toRun generalizing settled with
  | nil => exact hf settled hs
  | cons index rest ih =>
    intro memory
    dsimp only
    split_ifs
    · exact hf _ (hadd settled index _ hs trivial)
    · refine records_runItem hp hn hnodes ha ?_
      intro outcome ho
      exact ih (hadd settled index outcome hs ho)

theorem records_runForeachConcurrentReentry {active : Reentry} :
    Records allowed (runForeachConcurrentReentry each body parentPath frames items env history active) := by
  unfold runForeachConcurrentReentry
  split
  · exact records_raise _
  · refine records_runItem hp hn hnodes ha ?_
    intro outcome ho
    refine records_runExtraItems hp hn hnodes ha ?_ ?_
    · intro entry he
      rw [List.mem_singleton.mp he]
      exact ho
    · intro settled hs
      refine records_settleConcurrent ?_ ?_ (records_completeForeach ha _)
      · intro outcome hm
        obtain ⟨entry, he, rfl⟩ := List.mem_map.mp hm
        exact hs entry he
      · intro block hb
        obtain ⟨index, -, hpending⟩ := List.mem_filterMap.mp hb
        exact hp _ _ hpending

theorem records_runForeachNode : Records allowed (runForeachNode env each body input parentPath frames reentry) := by
  intro memory
  dsimp only
  split
  · exact records_conclude (ha _ (.crashed _ .node))
  · refine records_opening (ha _ (.selected _)) ?_
    split_ifs
    · exact records_runForeachSequential hp hn hnodes ha
    · split
      · exact records_runForeachConcurrentReentry hp hn hnodes ha
      · exact records_runForeachConcurrentFresh hp hn hnodes ha
  · exact records_conclude (ha _ (.crashed _ .node))

end Foreach

section Parallel

structure GatheredMayEnd (allowed : RunEvent → Prop) (gathered : Gathered) : Prop where
  target : ∀ outcome, gathered.target = some outcome → MayEnd allowed outcome
  extra : ∀ outcome ∈ gathered.extra, MayEnd allowed outcome
  stillBlocked : ∀ block ∈ gathered.stillBlocked, allowed (.stepCancelled block.path)

theorem GatheredMayEnd.addExtra {gathered : Gathered} {outcome : ExecOutcome} (h : GatheredMayEnd allowed gathered)
    (output : Record) (ho : MayEnd allowed outcome) :
    GatheredMayEnd allowed { gathered with output := output, extra := gathered.extra ++ [outcome] } := by
  refine ⟨h.target, ?_, h.stillBlocked⟩
  intro other hm
  obtain hm | hm := List.mem_append.mp hm
  · exact h.extra other hm
  · rw [List.mem_singleton.mp hm]
    exact ho

variable {arms rest : List StepDefinition} (hp : PendingAllowed env allowed)
  (ha : ∀ event, Emitted parentPath (.parallel name arms) event → allowed event)

include ha

theorem speaks_arm {arm : StepDefinition} (hm : arm ∈ arms) :
    Records allowed (runStepNode env arm input (appendSegment parentPath name) frames reentry) :=
  records_runStepNode ⟨fun event he => ha event (.armStep hm he), fun error => ha _ (.crashed error (.arm hm)),
    fun source => ha _ (.cancelled source (.arm hm))⟩

theorem records_runParallelFresh :
    Records allowed (runParallelFresh env arms input (appendSegment parentPath name) frames) := by
  refine records_emit (ha _ (.opened rfl)) (records_pool ?_ (fun results => ?_))
  · intro task ht
    obtain ⟨arm, hm, rfl⟩ := List.mem_map.mp ht
    exact speaks_arm ha hm
  · exact records_checkpoint (ha _ (.closed _ (by simp))) _

include hp

theorem records_reenterArms {active : Reentry} {targetName : String} {gathered : Gathered} (hrest : rest ⊆ arms)
    (hg : GatheredMayEnd allowed gathered) :
    Records allowed (reenterArms env input (appendSegment parentPath name) frames active targetName
      (settleReentry name targetName (appendSegment parentPath name)) rest gathered) := by
  induction rest generalizing gathered with
  | nil =>
    simp only [reenterArms, settleReentry]
    split
    · exact records_raise _
    · rename_i target ht
      refine records_settleConcurrent ?_ hg.stillBlocked (records_checkpoint (ha _ (.closed _ (by simp))) _)
      intro outcome hm
      obtain rfl | hm := List.mem_cons.mp hm
      · exact hg.target _ ht
      · exact hg.extra outcome hm
  | cons arm rest ih =>
    have hm := hrest List.mem_cons_self
    have hnext : ∀ gathered : Gathered, GatheredMayEnd allowed gathered →
        Records allowed (reenterArms env input (appendSegment parentPath name) frames active targetName
          (settleReentry name targetName (appendSegment parentPath name)) rest gathered) :=
      fun gathered => ih (fun _ h => hrest (List.mem_cons_of_mem _ h))
    simp only [reenterArms]
    split
    · refine records_andThen (speaks_arm ha hm) ?_
      intro outcome ho
      refine hnext _ ⟨?_, hg.extra, hg.stillBlocked⟩
      intro other hother
      obtain rfl := Option.some.inj hother
      exact ho
    · intro memory
      dsimp only
      split
      · exact hnext _ ⟨hg.target, hg.extra, hg.stillBlocked⟩
      · split
        · rename_i pending hpending
          refine hnext _ ⟨hg.target, hg.extra, ?_⟩
          intro block hb
          obtain hb | hb := List.mem_append.mp hb
          · exact hg.stillBlocked block hb
          · rw [List.mem_singleton.mp hb]
            exact hp _ _ hpending
        · split
          · exact hnext _ (hg.addExtra _ trivial)
          · refine records_andThen (speaks_arm ha hm) ?_
            intro outcome ho
            exact hnext _ (hg.addExtra _ ho)

theorem records_runParallelNode : Records allowed (runParallelNode env name arms input parentPath frames reentry) := by
  cases reentry with
  | none => exact records_runParallelFresh ha
  | some active =>
    simp only [runParallelNode, runParallelReentry]
    split
    · exact records_raise _
    · exact records_reenterArms hp ha (List.Subset.refl _) ⟨by simp, by simp, by simp⟩

end Parallel

theorem walked_mem {nodes : List WorkflowNode} {node : Walked} (h : node ∈ walked env nodes) : node.1 ∈ nodes := by
  rw [← map_fst_walked env nodes]
  exact List.mem_map_of_mem h

mutual

theorem speaks_runNode (node : WorkflowNode) : Speaks env node (runNode env node) := by
  intro input parentPath frames reentry allowed hp ha
  cases node with
  | step step =>
    exact records_runStepNode ⟨fun event he => ha event (.step he), fun error => ha _ (.crashed error .node),
      fun source => ha _ (.cancelled source .node)⟩
  | branch name arms =>
    refine speaks_runBranchNode ?_ (speaks_walkedArms arms) input parentPath frames reentry allowed hp ha
    intro arm harm
    obtain ⟨hm, hbody⟩ := walkedArms_body harm
    refine ⟨hm, ?_⟩
    intro node hnode
    rw [hbody] at hnode
    exact walked_mem hnode
  | loop name mode body condition maxIterations =>
    exact records_runLoopNode hp (speaks_walked body) (fun node hm => walked_mem hm) ha
  | foreach name body selector concurrency feedback =>
    exact records_runForeachNode hp (speaks_walked body) (fun node hm => walked_mem hm) ha
  | parallel name arms => exact records_runParallelNode hp ha
  | workflow name nodes =>
    exact records_runNestedWorkflowNode hp (speaks_walked nodes) (fun node hm => walked_mem hm) ha

theorem speaks_walked (nodes : List WorkflowNode) : ∀ node ∈ walked env nodes, Speaks env node.1 node.2 := by
  cases nodes with
  | nil => simp [walked]
  | cons node rest =>
    intro other ho
    obtain rfl | ho := List.mem_cons.mp ho
    · exact speaks_runNode node
    · exact speaks_walked rest other ho

theorem speaks_walkedArms (arms : List BranchArm) :
    ∀ arm ∈ walkedArms env arms, ∀ node ∈ arm.2, Speaks env node.1 node.2 := by
  match arms with
  | [] => simp [walkedArms]
  | .mk name condition body :: rest =>
    intro arm ha
    obtain rfl | ha := List.mem_cons.mp ha
    · exact speaks_walked body
    · exact speaks_walkedArms rest arm ha

end

end KimchiWorkflows.Engine
