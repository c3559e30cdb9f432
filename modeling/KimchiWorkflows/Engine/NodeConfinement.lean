import KimchiWorkflows.Engine.Confinement
import KimchiWorkflows.Engine.BranchSettling

namespace KimchiWorkflows.Engine

open KimchiWorkflows.Flow Process Process.Proc

variable {env : RunEnv} {region : NodePath → Prop} {parentPath : NodePath} {frames : List ScopeFrame}
  {name : String} {names : List String} {input : Value} {reentry : Option Reentry} {body : List Walked}

def Within (scope : NodePath) (path : NodePath) : Prop := scope <+: staticPathOf path

/-- In whichever scope a node is run, it records under the names it declares there. -/
def Stays (node : WorkflowNode) (run : NodeRunner) : Prop :=
  ∀ input parentPath frames reentry,
    Confined (Under (staticPathOf parentPath) (scopeNames node)) (run input parentPath frames reentry)

theorem under_of_within {scope : NodePath} {segment : PathSegment} {path : NodePath}
    (hs : segment.name ∈ names) (h : Within (scope ++ [segment]) path) : Under scope names path :=
  ⟨segment, hs, h⟩

theorem under_node (hs : name ∈ names) : Under (staticPathOf parentPath) names (appendSegment parentPath name) := by
  refine ⟨{ name := name }, hs, ?_⟩
  rw [staticPathOf_appendSegment]
  exact List.prefix_rfl

theorem Under.below {scope path : NodePath} (h : Under scope names path) : Below scope (staticKeyOf path) := by
  obtain ⟨segment, -, hp⟩ := h
  exact ⟨(List.prefix_append _ _).trans hp, lt_of_lt_of_le (by simp) hp.length_le⟩

theorem within_self (path : NodePath) : Within (staticPathOf path) path := List.prefix_rfl

theorem within_of_eq {scope path : NodePath} (h : staticPathOf path = scope) : Within scope path :=
  h ▸ List.prefix_rfl

theorem keepsTo_node {event : RunEvent} {path : NodePath} (hs : event.subject = some path)
    (ht : event.terminal = none) (hb : event.block? = none) (hr : region path) : KeepsTo region event :=
  ⟨ht, path, hs, hr, by simp [hb]⟩

theorem confined_opening {event : RunEvent} {reentered : Bool} {code : Code}
    (he : KeepsTo region event) (h : Confined region code) :
    Confined region (emitAll (if reentered then [] else [event]) code) := by
  refine confined_emitAll ?_ h
  intro other hm
  split_ifs at hm
  · cases hm
  · rw [List.mem_singleton.mp hm]
    exact he

theorem confined_checkpoint {path : NodePath} (hr : region path) (value output : Value) :
    Confined region (emitNodeCompleted path value (conclude (.ok output))) :=
  confined_emit (keepsTo_node rfl rfl rfl hr) (confined_conclude (by simp))

theorem stays_runStepNode (step : StepDefinition) : Stays (.step step) (runStepNode env step) := by
  intro input parentPath frames reentry
  refine (confined_runStepNode step input reentry).mono ?_
  rintro path rfl
  exact under_node (by simp [scopeNames, nodeName])

theorem confined_walkNodes_of (hn : ∀ node ∈ body, Stays node.1 node.2)
    (hr : ∀ node ∈ body, ∀ path, Under (staticPathOf parentPath) (scopeNames node.1) path → region path) :
    Confined region (walkNodes parentPath frames body input reentry) := by
  induction body generalizing input reentry with
  | nil => exact confined_conclude (by simp)
  | cons node rest ih =>
    obtain ⟨node, run⟩ := node
    intro memory
    dsimp only
    split_ifs
    · exact confined_conclude (by simp)
    · refine confined_ifOk ?_ ?_
      · refine (hn (node, run) List.mem_cons_self _ _ _ _).mono ?_
        exact hr (node, run) List.mem_cons_self
      · intro output
        have hkey := staticKeyOf_appendSegment parentPath (nodeName node)
        have hnode : region (appendSegment parentPath (nodeName node)) :=
          hr (node, run) List.mem_cons_self _ (under_node (nodeName_mem_scopeNames node))
        exact confined_act ⟨_, hnode, hkey⟩
          (ih (fun other ho => hn other (List.mem_cons_of_mem _ ho))
            (fun other ho => hr other (List.mem_cons_of_mem _ ho)))

theorem confined_walkNodes (hn : ∀ node ∈ body, Stays node.1 node.2)
    (hr : ∀ path, Below (staticPathOf parentPath) (staticKeyOf path) → region path) :
    Confined region (walkNodes parentPath frames body input reentry) :=
  confined_walkNodes_of hn (fun _ _ path hp => hr path hp.below)

theorem confined_runNodeSequence {startIndex : Nat} (hn : ∀ node ∈ body, Stays node.1 node.2)
    (hr : ∀ path, Below (staticPathOf parentPath) (staticKeyOf path) → region path) :
    Confined region (runNodeSequence body input parentPath frames startIndex reentry) := by
  have hdrop : ∀ index, ∀ node ∈ body.drop index, Stays node.1 node.2 :=
    fun index node hm => hn node (List.mem_of_mem_drop hm)
  cases reentry with
  | none => exact confined_walkNodes (hdrop startIndex) hr
  | some active =>
    simp only [runNodeSequence]
    split
    · exact confined_raise _
    · split
      · exact confined_conclude (by simp)
      · exact fun memory => confined_walkNodes (hdrop _) hr

theorem confined_runTakenArms {finish : Record → Code} {decisions : List DecidedArm} {result : Record}
    (hn : ∀ decision ∈ decisions, ∀ node ∈ decision.1.2, Stays node.1 node.2)
    (hr : ∀ decision ∈ decisions, ∀ path,
      Within (staticChildKey parentPath decision.1.1.name) path → region path)
    (hf : ∀ result, Confined region (finish result)) :
    Confined region (runTakenArms input parentPath frames finish decisions result reentry) := by
  induction decisions generalizing result reentry with
  | nil => exact hf result
  | cons decision rest ih =>
    obtain ⟨⟨arm, nodes⟩, taken⟩ := decision
    have hrest : ∀ result reentry,
        Confined region (runTakenArms input parentPath frames finish rest result reentry) :=
      fun result reentry => ih (fun d hd => hn d (List.mem_cons_of_mem _ hd))
        (fun d hd => hr d (List.mem_cons_of_mem _ hd))
    have harm : ∀ path, Within (staticChildKey parentPath arm.name) path → region path :=
      hr ((arm, nodes), taken) List.mem_cons_self
    have hrun : ∀ armReentry, Confined region (runArm nodes input parentPath frames arm.name armReentry
        (fun output => runTakenArms input parentPath frames finish rest (assign result arm.name output)
          none)) := by
      intro armReentry memory
      dsimp only
      split_ifs
      · exact confined_conclude (by simp)
      · refine confined_ifOk (confined_runNodeSequence (hn _ List.mem_cons_self) ?_) ?_
        · intro path hp
          rw [staticPathOf_appendSegment] at hp
          exact harm path hp.1
        · intro output
          refine confined_emit (keepsTo_node rfl rfl rfl (harm _ ?_)) (hrest _ _)
          exact within_of_eq (staticPathOf_appendSegment _ _)
    cases taken with
    | false => exact hrest _ _
    | true =>
      simp only [runTakenArms, if_true]
      cases reentry with
      | none => exact hrun none
      | some active =>
        dsimp only
        split
        · exact confined_raise _
        · split_ifs
          · exact hrun _
          · exact fun memory => hrest _ _

theorem stays_runBranchNode {arms : List BranchArm} {walkedArms : List WalkedArm}
    (hw : ∀ arm ∈ walkedArms, arm.1 ∈ arms) (hn : ∀ arm ∈ walkedArms, ∀ node ∈ arm.2, Stays node.1 node.2) :
    Stays (.branch name arms) (runBranchNode env name walkedArms) := by
  intro input parentPath frames reentry
  have hown : Under (staticPathOf parentPath) (scopeNames (.branch name arms))
      (appendSegment parentPath name) := under_node (by simp [scopeNames])
  have harm : ∀ arm ∈ walkedArms, ∀ path, Within (staticChildKey parentPath arm.1.name) path →
      Under (staticPathOf parentPath) (scopeNames (.branch name arms)) path := by
    intro arm ha path hp
    exact ⟨{ name := arm.1.name }, by simp [scopeNames, List.mem_map_of_mem (hw arm ha)], hp⟩
  refine confined_opening (keepsTo_node rfl rfl rfl hown) ?_
  intro memory
  dsimp only
  split
  · exact confined_conclude (by simp)
  · rename_i decisions hd
    have hmem := mem_of_decideArms hd
    refine confined_emitAll ?_ (confined_runTakenArms ?_ ?_ ?_)
    · intro event he
      split_ifs at he
      · cases he
      · obtain ⟨decision, hm, rfl⟩ := List.mem_map.mp he
        refine keepsTo_node rfl rfl rfl (harm _ (hmem decision hm) _ ?_)
        exact within_of_eq (staticPathOf_appendSegment _ _)
    · exact fun decision hm => hn _ (hmem decision hm)
    · exact fun decision hm => harm _ (hmem decision hm)
    · exact fun result => confined_checkpoint hown _ _

section Loop

variable {loop : LoopDefinition}

theorem confined_iterate {remaining iteration : Nat} (hn : ∀ node ∈ body, Stays node.1 node.2)
    (hr : ∀ path, Within (staticChildKey parentPath loop.name) path → region path) :
    Confined region (iterate env loop body parentPath frames remaining iteration input reentry) := by
  induction remaining generalizing iteration input reentry with
  | zero => exact confined_conclude (by simp)
  | succ remaining ih =>
    intro memory
    dsimp only
    split
    · exact confined_conclude (by simp)
    · refine confined_opening (keepsTo_node (by exact rfl) rfl rfl (hr _ ?_))
        (confined_ifOk (confined_runNodeSequence hn ?_) ?_)
      · exact within_of_eq (staticPathOf_appendLoopIteration _ _ _)
      · intro path hp
        rw [staticPathOf_appendLoopIteration] at hp
        exact hr path hp.1
      · intro output memory
        dsimp only
        split
        · exact confined_conclude (by simp)
        · split_ifs
          · refine confined_checkpoint (hr _ ?_) _ _
            exact within_of_eq (staticPathOf_appendSegment _ _)
          · exact ih

theorem confined_runLoopNode (hn : ∀ node ∈ body, Stays node.1 node.2) :
    Confined (Under (staticPathOf parentPath) [loop.name])
      (runLoopNode env loop body input parentPath frames reentry) := by
  have hr : ∀ path, Within (staticChildKey parentPath loop.name) path →
      Under (staticPathOf parentPath) [loop.name] path := fun path => under_of_within (by simp)
  cases reentry with
  | none =>
    refine confined_emit (keepsTo_node rfl rfl rfl (hr _ ?_)) (confined_iterate hn hr)
    exact within_of_eq (staticPathOf_appendSegment _ _)
  | some active =>
    simp only [runLoopNode]
    split
    · exact confined_raise _
    · exact fun memory => confined_iterate hn hr

end Loop

theorem confined_runNestedWorkflowNode (hn : ∀ node ∈ body, Stays node.1 node.2) :
    Confined (Under (staticPathOf parentPath) [name])
      (runNestedWorkflowNode name body input parentPath frames reentry) := by
  have hown : Under (staticPathOf parentPath) [name] (appendSegment parentPath name) := under_node (by simp)
  refine confined_opening (keepsTo_node rfl rfl rfl hown) ?_
  refine confined_ifOk (confined_runNodeSequence hn ?_) (fun output => confined_checkpoint hown _ _)
  intro path hp
  rw [staticPathOf_appendSegment] at hp
  exact under_of_within (by simp) hp.1

end KimchiWorkflows.Engine
