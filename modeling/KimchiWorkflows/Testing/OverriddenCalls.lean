import KimchiWorkflows.Engine.ResumeWorkflow
import KimchiWorkflows.Testing.MirroredWalk

/-!
A call on the rebuilt workflow is launched as it is on the workflow itself.
-/

namespace KimchiWorkflows.Testing

open KimchiWorkflows.Flow KimchiWorkflows.Engine Process Process.Proc

variable {overrides : StepOverrides} {workflow : WorkflowDefinition} {log : List RunEvent} {call : EngineCall}

def rewritten (overrides : StepOverrides) (workflow : WorkflowDefinition) : WorkflowDefinition :=
  { workflow with nodes := rewriteNodes overrides workflow.nodes }

mutual

theorem declareNode_rewriteNode (chain : List String) (node : WorkflowNode) (index : NameIndex) :
    declareNode chain (rewriteNode overrides node) index = declareNode chain node index := by
  cases node with
  | step step => rw [rewriteNode, declareNode, declareNode, name_rewriteStep]
  | branch name arms => rw [rewriteNode, declareNode, declareNode, declareArms_rewriteArms]
  | parallel name arms =>
    rw [rewriteNode, declareNode, declareNode, List.map_map]
    simp only [Function.comp_def, name_rewriteStep]
  | _ => rw [rewriteNode, declareNode, declareNode, declareNodes_rewriteNodes]

theorem declareNodes_rewriteNodes (chain : List String) (nodes : List WorkflowNode) (index : NameIndex) :
    declareNodes chain (rewriteNodes overrides nodes) index = declareNodes chain nodes index := by
  match nodes with
  | [] => rfl
  | node :: rest =>
    rw [rewriteNodes, declareNodes, declareNodes, declareNode_rewriteNode, declareNodes_rewriteNodes]

theorem declareArms_rewriteArms (chain : List String) (arms : List BranchArm) (index : NameIndex) :
    declareArms chain (rewriteArms overrides arms) index = declareArms chain arms index := by
  match arms with
  | [] => rfl
  | .mk name condition body :: rest =>
    rw [rewriteArms, declareArms, declareArms, declareNodes_rewriteNodes, declareArms_rewriteArms]

end

theorem envOf_rewritten (cursor : ExecutionCursor) :
    envOf (rewritten overrides workflow) cursor = envOf workflow cursor := by
  unfold envOf
  rw [show buildDeclaredNameIndex (rewritten overrides workflow).nodes = buildDeclaredNameIndex workflow.nodes from
    declareNodes_rewriteNodes [] workflow.nodes _]
  rfl

mutual

theorem resolveAtNode_rewriteNode (head : String) (rest : List String) (node : WorkflowNode) :
    resolveAtNode head rest (rewriteNode overrides node) = (resolveAtNode head rest node).map (rewriteStep overrides) := by
  cases node with
  | step step =>
    rw [rewriteNode, resolveAtNode, resolveAtNode, name_rewriteStep]
    split_ifs <;> rfl
  | branch name arms =>
    rw [rewriteNode, resolveAtNode, resolveAtNode]
    exact resolveAtArms_rewriteArms head rest arms
  | parallel name arms =>
    simp only [rewriteNode, resolveAtNode]
    split
    · split_ifs
      · rw [List.find?_map]
        simp only [Function.comp_def, name_rewriteStep]
      · rfl
    · rfl
  | _ =>
    simp only [rewriteNode, resolveAtNode]
    split_ifs
    · exact resolveInScope_rewriteNodes rest _
    · rfl

theorem resolveInScope_rewriteNodes (segments : List String) (nodes : List WorkflowNode) :
    resolveInScope segments (rewriteNodes overrides nodes) =
      (resolveInScope segments nodes).map (rewriteStep overrides) := by
  match nodes, segments with
  | [], _ => rfl
  | node :: rest, [] => rfl
  | node :: rest, head :: tail =>
    rw [rewriteNodes, resolveInScope, resolveInScope, resolveAtNode_rewriteNode, resolveInScope_rewriteNodes,
      Option.map_or]

theorem resolveAtArms_rewriteArms (head : String) (rest : List String) (arms : List BranchArm) :
    resolveAtArms head rest (rewriteArms overrides arms) = (resolveAtArms head rest arms).map (rewriteStep overrides) := by
  match arms with
  | [] => rfl
  | .mk name condition body :: others =>
    rw [rewriteArms, resolveAtArms, resolveAtArms]
    split_ifs
    · exact resolveInScope_rewriteNodes rest body
    · exact resolveAtArms_rewriteArms head rest others

end

theorem checkDrift_rewritten (outputs : StepOutputs) (runId : String) :
    checkDrift (rewritten overrides workflow) log outputs runId = checkDrift workflow log outputs runId := by
  unfold checkDrift
  congr 1
  funext key
  unfold driftAt
  rw [show resolveStepAtStaticPath (rewritten overrides workflow).nodes (key.map PathSegment.name) =
      (resolveStepAtStaticPath workflow.nodes (key.map PathSegment.name)).map (rewriteStep overrides) from
    resolveInScope_rewriteNodes _ _]
  cases resolveStepAtStaticPath workflow.nodes (key.map PathSegment.name) with
  | none => rfl
  | some step => simp only [Option.map_some, outputSchema_rewriteStep]

theorem firstIncomplete_rewritten (outputs : StepOutputs) :
    firstIncompleteTopLevelIndex (rewritten overrides workflow).nodes outputs =
      firstIncompleteTopLevelIndex workflow.nodes outputs := by
  simp only [firstIncompleteTopLevelIndex, rewritten, rewriteNodes_eq, List.findIdx?_map, Function.comp_def,
    nodeName_rewriteNode, List.length_map]

theorem inPrefix_rewritten (startIndex : Nat) :
    inPrefix (rewritten overrides workflow).nodes startIndex = inPrefix workflow.nodes startIndex := by
  funext key
  simp only [inPrefix, rewritten, rewriteNodes_eq, ← List.map_take, List.any_map, Function.comp_def,
    nodeName_rewriteNode]

theorem name_at_rewritten (overrides : StepOverrides) (workflow : WorkflowDefinition) (index : Nat) :
    ((rewritten overrides workflow).nodes[index]?).map nodeName =
    (workflow.nodes[index]?).map nodeName := by
  rw [rewritten, rewriteNodes_eq, List.getElem?_map, Option.map_map]
  simp only [Function.comp_def, nodeName_rewriteNode]

theorem resumeCursor_rewritten (runId : String) (input : Value) :
    resumeCursor (rewritten overrides workflow) log runId input = resumeCursor workflow log runId input := by
  unfold resumeCursor
  dsimp only
  rw [firstIncomplete_rewritten, inPrefix_rewritten]
  congr 2
  have hname := name_at_rewritten overrides workflow
    (firstIncompleteTopLevelIndex workflow.nodes (rebuildStepOutputs log) - 1)
  cases hp : workflow.nodes[firstIncompleteTopLevelIndex workflow.nodes (rebuildStepOutputs log) - 1]? with
  | none =>
    rw [hp] at hname
    rw [Option.map_eq_none_iff.mp hname]
  | some node =>
    rw [hp] at hname
    obtain ⟨node', hnode, hsame⟩ := Option.map_eq_some_iff.mp hname
    rw [hnode]
    simp only [Option.elim_some, hsame]

variable (hs : ∀ step ∈ stepsIn workflow.nodes, Suits overrides step)

include hs

theorem mirrored_execute (cursor : ExecutionCursor) :
    Mirrored overrides (execute workflow cursor) (execute (rewritten overrides workflow) cursor) := by
  unfold execute
  rw [envOf_rewritten]
  refine mirrored_andThen (mirrored_runNodeSequence (bodiesAlike_walked workflow.nodes hs) _) ?_
  intro outcome
  cases outcome with
  | blocked block => exact mirrored_conclude _
  | _ => exact mirrored_emit _ (mirrored_conclude _)

structure LaunchesAlike (overrides : StepOverrides) (launched launched' : Launched) : Prop where
  outputs : launched'.stepOutputs = launched.stepOutputs
  code : Mirrored overrides launched.code launched'.code

omit hs in
theorem launchesAlike_refuse (drift : String × NodePath) : LaunchesAlike overrides (refuse drift) (refuse drift) :=
  ⟨rfl, mirrored_emit _ (mirrored_conclude _)⟩

theorem launchesAlike_launchAt (opening : RunEvent) (cursor : ExecutionCursor) :
    LaunchesAlike overrides (launchAt workflow opening cursor) (launchAt (rewritten overrides workflow) opening cursor) :=
  ⟨rfl, mirrored_emit _ (mirrored_execute hs cursor)⟩

def AlikeResults (overrides : StepOverrides) (result result' : Except String Launched) : Prop :=
  match result, result' with
  | .error error, .error error' => error' = error
  | .ok launched, .ok launched' => LaunchesAlike overrides launched launched'
  | _, _ => False

theorem alike_resumeWithInput (keep : Asked → Bool) (path : Option NodePath) (missing : String)
    (overtaken : String → String → String) (provided : NodePath → RunEvent) (deliver : Asked → Reentry) :
    AlikeResults overrides (resumeWithInput workflow log keep path missing overtaken provided deliver)
      (resumeWithInput (rewritten overrides workflow) log keep path missing overtaken provided deliver) := by
  unfold resumeWithInput
  cases requireRunStarted log with
  | error error => rfl
  | ok started =>
    dsimp only
    cases selectPending keep log path with
    | none => rfl
    | some pending =>
      dsimp only
      cases settledAfter log pending with
      | some settled => rfl
      | none =>
        dsimp only
        rw [checkDrift_rewritten]
        cases checkDrift workflow log (rebuildStepOutputs log) started.1 with
        | some drift => exact launchesAlike_refuse drift
        | none => exact launchesAlike_launchAt hs _ _

theorem alike_launch : AlikeResults overrides (launch workflow log call) (launch (rewritten overrides workflow) log call) := by
  cases call with
  | run runId input =>
    simp only [launch, runWorkflow]
    cases hv : violationOf workflow.inputSchema input with
    | some violation =>
      rw [show violationOf (rewritten overrides workflow).inputSchema input = some violation from hv]
      exact ⟨rfl, mirrored_emit _ (mirrored_conclude _)⟩
    | none =>
      rw [show violationOf (rewritten overrides workflow).inputSchema input = none from hv]
      exact launchesAlike_launchAt hs _ _
  | resume =>
    simp only [launch, resumeWorkflow]
    cases requireRunStarted log with
    | error error => rfl
    | ok started =>
      dsimp only
      rw [checkDrift_rewritten, resumeCursor_rewritten]
      cases checkDrift workflow log (rebuildStepOutputs log) started.1 with
      | some drift => exact launchesAlike_refuse drift
      | none =>
        have hname := name_at_rewritten overrides workflow
          (resumeCursor workflow log started.1 started.2).startIndex
        have hpath := congrArg (Option.map (fun name => [({ name := name } : PathSegment)])) hname
        rw [Option.map_map, Option.map_map] at hpath
        dsimp only
        rw [show Option.map (fun node => [({ name := nodeName node } : PathSegment)]) _ = _ from hpath]
        exact launchesAlike_launchAt hs _ _
  | answer answers path =>
    simp only [launch, resumeWithAnswer]
    exact alike_resumeWithInput hs _ _ _ _ _ _
  | respond response path =>
    simp only [launch, resumeWithInteraction]
    exact alike_resumeWithInput hs _ _ _ _ _ _

end KimchiWorkflows.Testing
