import KimchiWorkflows.Flow.Definitions

namespace KimchiWorkflows.Flow

def isValidNodeName (name : String) : Bool :=
  name ≠ "" && !name.toList.any (fun c => c = '/' || c = '#' || c = '@')

mutual

/-- A node and every node inside it; an arm of a parallel counts as a step node. -/
def nodesUnder : WorkflowNode → List WorkflowNode
  | .step step => [.step step]
  | .branch name arms => .branch name arms :: nodesUnderArms arms
  | .loop name mode body condition maxIterations =>
    .loop name mode body condition maxIterations :: allNodes body
  | .foreach name body selector concurrency feedback =>
    .foreach name body selector concurrency feedback :: allNodes body
  | .parallel name arms => .parallel name arms :: arms.map WorkflowNode.step
  | .workflow name nodes => .workflow name nodes :: allNodes nodes

def allNodes : List WorkflowNode → List WorkflowNode
  | [] => []
  | node :: rest => nodesUnder node ++ allNodes rest

def nodesUnderArms : List BranchArm → List WorkflowNode
  | [] => []
  | .mk _ _ body :: rest => allNodes body ++ nodesUnderArms rest

end

/-- The first complaint about a list of names: one that is not a node name, or one seen before. -/
def nameComplaint (invalid duplicate : String → String) : List String → List String → Option String
  | _, [] => none
  | seen, name :: rest =>
    if !isValidNodeName name then some (invalid name)
    else if name ∈ seen then some (duplicate name)
    else nameComplaint invalid duplicate (name :: seen) rest

def parallelComplaint (workflowName : String) : WorkflowNode → Option String
  | .parallel name arms =>
    let label := "workflow \"" ++ workflowName ++ "\": parallel \"" ++ name ++ "\""
    if arms.isEmpty then some (label ++ " must declare at least one arm")
    else nameComplaint
      (fun arm => label ++ " arm name \"" ++ arm ++ "\" is invalid — step names may not be empty or " ++
        "contain \"/\", \"#\", or \"@\" (all three are node-path syntax, spec §3)")
      (fun arm => label ++ " has two arms named \"" ++ arm ++
        "\"; arm names must be unique within their parallel (spec §3.5/§3.9)") [] (arms.map StepDefinition.name)
  | _ => none

/-- Node by node: its names are new in the scope, and the arms of a parallel new in the parallel. -/
def scopeComplaint (workflowName : String) : List String → List WorkflowNode → Option String
  | _, [] => none
  | seen, node :: rest =>
    (nameComplaint
      (fun name => "workflow \"" ++ workflowName ++ "\": name \"" ++ name ++ "\" is invalid — step/node " ++
        "names may not be empty or contain \"/\", \"#\", or \"@\" (all three are node-path syntax, spec §3)")
      (fun name => "workflow \"" ++ workflowName ++ "\" has a duplicate node/step name \"" ++ name ++
        "\"; names must be unique within their enclosing scope (spec §3.9/§11.2) — a duplicate here would " ++
        "make a bare context read of \"" ++ name ++ "\" ambiguous") seen (scopeNames node)).or
    ((parallelComplaint workflowName node).or (scopeComplaint workflowName (scopeNames node ++ seen) rest))

def wellFormedComplaint (workflowName : String) : WorkflowNode → Option String
  | .step step =>
    if step.name = "" then
      some ("workflow \"" ++ workflowName ++ "\": a " ++ step.kind ++ " step is missing its required \"name\"")
    else none
  | _ => none

def ceilingComplaint (workflowName : String) (maxConcurrency : Nat) : WorkflowNode → Option String
  | .foreach name _ _ concurrency _ =>
    if concurrency > maxConcurrency then
      some ("workflow \"" ++ workflowName ++ "\": foreach \"" ++ name ++ "\" declares concurrency " ++
        toString concurrency ++ ", above the workflow's ceiling of " ++ toString maxConcurrency ++
        " (spec §3.6) — raise maxConcurrency or lower this construct's concurrency")
    else none
  | _ => none

def feedbackComplaint (workflowName : String) : WorkflowNode → Option String
  | .foreach name _ _ concurrency feedback =>
    if feedback && decide (concurrency > 1) then
      some ("workflow \"" ++ workflowName ++ "\": foreach \"" ++ name ++ "\" declares feedback with " ++
        "concurrency " ++ toString concurrency ++ " — feedback threads each item's output to the NEXT " ++
        "item, which has no defined order once items run concurrently (foreach-feedback spec 3.3); keep " ++
        "concurrency at 1, or drop feedback")
    else none
  | _ => none

def asksComplaint (workflowName : String) : WorkflowNode → Option String
  | .step (.agent step) =>
    let label := "workflow \"" ++ workflowName ++ "\": agent step \"" ++ step.name ++ "\" declares "
    if step.background && step.asks then
      some (label ++ "both background and asks — a background step runs isolated and unwatched, so it " ++
        "cannot block the run to ask a question (spec §10.1)")
    else if step.asks && step.outputSchema.isNone then
      some (label ++ "asks but no output schema — an asking step's questions are derived from its " ++
        "schema (spec §10.1); declare `output`, or drop `asks` if the step only acts")
    else none
  | _ => none

def resolveStep (workflowName : String) (step : StepDefinition) (isolatedHere : Bool) :
    Except String StepDefinition :=
  match step with
  | .agent agent =>
    let label := "workflow \"" ++ workflowName ++ "\": agent step \"" ++ agent.name ++ "\" "
    let shared := match agent.resumable with | .key name => some name | _ => none
    if shared.any (fun key => !isValidNodeName key) then
      .error (label ++ "declares resumable: \"" ++ shared.getD "" ++ "\", which is not a valid resume key — " ++
        "a shared key becomes a session filename on the host (src/host/pi-agent.ts), so it may not be empty " ++
        "or contain \"/\", \"#\", or \"@\" (all three are node-path syntax, spec §3)")
    else if !isolatedHere then .ok step
    else if agent.asks then
      .error (label ++ "declares asks but can overlap with a sibling — inside a .parallel arm, or a " ++
        ".foreach whose concurrency exceeds 1 (spec §2.2) — and an isolated step has no conversation to " ++
        "resume an answer into (spec §10.1); use a questionnaire step instead, or keep this step out of " ++
        "the fan-out")
    else if shared.isSome then
      .error (label ++ "shares the resume key \"" ++ shared.getD "" ++ "\" but can overlap with a sibling — " ++
        "inside a .parallel arm, or a .foreach whose concurrency exceeds 1 (spec §2.2) — and concurrent " ++
        "executions would append to one session file at once; use resumable: true to continue only this " ++
        "step's own conversation, or keep the shared key out of the fan-out")
    else .ok (.agent { agent with isolated := true })
  | _ => .ok step

def resolveSteps (workflowName : String) : List StepDefinition → Except String (List StepDefinition)
  | [] => .ok []
  | step :: rest =>
    match resolveStep workflowName step true with
    | .error error => .error error
    | .ok resolved => (resolveSteps workflowName rest).map (resolved :: ·)

mutual

/-- Tag every agent step that can overlap with a sibling, and refuse what may not overlap. -/
def resolveNode (workflowName : String) (isolatedHere : Bool) : WorkflowNode → Except String WorkflowNode
  | .step step => (resolveStep workflowName step isolatedHere).map .step
  | .branch name arms => (resolveArms workflowName isolatedHere arms).map (.branch name ·)
  | .loop name mode body condition maxIterations =>
    (resolveIsolation workflowName isolatedHere body).map (.loop name mode · condition maxIterations)
  | .foreach name body selector concurrency feedback =>
    (resolveIsolation workflowName (isolatedHere || decide (concurrency > 1)) body).map
      (.foreach name · selector concurrency feedback)
  | .parallel name arms => (resolveSteps workflowName arms).map (.parallel name ·)
  | .workflow name nodes => (resolveIsolation workflowName isolatedHere nodes).map (.workflow name ·)

def resolveIsolation (workflowName : String) (isolatedHere : Bool) :
    List WorkflowNode → Except String (List WorkflowNode)
  | [] => .ok []
  | node :: rest =>
    match resolveNode workflowName isolatedHere node with
    | .error error => .error error
    | .ok resolved => (resolveIsolation workflowName isolatedHere rest).map (resolved :: ·)

def resolveArms (workflowName : String) (isolatedHere : Bool) :
    List BranchArm → Except String (List BranchArm)
  | [] => .ok []
  | .mk name condition body :: rest =>
    match resolveIsolation workflowName isolatedHere body with
    | .error error => .error error
    | .ok resolved => (resolveArms workflowName isolatedHere rest).map (.mk name condition resolved :: ·)

end

def commit (options : WorkflowDefinition) : Except String WorkflowDefinition :=
  let all := allNodes options.nodes
  if options.nodes.isEmpty then
    .error ("workflow \"" ++ options.name ++ "\" must declare at least one node before commit()")
  else
    match (all.findSome? (wellFormedComplaint options.name)).or
      ((scopeComplaint options.name [] options.nodes).or
      ((all.findSome? (ceilingComplaint options.name options.maxConcurrency)).or
      ((all.findSome? (feedbackComplaint options.name)).or
      (all.findSome? (asksComplaint options.name))))) with
    | some complaint => .error complaint
    | none => (resolveIsolation options.name false options.nodes).map (fun nodes =>
        { options with nodes := nodes })

end KimchiWorkflows.Flow
