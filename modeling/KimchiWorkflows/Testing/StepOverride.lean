import KimchiWorkflows.Lib.Dict
import Mathlib.Data.List.Sort
import KimchiWorkflows.Flow.Definitions

/-!
Overriding steps by name: the tree is rebuilt with a function step for every step that an override is found for.
-/

namespace KimchiWorkflows.Testing

open KimchiWorkflows.Flow

abbrev StepOverrides := List (String × FunctionRef)

def inheritedOverride (name : String) : Option FunctionRef :=
  if name ∈ ["constructor", "__defineGetter__", "__defineSetter__", "hasOwnProperty", "__lookupGetter__",
      "__lookupSetter__", "isPrototypeOf", "propertyIsEnumerable", "toString", "valueOf", "toLocaleString",
      "__proto__"] then some (.inherited name)
  else none

def findOverride (overrides : StepOverrides) (name : String) : Option FunctionRef :=
  (Dict.get overrides name).or (inheritedOverride name)

def stepDescription : StepDefinition → Option String
  | .function step => step.description
  | .agent step => step.description
  | .questionnaire step => step.description
  | .interactive step => step.description

def stepRetry : StepDefinition → Option RetryPolicy
  | .function step => step.retry
  | .agent step => step.retry
  | .questionnaire step => step.retry
  | .interactive step => step.retry

def stepMaxDurationMs : StepDefinition → Option DurationBudget
  | .function step => step.maxDurationMs
  | .agent step => step.maxDurationMs
  | .questionnaire step => step.maxDurationMs
  | .interactive step => step.maxDurationMs

def asFunctionStep (step : StepDefinition) (run : FunctionRef) : FunctionStep where
  name := step.name
  description := stepDescription step
  inputSchema := step.inputSchema
  outputSchema := step.outputSchema
  retry := stepRetry step
  maxDurationMs := stepMaxDurationMs step
  run := run

def rewriteStep (overrides : StepOverrides) (step : StepDefinition) : StepDefinition :=
  match findOverride overrides step.name with
  | none => step
  | some run => .function (asFunctionStep step run)

mutual

def rewriteNode (overrides : StepOverrides) : WorkflowNode → WorkflowNode
  | .step step => .step (rewriteStep overrides step)
  | .branch name arms => .branch name (rewriteArms overrides arms)
  | .loop name mode body condition maxIterations =>
    .loop name mode (rewriteNodes overrides body) condition maxIterations
  | .foreach name body selector concurrency feedback =>
    .foreach name (rewriteNodes overrides body) selector concurrency feedback
  | .parallel name arms => .parallel name (arms.map (rewriteStep overrides))
  | .workflow name nodes => .workflow name (rewriteNodes overrides nodes)

def rewriteNodes (overrides : StepOverrides) : List WorkflowNode → List WorkflowNode
  | [] => []
  | node :: rest => rewriteNode overrides node :: rewriteNodes overrides rest

def rewriteArms (overrides : StepOverrides) : List BranchArm → List BranchArm
  | [] => []
  | .mk name condition body :: rest =>
    .mk name condition (rewriteNodes overrides body) :: rewriteArms overrides rest

end

mutual

def stepsUnder : WorkflowNode → List StepDefinition
  | .step step => [step]
  | .branch _ arms => stepsInArms arms
  | .loop _ _ body _ _ => stepsIn body
  | .foreach _ body _ _ _ => stepsIn body
  | .parallel _ arms => arms
  | .workflow _ nodes => stepsIn nodes

def stepsIn : List WorkflowNode → List StepDefinition
  | [] => []
  | node :: rest => stepsUnder node ++ stepsIn rest

def stepsInArms : List BranchArm → List StepDefinition
  | [] => []
  | .mk _ _ body :: rest => stepsIn body ++ stepsInArms rest

end

def consumed (overrides : StepOverrides) (nodes : List WorkflowNode) : List String :=
  ((stepsIn nodes).map StepDefinition.name).filter (fun name => (findOverride overrides name).isSome)

def collectStepNames (nodes : List WorkflowNode) : List String := ((stepsIn nodes).map StepDefinition.name).dedup

def unknownError (workflow : WorkflowDefinition) (unknown : List String) : String :=
  let known := (collectStepNames workflow.nodes).insertionSort (· ≤ ·)
  "step override(s) " ++ ", ".intercalate (unknown.map (fun name => "\"" ++ name ++ "\"")) ++ ": workflow \"" ++
    workflow.name ++ "\" has no step with that name (steps: " ++
    (if known.isEmpty then "none" else ", ".intercalate known) ++ ")"

def applyStepOverrides (workflow : WorkflowDefinition) (overrides : Option StepOverrides) :
    Except String WorkflowDefinition :=
  match overrides with
  | none => .ok workflow
  | some overrides =>
    if overrides.isEmpty then .ok workflow
    else
      let unknown := (overrides.map Prod.fst).filter (fun name => name ∉ consumed overrides workflow.nodes)
      if unknown.isEmpty then .ok { workflow with nodes := rewriteNodes overrides workflow.nodes }
      else .error (unknownError workflow unknown)

variable {overrides : StepOverrides}

@[simp] theorem name_rewriteStep (step : StepDefinition) : (rewriteStep overrides step).name = step.name := by
  unfold rewriteStep
  split <;> rfl

@[simp] theorem inputSchema_rewriteStep (step : StepDefinition) :
    (rewriteStep overrides step).inputSchema = step.inputSchema := by
  unfold rewriteStep
  split <;> rfl

@[simp] theorem outputSchema_rewriteStep (step : StepDefinition) :
    (rewriteStep overrides step).outputSchema = step.outputSchema := by
  unfold rewriteStep
  split <;> rfl

@[simp] theorem nodeName_rewriteNode (node : WorkflowNode) : nodeName (rewriteNode overrides node) = nodeName node := by
  cases node <;> simp [rewriteNode, nodeName]

theorem rewriteNodes_eq (nodes : List WorkflowNode) : rewriteNodes overrides nodes = nodes.map (rewriteNode overrides) := by
  induction nodes with
  | nil => rfl
  | cons node rest ih => rw [rewriteNodes, ih, List.map_cons]

def rewriteArm (overrides : StepOverrides) : BranchArm → BranchArm
  | .mk name condition body => .mk name condition (rewriteNodes overrides body)

theorem rewriteArms_eq (arms : List BranchArm) : rewriteArms overrides arms = arms.map (rewriteArm overrides) := by
  induction arms with
  | nil => rfl
  | cons arm rest ih =>
    obtain ⟨name, condition, body⟩ := arm
    rw [rewriteArms, ih, List.map_cons, rewriteArm]

@[simp] theorem name_rewriteArm (arm : BranchArm) : (rewriteArm overrides arm).name = arm.name := by
  obtain ⟨name, condition, body⟩ := arm
  rfl

end KimchiWorkflows.Testing
