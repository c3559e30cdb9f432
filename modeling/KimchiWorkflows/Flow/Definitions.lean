import KimchiWorkflows.Flow.Value

namespace KimchiWorkflows.Flow

inductive QuestionKind where
  | single | multi | text | chat
  deriving DecidableEq

structure QuestionOption where
  value : String
  label : String
  description : Option String := none
  recommended : Option Bool := none

structure Question where
  key : String
  header : String
  question : String
  kind : QuestionKind
  options : Option (List QuestionOption) := none
  allowOther : Option Bool := none
  section_ : Option String := none

structure Questionnaire where
  title : Option String := none
  questions : List Question

/-- A schema, as the engine uses one: its check, the batch of questions it derives and how answers
are put back into its shape. -/
structure Schema where
  violations : Value → Option String
  questionnaire : Questionnaire := { questions := [] }
  answersToOutput : Record → Value := .object

inductive FrameKind where
  | loop | foreach | branchArm | parallel | workflow
  deriving DecidableEq

structure ScopeFrame where
  kind : FrameKind
  name : String
  iteration : Option Nat := none
  itemIndex : Option Nat := none
  itemCount : Option Nat := none
  input : Value

structure RunContext where
  runId : String
  workflowName : String
  path : String
  scope : Option String → Option ScopeFrame
  getStepResult : String → Except String Value
  getInitData : Value

inductive Resumable where
  | off | on
  | key (name : String)
  | computed (key : RunContext → Except String Value)

structure RetryPolicy where
  maxRetry : Nat
  backoffMs : Nat := 0

inductive DurationBudget where
  | fixed (ms : Int)
  | computed (budget : RunContext → Except String (Option Int))

/-- A function by its identity: one of the author's, or a member that every plain object inherits. -/
inductive FunctionRef where
  | authored (id : Nat)
  | inherited (member : String)
  deriving DecidableEq

structure FunctionStep where
  name : String
  inputSchema : Option Schema := none
  outputSchema : Option Schema := none
  isOptional : Bool := false
  description : Option String := none
  retry : Option RetryPolicy := none
  maxDurationMs : Option DurationBudget := none
  run : FunctionRef := .authored 0

structure AgentStep where
  name : String
  inputSchema : Option Schema := none
  outputSchema : Option Schema := none
  isOptional : Bool := false
  asks : Bool := false
  background : Bool := false
  resumable : Resumable := .off
  isolated : Bool := false
  description : Option String := none
  retry : Option RetryPolicy := none
  maxDurationMs : Option DurationBudget := none

structure QuestionnaireStep where
  name : String
  inputSchema : Option Schema := none
  outputSchema : Schema
  questionnaire : Option Questionnaire := none
  isOptional : Bool := false
  description : Option String := none
  retry : Option RetryPolicy := none
  maxDurationMs : Option DurationBudget := none

structure InteractiveStep where
  name : String
  inputSchema : Option Schema := none
  requestSchema : Schema
  outputSchema : Schema
  buildRequest : Value → RunContext → Except String Value
  isOptional : Bool := false
  description : Option String := none
  retry : Option RetryPolicy := none
  maxDurationMs : Option DurationBudget := none

inductive StepDefinition where
  | function (step : FunctionStep)
  | agent (step : AgentStep)
  | questionnaire (step : QuestionnaireStep)
  | interactive (step : InteractiveStep)

def StepDefinition.name : StepDefinition → String
  | .function s => s.name
  | .agent s => s.name
  | .questionnaire s => s.name
  | .interactive s => s.name

def StepDefinition.kind : StepDefinition → String
  | .function _ => "function"
  | .agent _ => "agent"
  | .questionnaire _ => "questionnaire"
  | .interactive _ => "interactive"

def StepDefinition.inputSchema : StepDefinition → Option Schema
  | .function s => s.inputSchema
  | .agent s => s.inputSchema
  | .questionnaire s => s.inputSchema
  | .interactive s => s.inputSchema

def StepDefinition.outputSchema : StepDefinition → Option Schema
  | .function s => s.outputSchema
  | .agent s => s.outputSchema
  | .questionnaire s => some s.outputSchema
  | .interactive s => some s.outputSchema

inductive LoopMode where
  | dowhile | dountil
  deriving DecidableEq

mutual

inductive WorkflowNode where
  | step (step : StepDefinition)
  | branch (name : String) (arms : List BranchArm)
  | loop (name : String) (mode : LoopMode) (body : List WorkflowNode)
      (condition : RunContext → Value → Except String Bool) (maxIterations : Nat)
  | foreach (name : String) (body : List WorkflowNode)
      (selector : RunContext → Except String Value) (concurrency : Nat) (feedback : Bool)
  | parallel (name : String) (arms : List StepDefinition)
  | workflow (name : String) (nodes : List WorkflowNode)

inductive BranchArm where
  | mk (name : String) (condition : RunContext → Except String Bool) (body : List WorkflowNode)

end

def BranchArm.name : BranchArm → String
  | .mk name _ _ => name

def BranchArm.condition : BranchArm → RunContext → Except String Bool
  | .mk _ condition _ => condition

def BranchArm.body : BranchArm → List WorkflowNode
  | .mk _ _ body => body

structure WorkflowDefinition where
  name : String
  inputSchema : Option Schema := none
  maxConcurrency : Nat := 4
  nodes : List WorkflowNode

def nodeName : WorkflowNode → String
  | .step step => step.name
  | .branch name _ => name
  | .loop name _ _ _ _ => name
  | .foreach name _ _ _ _ => name
  | .parallel name _ => name
  | .workflow name _ => name

/-- The names a node may be addressed by in its scope; the arms of a branch are peers of the branch. -/
def scopeNames : WorkflowNode → List String
  | .branch name arms => name :: arms.map BranchArm.name
  | node => [nodeName node]

theorem nodeName_mem_scopeNames (node : WorkflowNode) : nodeName node ∈ scopeNames node := by
  cases node <;> simp [scopeNames, nodeName]

/-- Capture what an author's callback threw, under the label of the place that called it. -/
def invokeCallback {α : Type} (label : String) : Except String α → Except String α
  | .ok value => .ok value
  | .error error => .error (label ++ " threw: " ++ error)

end KimchiWorkflows.Flow
