import Mathlib.Data.List.Sort
import KimchiWorkflows.Lib.Process
import KimchiWorkflows.Engine.Events

namespace KimchiWorkflows.Engine

open KimchiWorkflows.Flow Process

/-- What a step waits for: the form of a questionnaire, or the request of an interaction. -/
inductive HumanInput where
  | questionnaire (questionnaire : Questionnaire) (conversation : Conversation)
  | interaction (request : Value)

structure PendingBlock where
  path : NodePath
  input : HumanInput
  violation : Option String := none

def RunEvent.block? : RunEvent → Option PendingBlock
  | .questionnaireAsked path questionnaire conversation violation _ _ =>
    some ⟨path, .questionnaire questionnaire conversation, violation⟩
  | .interactionRequested path request violation => some ⟨path, .interaction request, violation⟩
  | _ => none

abbrev NameIndex := List (List String × List String)

abbrev StepOutputs := List (NodePath × Value)

abbrev ForeachItemHistory := List (NodePath × List (Nat × Value))

/-- The part of a run's state that one engine call never changes. -/
structure RunEnv where
  runId : String
  workflowName : String
  initialInput : Value
  nameIndex : NameIndex
  limit : Nat
  foreachItemHistory : ForeachItemHistory := []
  pendingBlocks : List (NodePath × PendingBlock) := []

structure ConcurrencyGate where
  active : Nat := 0
  queue : List NodePath := []

/-- The part of a run's state that its steps share and change, the log they append to included. -/
structure RunMemory where
  stepOutputs : StepOutputs := []
  inFlight : List NodePath := []
  gate : ConcurrencyGate := {}
  aborted : Bool := false
  log : List RunEvent := []

def RunMemory.outputAt (memory : RunMemory) (key : NodePath) : Value :=
  (Dict.get memory.stepOutputs key).getD .undefined

inductive StepOutcome where
  | ok (output : Value)
  | crashed (error : String)
  | cancelled (source : Option CancelSource)
  | blocked (questionnaire : Questionnaire) (conversation : Conversation) (violation : Option String)
      (elapsedMs tokensUsed : Option Nat)

inductive ExecOutcome where
  | ok (output : Value)
  | crashed (error : String) (path : Option NodePath)
  | cancelled (path : Option NodePath) (source : Option CancelSource)
  | blocked (block : PendingBlock)

structure AnswerResume where
  answers : Record
  conversation : Conversation
  elapsedMs : Option Nat := none
  tokensUsed : Option Nat := none

structure InteractionResume where
  request : Value
  response : Value

/-- The segments still to descend to the blocked step, and what is delivered there. -/
structure Reentry where
  path : NodePath
  answer : Option AnswerResume := none
  interaction : Option InteractionResume := none

def Reentry.descend (reentry : Reentry) : Reentry := { reentry with path := reentry.path.tail }

inductive AgentEntry where
  | fresh
  | answer (resume : AnswerResume)

/-- One execution of a function or agent step, asked of the code that runs it under its policies. -/
structure StepCall where
  step : StepDefinition
  input : Value
  parentPath : NodePath
  frames : List ScopeFrame
  path : NodePath
  entry : AgentEntry

inductive StepNote where
  | log (level : LogLevel) (message : String)
  | retry (attempt : Nat) (reason : RetryReason) (error : String)
  | steer (attempt : Nat) (violation : String) (violationKind : AgentOutputViolationKind)
      (resumeKey : Option String)
  | agentError (attempt : Nat) (kind : AgentTurnErrorKind) (message : String) (terminal : Bool)
      (resumeKey : Option String)
  | usage (totalTokens : Nat)

def StepNote.event (path : NodePath) : StepNote → RunEvent
  | .log level message => .stepLog path level message
  | .retry attempt reason error => .stepRetry path attempt reason error
  | .steer attempt violation kind resumeKey => .agentSteer path attempt violation kind resumeKey
  | .agentError attempt kind message terminal resumeKey =>
    .agentError path attempt kind message terminal resumeKey
  | .usage totalTokens => .agentUsage path totalTokens

structure StepReply where
  notes : List StepNote := []
  outcome : StepOutcome

inductive Action where
  | emit (event : RunEvent)
  | setStepOutput (key : NodePath) (output : Value)
  | enterFlight (key : NodePath)
  | leaveFlight (key : NodePath)
  | acquire (key : NodePath)
  | admitted (key : NodePath)
  | release

/-- Code of the engine: it settles with an outcome, or an exception leaves it. -/
abbrev Code := Proc RunMemory Action StepCall StepReply (Except String ExecOutcome)

def conclude (outcome : ExecOutcome) : Code := .done (.ok outcome)

def raise (error : String) : Code := .done (.error error)

def emit (event : RunEvent) (next : Code) : Code := .act (.emit event) next

def emitAll (events : List RunEvent) (next : Code) : Code := events.foldr emit next

def andThen (code : Code) (next : ExecOutcome → Code) : Code :=
  code.bind (fun result =>
    match result with
    | .ok outcome => next outcome
    | .error error => .done (.error error))

def ifOk (code : Code) (next : Value → Code) : Code :=
  andThen code (fun outcome =>
    match outcome with
    | .ok output => next output
    | other => conclude other)

def emitNodeCompleted (path : NodePath) (output : Value) (next : Code) : Code :=
  emit (.nodeCompleted path output) next

def addNames (index : NameIndex) (chain : List String) (names : List String) : NameIndex :=
  Dict.set index chain (names.foldl (fun known name => known.insert name)
    ((Dict.get index chain).getD []) )

mutual

def declareNode (chain : List String) : WorkflowNode → NameIndex → NameIndex
  | .step step, index => addNames index chain [step.name]
  | .branch name arms, index => declareArms chain arms (addNames index chain [name])
  | .loop name _ body _ _, index =>
    declareNodes (chain ++ [name]) body (addNames (addNames index chain [name]) (chain ++ [name]) [])
  | .foreach name body _ _ _, index =>
    declareNodes (chain ++ [name]) body (addNames (addNames index chain [name]) (chain ++ [name]) [])
  | .parallel name arms, index =>
    addNames (addNames index chain [name]) (chain ++ [name]) (arms.map StepDefinition.name)
  | .workflow name nodes, index =>
    declareNodes (chain ++ [name]) nodes (addNames (addNames index chain [name]) (chain ++ [name]) [])

def declareNodes (chain : List String) : List WorkflowNode → NameIndex → NameIndex
  | [], index => index
  | node :: rest, index => declareNodes chain rest (declareNode chain node index)

def declareArms (chain : List String) : List BranchArm → NameIndex → NameIndex
  | [], index => index
  | .mk name _ body :: rest, index =>
    declareArms chain rest
      (declareNodes (chain ++ [name]) body (addNames (addNames index chain [name]) (chain ++ [name]) []))

end

def buildDeclaredNameIndex (nodes : List WorkflowNode) : NameIndex :=
  declareNodes [] nodes (addNames [] [] [])

def hasPathSyntax (name : String) : Bool := name.toList.any (fun c => c = '/' || c = '#' || c = '@')

def declaredIn (index : NameIndex) (scope : NodePath) : List String :=
  (Dict.get index (scope.map PathSegment.name)).getD []

def scopesOutward (parent : NodePath) : List NodePath := parent.inits.reverse

/-- The value the nearest declaring scope holds under a name; a step in flight is not read. -/
def resolveIn (env : RunEnv) (memory : RunMemory) (name : String) :
    List NodePath → Option (Except String Value)
  | [] => none
  | scope :: outward =>
    let key := scope ++ [{ name := name }]
    if key ∈ memory.inFlight then
      some (.error ("getStepResult(\"" ++ name ++ "\"): step \"" ++ formatPath key ++
        "\" is currently executing (spec §3.9) — a concurrent read cannot observe an in-flight step"))
    else if name ∈ declaredIn env.nameIndex scope then some (.ok (memory.outputAt key))
    else resolveIn env memory name outward

def resolveStepResult (env : RunEnv) (memory : RunMemory) (staticParent : NodePath) (name : String) :
    Except String Value :=
  if hasPathSyntax name then
    .error ("getStepResult(\"" ++ name ++ "\"): path arguments were removed (names-only addressing, " ++
      "spec 4.1) — pass the bare step/construct name; it resolves lexically to the nearest enclosing " ++
      "scope that declares it")
  else (resolveIn env memory name (scopesOutward staticParent)).getD
    (.error ("getStepResult(\"" ++ name ++ "\"): no step or construct named \"" ++ name ++
      "\" is visible from this scope (names-only addressing, spec 4.2) — a mis-addressed read is a " ++
      "wiring bug, not a structural fact. Visible names: " ++ ", ".intercalate
        (((scopesOutward staticParent).flatMap (declaredIn env.nameIndex)).dedup.insertionSort (· ≤ ·))))

def scopeFrame (frames : List ScopeFrame) : Option String → Option ScopeFrame
  | none => frames.getLast?
  | some name => frames.reverse.find? (fun frame => frame.name = name)

def createRunContext (env : RunEnv) (memory : RunMemory) (parentPath : NodePath)
    (frames : List ScopeFrame) (ownPath : NodePath) : RunContext where
  runId := env.runId
  workflowName := env.workflowName
  path := formatPath ownPath
  scope := scopeFrame frames
  getStepResult := resolveStepResult env memory (staticPathOf parentPath)
  getInitData := env.initialInput

end KimchiWorkflows.Engine
