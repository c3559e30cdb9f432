import KimchiWorkflows.Lib.Scheduling
import KimchiWorkflows.Engine.PendingInputs
import KimchiWorkflows.Engine.Recovery
import KimchiWorkflows.Engine.RunStatus
import KimchiWorkflows.Engine.Walker

namespace KimchiWorkflows.Engine

open KimchiWorkflows.Flow Process Scheduling

structure ExecutionCursor where
  runId : String
  initialInput : Value
  stepOutputs : StepOutputs := []
  previousOutput : Value
  startIndex : Nat := 0
  foreachItemHistory : ForeachItemHistory := []
  reentry : Option Reentry := none
  pendingBlocks : List (NodePath × PendingBlock) := []

def envOf (workflow : WorkflowDefinition) (cursor : ExecutionCursor) : RunEnv where
  runId := cursor.runId
  workflowName := workflow.name
  initialInput := cursor.initialInput
  nameIndex := buildDeclaredNameIndex workflow.nodes
  limit := max 1 workflow.maxConcurrency
  foreachItemHistory := cursor.foreachItemHistory
  pendingBlocks := cursor.pendingBlocks

def finishRun (outcome : ExecOutcome) : Code :=
  match outcome with
  | .ok output => emit (.runCompleted output) (conclude outcome)
  | .crashed error path => emit (.runCrashed path error) (conclude outcome)
  | .blocked _ => conclude outcome
  | .cancelled path source => emit (.runCancelled path (some (source.getD .engine))) (conclude outcome)

def execute (workflow : WorkflowDefinition) (cursor : ExecutionCursor) : Code :=
  andThen (runNodeSequence (walked (envOf workflow cursor) workflow.nodes) cursor.previousOutput [] []
    cursor.startIndex cursor.reentry) finishRun

structure RunResult where
  status : RunStatus
  output : Option Value := none
  error : Option String := none
  questionnaire : Option Questionnaire := none
  interaction : Option Value := none
  path : Option NodePath := none
  violation : Option String := none

def resultOf : ExecOutcome → RunResult
  | .ok output => { status := .completed, output := some output }
  | .crashed error path => { status := .crashed, error := some error, path := path }
  | .cancelled path _ => { status := .cancelled, path := path }
  | .blocked block =>
    match block.input with
    | .questionnaire questionnaire _ =>
      { status := .blocked, path := some block.path, questionnaire := some questionnaire
        violation := block.violation }
    | .interaction request =>
      { status := .blocked, path := some block.path, interaction := some request
        violation := block.violation }

inductive EngineCall where
  | run (runId : String) (input : Value)
  | resume
  | answer (answers : Record) (path : Option NodePath)
  | respond (response : Value) (path : Option NodePath)

/-- What a call does after reading the log: the outputs it recovered, and the code it runs. -/
structure Launched where
  stepOutputs : StepOutputs := []
  code : Code

def refuse (drift : String × NodePath) : Launched :=
  { code := emit (.runCrashed (some drift.2) drift.1) (conclude (.crashed drift.1 (some drift.2))) }

def launchAt (workflow : WorkflowDefinition) (opening : RunEvent) (cursor : ExecutionCursor) : Launched where
  stepOutputs := cursor.stepOutputs
  code := emit opening (execute workflow cursor)

def runWorkflow (workflow : WorkflowDefinition) (runId : String) (input : Value) : Launched :=
  match violationOf workflow.inputSchema input with
  | some violation =>
    let error := "workflow \"" ++ workflow.name ++ "\" input: " ++ violation
    { code := emit (.runCrashed none error) (conclude (.crashed error none)) }
  | none => launchAt workflow (.runStarted runId workflow.name input)
      { runId := runId, initialInput := input, previousOutput := input }

def requireRunStarted (events : List RunEvent) : Except String (String × Value) :=
  match events.findSome? (fun event =>
    match event with
    | .runStarted runId _ input => some (runId, input)
    | _ => none) with
  | some started => .ok started
  | none => .error "cannot resume: the prior event log has no run-started event"

def resumeCursor (workflow : WorkflowDefinition) (events : List RunEvent) (runId : String)
    (input : Value) : ExecutionCursor :=
  let fullStepOutputs := rebuildStepOutputs events
  let startIndex := firstIncompleteTopLevelIndex workflow.nodes fullStepOutputs
  let stepOutputs := Dict.restrict (inPrefix workflow.nodes startIndex) fullStepOutputs
  { runId := runId
    initialInput := input
    stepOutputs := stepOutputs
    previousOutput := if startIndex = 0 then input else
      ((workflow.nodes[startIndex - 1]?).elim input (fun previous =>
        (Dict.get stepOutputs [{ name := nodeName previous }]).getD .undefined))
    startIndex := startIndex
    foreachItemHistory := buildForeachItemHistory events }

def resumeWorkflow (workflow : WorkflowDefinition) (events : List RunEvent) : Except String Launched :=
  match requireRunStarted events with
  | .error error => .error error
  | .ok (runId, input) =>
    match checkDrift workflow events (rebuildStepOutputs events) runId with
    | some drift => .ok (refuse drift)
    | none =>
      let cursor := resumeCursor workflow events runId input
      .ok (launchAt workflow (.runResumed ((workflow.nodes[cursor.startIndex]?).map (fun node =>
        [{ name := nodeName node }]))) cursor)

/-- Settle one pending request: the two entry points differ in what they look for and deliver. -/
def resumeWithInput (workflow : WorkflowDefinition) (events : List RunEvent) (keep : Asked → Bool)
    (path : Option NodePath) (missing : String) (overtaken : String → String → String)
    (provided : NodePath → RunEvent) (deliver : Asked → Reentry) : Except String Launched :=
  match requireRunStarted events with
  | .error error => .error error
  | .ok (runId, input) =>
    match selectPending keep events path with
    | none => .error missing
    | some pending =>
      match settledAfter events pending with
      | some settled => .error (overtaken runId settled)
      | none =>
        match checkDrift workflow events (rebuildStepOutputs events) runId with
        | some drift => .ok (refuse drift)
        | none => .ok (launchAt workflow (provided pending.path)
            { runId := runId
              initialInput := input
              stepOutputs := rebuildStepOutputs events
              previousOutput := input
              foreachItemHistory := buildForeachItemHistory events
              reentry := some (deliver pending)
              pendingBlocks := pendingBlocksExcept events pending.path })

def answerReentry (answers : Record) (pending : Asked) : Reentry :=
  { path := pending.path
    answer := some
      { answers := answers
        conversation := match pending.input with
          | .questionnaire _ conversation => conversation
          | .interaction _ => []
        elapsedMs := pending.elapsedMs
        tokensUsed := pending.tokensUsed } }

def resumeWithAnswer (workflow : WorkflowDefinition) (events : List RunEvent) (answers : Record)
    (path : Option NodePath) : Except String Launched :=
  resumeWithInput workflow events Asked.isQuestionnaire path
    (path.elim "cannot answer: the run is not blocked (no pending questionnaire in the log)"
      (fun path => "cannot answer: \"" ++ formatPath path ++ "\" was never asked in this run's log"))
    (fun runId settled => "cannot answer run " ++ runId ++ ": it was " ++ settled ++
      " after blocking; answering would undo that")
    (fun path => .answersProvided path answers) (answerReentry answers)

def interactionReentry (response : Value) (pending : Asked) : Reentry :=
  { path := pending.path
    interaction := some
      { request := match pending.input with
          | .interaction request => request
          | .questionnaire _ _ => .undefined
        response := response } }

def resumeWithInteraction (workflow : WorkflowDefinition) (events : List RunEvent) (response : Value)
    (path : Option NodePath) : Except String Launched :=
  resumeWithInput workflow events Asked.isInteraction path
    (path.elim "cannot respond: the run is not blocked (no pending interaction in the log)"
      (fun path => "cannot respond: \"" ++ formatPath path ++
        "\" never requested an interaction in this run's log"))
    (fun runId settled => "cannot respond to run " ++ runId ++ ": it was " ++ settled ++
      " after blocking; responding would undo that")
    (fun path => .interactionProvided path response) (interactionReentry response)

def launch (workflow : WorkflowDefinition) (events : List RunEvent) : EngineCall → Except String Launched
  | .run runId input => .ok (runWorkflow workflow runId input)
  | .resume => resumeWorkflow workflow events
  | .answer answers path => resumeWithAnswer workflow events answers path
  | .respond response path => resumeWithInteraction workflow events response path

/-- What a step execution may answer: outputs that satisfy its schema, questions only if it asks. -/
def admitsReply (call : StepCall) (reply : StepReply) : Bool :=
  match reply.outcome with
  | .ok output => (violationOf call.step.outputSchema output).isNone
  | .blocked _ _ _ _ _ =>
    match call.step with
    | .agent step => step.asks
    | _ => false
  | _ => true

def ConcurrencyGate.acquire (gate : ConcurrencyGate) (limit : Nat) (key : NodePath) : ConcurrencyGate :=
  if gate.active < limit then { gate with active := gate.active + 1 }
  else { gate with queue := gate.queue ++ [key] }

/-- A released slot goes to the longest waiting acquirer. -/
def ConcurrencyGate.release (gate : ConcurrencyGate) : ConcurrencyGate :=
  match gate.queue with
  | [] => { gate with active := gate.active - 1 }
  | _ :: rest => { gate with queue := rest }

def RunMemory.perform (limit : Nat) (action : Action) (memory : RunMemory) : RunMemory :=
  match action with
  | .emit event => { memory with log := memory.log ++ [event] }
  | .setStepOutput key output => { memory with stepOutputs := Dict.set memory.stepOutputs key output }
  | .enterFlight key => { memory with inFlight := memory.inFlight.insert key }
  | .leaveFlight key => { memory with inFlight := memory.inFlight.filter (· ≠ key) }
  | .acquire key => { memory with gate := memory.gate.acquire limit key }
  | .admitted _ => memory
  | .release => { memory with gate := memory.gate.release }

/-- The world of one engine call: a queued step waits for a slot, and the signal may abort any time. -/
def engineWorld (workflow : WorkflowDefinition) : World RunMemory Action StepCall StepReply where
  enabled action memory :=
    match action with
    | .admitted key => key ∉ memory.gate.queue
    | _ => true
  apply := RunMemory.perform (max 1 workflow.maxConcurrency)
  admits := admitsReply
  outside memory memory' := memory' = { memory with aborted := true }

def Launched.memory (launched : Launched) (events : List RunEvent) : RunMemory :=
  { stepOutputs := launched.stepOutputs, log := events }

end KimchiWorkflows.Engine
