import KimchiWorkflows.Engine.Events
import KimchiWorkflows.Lib.Dict

/-!
The bridge from the run log onto the event bus: what it keeps of a run, and the payload of each event.
-/

namespace KimchiWorkflows.Host.Telemetry

open KimchiWorkflows.Engine

/-- An event with the fields every event carries; the engine stamps it with the time of its writing. -/
structure LoggedEvent where
  runId : String
  stamp : String
  event : RunEvent

inductive WorkflowRetryReason where
  | exception | invalidOutput | budgetExceeded | providerError | contextWindow
  deriving DecidableEq

def codeUnits (c : Char) : List Nat :=
  if c.toNat < 0x10000 then [c.toNat]
  else [0xD800 + (c.toNat - 0x10000) / 0x400, 0xDC00 + (c.toNat - 0x10000) % 0x400]

def maxErrorLength : Nat := 300

/-- A message as its UTF-16 code units; a cut one ends in an ellipsis. -/
def truncateError (message : String) : List Nat :=
  let units := message.toList.flatMap codeUnits
  if units.length ≤ maxErrorLength then units else units.take maxErrorLength ++ codeUnits '…'

structure WorkflowError where
  message : List Nat
  deriving DecidableEq

structure WorkflowEventCommon where
  runId : String
  workflowName : String
  stamp : String
  deriving DecidableEq

inductive WorkflowEventPayload where
  | runStarted (common : WorkflowEventCommon)
  | runResumed (common : WorkflowEventCommon)
  | runCompleted (common : WorkflowEventCommon) (durationMs : Option Int)
  | runFailed (common : WorkflowEventCommon) (error : WorkflowError) (durationMs : Option Int)
  | runCancelled (common : WorkflowEventCommon)
  | stepStarted (common : WorkflowEventCommon) (stepName : String)
  | stepRetried (common : WorkflowEventCommon) (stepName : String) (attempt : Nat)
      (reason : WorkflowRetryReason) (error : WorkflowError)
  | stepCompleted (common : WorkflowEventCommon) (stepName : String) (durationMs : Option Int)
  | stepFailed (common : WorkflowEventCommon) (stepName : String) (error : WorkflowError)
      (durationMs : Option Int)
  | stepCancelled (common : WorkflowEventCommon) (stepName : String)
  deriving DecidableEq

structure RunTelemetryState where
  workflowName : String := ""
  startedAt : Option String := none
  stepStartedAt : List (NodePath × String) := []
  agentErrorKind : List (NodePath × AgentTurnErrorKind) := []

abbrev States := List (String × RunTelemetryState)

def stateOf (states : States) (runId : String) : RunTelemetryState := (Dict.get states runId).getD {}

def RunTelemetryState.settleStep (state : RunTelemetryState) (path : NodePath) : RunTelemetryState :=
  { state with
    stepStartedAt := Dict.restrict (fun key => key ≠ path) state.stepStartedAt
    agentErrorKind := Dict.restrict (fun key => key ≠ path) state.agentErrorKind }

def RunTelemetryState.settleRun (state : RunTelemetryState) : RunTelemetryState :=
  { state with stepStartedAt := [], agentErrorKind := [] }

def settle (states : States) (runId : String) (change : RunTelemetryState → RunTelemetryState) : States :=
  match Dict.get states runId with
  | none => states
  | some state => Dict.set states runId (change state)

def learn (states : States) (e : LoggedEvent) : States :=
  let state := stateOf states e.runId
  match e.event with
  | .runStarted _ workflowName _ =>
    Dict.set states e.runId
      { state with workflowName := workflowName, startedAt := state.startedAt.or (some e.stamp) }
  | .runResumed _ => Dict.set states e.runId state
  | .runCompleted _ => settle states e.runId RunTelemetryState.settleRun
  | .runCrashed _ _ => settle states e.runId RunTelemetryState.settleRun
  | .runCancelled _ _ => settle states e.runId RunTelemetryState.settleRun
  | .stepStarted path _ =>
    Dict.set states e.runId { state with stepStartedAt := Dict.set state.stepStartedAt path e.stamp }
  | .stepCompleted path _ => settle states e.runId (fun state => state.settleStep path)
  | .stepFailed path _ => settle states e.runId (fun state => state.settleStep path)
  | .stepCancelled path => settle states e.runId (fun state => state.settleStep path)
  | .agentError path _ kind _ _ _ =>
    Dict.set states e.runId { state with agentErrorKind := Dict.set state.agentErrorKind path kind }
  | _ => states

def workflowNameOf (states : States) (runId : String) : String :=
  ((Dict.get states runId).map RunTelemetryState.workflowName).getD ""

def startedAtOf (states : States) (runId : String) : Option String :=
  (Dict.get states runId).bind RunTelemetryState.startedAt

def stepStartOf (states : States) (runId : String) (path : NodePath) : Option String :=
  (Dict.get states runId).bind (fun state => Dict.get state.stepStartedAt path)

def errorKindOf (states : States) (runId : String) (path : NodePath) : Option AgentTurnErrorKind :=
  (Dict.get states runId).bind (fun state => Dict.get state.agentErrorKind path)

section Payloads

-- how the platform reads a date: milliseconds, or nothing where the text is no date
variable (dateParse : String → Option Int)

def elapsed (startedAt : Option String) (stamp : String) : Option Int :=
  match startedAt.bind dateParse, dateParse stamp with
  | some start, some stop => some (max 0 (stop - start))
  | _, _ => none

def agentReason : AgentTurnErrorKind → WorkflowRetryReason
  | .providerError => .providerError
  | .contextWindowExceeded => .contextWindow

def retryReason (kind : Option AgentTurnErrorKind) : RetryReason → WorkflowRetryReason
  | .thrownError => .exception
  | .invalidOutput => .invalidOutput
  | .budgetExceeded => .budgetExceeded
  | .agentError => (kind.map agentReason).getD .providerError

def stepName (path : NodePath) : String := (path.getLast?.map PathSegment.name).getD (formatPath path)

def errorOf (message : String) : WorkflowError := { message := truncateError message }

/-- The payload an event is published as; what is read of the state is as the event finds it, the name
of the workflow as it leaves it. -/
def payload (states : States) (e : LoggedEvent) : Option WorkflowEventPayload :=
  let common : WorkflowEventCommon :=
    { runId := e.runId, workflowName := workflowNameOf (learn states e) e.runId, stamp := e.stamp }
  let sinceStart := elapsed dateParse (startedAtOf states e.runId) e.stamp
  let sinceStepStart (path : NodePath) := elapsed dateParse (stepStartOf states e.runId path) e.stamp
  match e.event with
  | .runStarted _ _ _ => some (.runStarted common)
  | .runResumed _ => some (.runResumed common)
  | .runCompleted _ => some (.runCompleted common sinceStart)
  | .runCrashed _ error => some (.runFailed common (errorOf error) sinceStart)
  | .runCancelled _ _ => some (.runCancelled common)
  | .stepStarted path _ => some (.stepStarted common (stepName path))
  | .stepRetry path attempt reason error =>
    some (.stepRetried common (stepName path) attempt
      (retryReason (errorKindOf states e.runId path) reason) (errorOf error))
  | .stepCompleted path _ => some (.stepCompleted common (stepName path) (sinceStepStart path))
  | .stepFailed path error =>
    some (.stepFailed common (stepName path) (errorOf error) (sinceStepStart path))
  | .stepCancelled path => some (.stepCancelled common (stepName path))
  | _ => none

def observe (states : States) (e : LoggedEvent) : States × Option WorkflowEventPayload :=
  (learn states e, payload dateParse states e)

def seed (states : States) (events : List LoggedEvent) : States :=
  events.foldl (fun states e => (observe dateParse states e).1) states

def observeAll : States → List LoggedEvent → List (Option WorkflowEventPayload)
  | _, [] => []
  | states, e :: rest => (observe dateParse states e).2 :: observeAll (observe dateParse states e).1 rest

end Payloads

end KimchiWorkflows.Host.Telemetry
