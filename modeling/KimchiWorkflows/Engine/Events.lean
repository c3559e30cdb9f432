import KimchiWorkflows.Flow.Definitions
import KimchiWorkflows.Engine.NodePath

namespace KimchiWorkflows.Engine

open KimchiWorkflows.Flow

inductive RetryReason where
  | thrownError | invalidOutput | budgetExceeded | agentError
  deriving DecidableEq

inductive AgentOutputViolationKind where
  | noSubmission | malformedArguments | askingNotAllowed | invalidQuestions | schemaViolation
  deriving DecidableEq

inductive AgentTurnErrorKind where
  | contextWindowExceeded | providerError
  deriving DecidableEq

inductive NodeKind where
  | branch | loop | foreach | parallel | workflow
  deriving DecidableEq

inductive LogLevel where
  | info | warn | error
  deriving DecidableEq

inductive CancelSource where
  | command | escape | engine
  deriving DecidableEq

abbrev Conversation := List Value

inductive RunEvent where
  | runMeta (workflowSource : String)
  | runExecutionStarted (executionId : String)
  | runStarted (runId workflowName : String) (input : Value)
  | runResumed (fromPath : Option NodePath)
  | stepStarted (path : NodePath) (input : Value)
  | stepRetry (path : NodePath) (attempt : Nat) (reason : RetryReason) (error : String)
  | agentSteer (path : NodePath) (attempt : Nat) (violation : String)
      (violationKind : AgentOutputViolationKind) (resumeKey : Option String)
  | agentError (path : NodePath) (attempt : Nat) (kind : AgentTurnErrorKind) (message : String)
      (terminal : Bool) (resumeKey : Option String)
  | agentUsage (path : NodePath) (totalTokens : Nat)
  | stepCompleted (path : NodePath) (output : Value)
  | stepFailed (path : NodePath) (error : String)
  | nodeStarted (path : NodePath) (nodeKind : NodeKind)
  | nodeCompleted (path : NodePath) (output : Value)
  | branchArm (path : NodePath) (taken : Bool)
  | loopIteration (path : NodePath) (iteration : Nat)
  | foreachStarted (path : NodePath) (count : Nat)
  | foreachItemStarted (path : NodePath) (index : Nat)
  | foreachItemCompleted (path : NodePath) (index : Nat) (output : Value)
  | stepLog (path : NodePath) (level : LogLevel) (message : String)
  | runCompleted (output : Value)
  | runCrashed (path : Option NodePath) (error : String)
  | runCancelled (path : Option NodePath) (source : Option CancelSource)
  | questionnaireAsked (path : NodePath) (questionnaire : Questionnaire)
      (conversation : Conversation) (violation : Option String) (elapsedMs tokensUsed : Option Nat)
  | answersProvided (path : NodePath) (answers : Record)
  | interactionRequested (path : NodePath) (request : Value) (violation : Option String)
  | interactionProvided (path : NodePath) (response : Value)
  | stepCancelled (path : NodePath)

def RunEvent.subject : RunEvent → Option NodePath
  | .stepStarted path _ => some path
  | .stepRetry path _ _ _ => some path
  | .agentSteer path _ _ _ _ => some path
  | .agentError path _ _ _ _ _ => some path
  | .agentUsage path _ => some path
  | .stepCompleted path _ => some path
  | .stepFailed path _ => some path
  | .nodeStarted path _ => some path
  | .nodeCompleted path _ => some path
  | .branchArm path _ => some path
  | .loopIteration path _ => some path
  | .foreachStarted path _ => some path
  | .foreachItemStarted path _ => some path
  | .foreachItemCompleted path _ _ => some path
  | .stepLog path _ _ => some path
  | .questionnaireAsked path _ _ _ _ _ => some path
  | .answersProvided path _ => some path
  | .interactionRequested path _ _ => some path
  | .interactionProvided path _ => some path
  | .stepCancelled path => some path
  | _ => none

inductive RunStatus where
  | inProgress | blocked | completed | cancelled | crashed
  deriving DecidableEq

def RunEvent.isRunStarted : RunEvent → Bool
  | .runStarted _ _ _ => true
  | _ => false

def RunEvent.terminal : RunEvent → Option RunStatus
  | .runCompleted _ => some .completed
  | .runCancelled _ _ => some .cancelled
  | .runCrashed _ _ => some .crashed
  | _ => none

/-- The step whose execution an event belongs to, for the events of a step still at work. -/
def RunEvent.work : RunEvent → Option NodePath
  | .stepStarted path _ => some path
  | .stepRetry path _ _ _ => some path
  | .agentSteer path _ _ _ _ => some path
  | .agentError path _ _ _ _ _ => some path
  | .agentUsage path _ => some path
  | .stepLog path _ _ => some path
  | _ => none

def RunEvent.completion : RunEvent → Option (NodePath × Value)
  | .stepCompleted path output => some (path, output)
  | .nodeCompleted path output => some (path, output)
  | _ => none

end KimchiWorkflows.Engine
