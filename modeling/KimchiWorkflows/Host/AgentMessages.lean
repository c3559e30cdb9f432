import KimchiWorkflows.Engine.AgentSession
import Mathlib.Data.List.Infix

/-!
What is read from the messages of a PI session: the reply of a turn, and the submission of an attempt.
-/

namespace KimchiWorkflows.Host

open KimchiWorkflows.Flow KimchiWorkflows.Engine KimchiWorkflows.Engine.StepRunner

inductive ContentPart where
  | text (text : String)
  | other

/-- A message of the session; the content of an assistant's is read only where it is a list of parts. -/
inductive AgentMessage where
  | assistant (content : Option (List ContentPart)) (usage : Option Nat) (stopReason errorMessage : Option String)
  | toolResult (isError : Bool) (details : Value)
  | other

abbrev AgentMessages := List AgentMessage

/-- Whether a registry has the model that a text names as `provider/modelId`. -/
def resolveModel (finds : String → String → Bool) (modelString : String) : Bool :=
  match modelString.toList.span (· ≠ '/') with
  | (provider, _ :: modelId) => finds (String.ofList provider) (String.ofList modelId)
  | (_, []) => false

def ContentPart.written : ContentPart → String
  | .text characters => characters
  | .other => ""

def isAssistantMessage : AgentMessage → Bool
  | .assistant _ _ _ _ => true
  | _ => false

def lastAssistant (messages : AgentMessages) : Option AgentMessage := messages.reverse.find? isAssistantMessage

def lastAssistantText (messages : AgentMessages) : String :=
  match lastAssistant messages with
  | some (.assistant (some content) _ _ _) => String.join (content.map ContentPart.written)
  | _ => ""

def lastAssistantUsage (messages : AgentMessages) : Option Nat :=
  match lastAssistant messages with
  | some (.assistant _ usage _ _) => usage
  | _ => none

def lastAssistantWasAborted (messages : AgentMessages) : Bool :=
  match lastAssistant messages with
  | some (.assistant _ _ stopReason _) => stopReason = some "aborted"
  | _ => false

def contextWindowPhrases : List String :=
  ["contextwindow", "context window", "context_window", "context-window", "context length", "too many tokens",
    "prompt is too long", "maximum context"]

def classifyAgentError (raw : String) : AgentTurnErrorKind :=
  if contextWindowPhrases.any (fun phrase => phrase.toList <:+: raw.toList.map Char.toLower)
  then .contextWindowExceeded else .providerError

def errorFromMessage : AgentMessage → Option AgentTurnError
  | .assistant _ _ (some "error") errorMessage =>
    let raw := errorMessage.getD ""
    some { kind := classifyAgentError raw
           message := if raw = "" then "the provider reported an error with no message" else raw }
  | _ => none

def lastAssistantError (messages : AgentMessages) : Option AgentTurnError :=
  (lastAssistant messages).bind errorFromMessage

structure StepSubmissionIdentity where
  runId : String
  path : String
  attempt : Nat

inductive SubmissionKind where
  | result | questions

structure SubmissionDetails where
  kind : SubmissionKind
  runId : String
  path : String
  attempt : Rat
  payload : Value

def workflowStepSubmissionType : String := "kimchi-workflow-step-submission"

def submissionKind : Value → Option SubmissionKind
  | .string "result" => some .result
  | .string "questions" => some .questions
  | _ => none

def readSubmissionDetails : Value → Option SubmissionDetails
  | .object record =>
    match lookup record "type", submissionKind (lookup record "kind"), lookup record "runId", lookup record "path",
      lookup record "attempt" with
    | .string type, some kind, .string runId, .string path, .number attempt =>
      if type = workflowStepSubmissionType then some ⟨kind, runId, path, attempt, lookup record "payload"⟩ else none
    | _, _, _, _, _ => none
  | _ => none

def isSubmissionForIdentity (details : SubmissionDetails) (identity : StepSubmissionIdentity) : Bool :=
  details.runId = identity.runId && details.path = identity.path && details.attempt = identity.attempt

/-- The members of a value that is an object, an array's under its indices. -/
def membersOf : Value → Record
  | .object fields => fields
  | .array items => items.zipIdx.map (fun item => (toString item.2, item.1))
  | _ => []

def submittedOutputFromDetails (details : SubmissionDetails) : SubmittedOutput where
  tool := match details.kind with
    | .result => submitResultTool
    | .questions => submitQuestionsTool
  arguments := membersOf details.payload

structure SessionEntry where
  id : String
  message : Option AgentMessage

def submissionIn (identity : StepSubmissionIdentity) (entry : SessionEntry) : Option SubmittedOutput :=
  match entry.message with
  | some (.toolResult false details) =>
    (readSubmissionDetails details).bind (fun details =>
      if isSubmissionForIdentity details identity then some (submittedOutputFromDetails details) else none)
  | _ => none

/-- The entries after the one a turn began at; a cursor that is not on the branch leaves none. -/
def afterCursor (branch : List SessionEntry) : Option String → List SessionEntry
  | none => branch
  | some cursor => ((branch.dropWhile (fun entry => entry.id ≠ cursor))).tail

def submissionEntry (branch : List SessionEntry) (cursor : Option String) (identity : StepSubmissionIdentity) :
    Option SessionEntry :=
  (afterCursor branch cursor).reverse.find? (fun entry => (submissionIn identity entry).isSome)

def latestSubmissionAfterCursor (branch : List SessionEntry) (cursor : Option String)
    (identity : StepSubmissionIdentity) : Option SubmittedOutput :=
  (submissionEntry branch cursor identity).bind (submissionIn identity)

end KimchiWorkflows.Host
