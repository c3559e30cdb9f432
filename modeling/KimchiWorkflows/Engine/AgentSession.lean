import KimchiWorkflows.Engine.RunContext

/-!
One attempt at an agent step: a session of turns, each corrected in its place while repairs are left.
-/

namespace KimchiWorkflows.Engine.StepRunner

open KimchiWorkflows.Flow KimchiWorkflows.Engine

structure SubmittedOutput where
  tool : String
  arguments : Record

structure AgentTurnError where
  kind : AgentTurnErrorKind
  message : String

structure AgentTurn where
  text : String
  usage : Option Nat := none
  cancelled : Bool := false
  submitted : Option SubmittedOutput := none
  error : Option AgentTurnError := none

/-- An agent step with its policies; reading a question batch is left to the validator. -/
structure AgentPolicy where
  step : AgentStep
  retry : Option RetryPolicy := none
  maxTokens : Option Nat := none
  maxOutputRepairs : Option Int := none
  readQuestions : Record → Except String Questionnaire

def submitResultTool : String := "workflow_submit_result"

def submitQuestionsTool : String := "workflow_submit_questions"

inductive SubmittedPayload where
  | result (value : Value)
  | malformed (tool reason : String)
  | questions (value : Record)

def readSubmittedPayload (submitted : SubmittedOutput) : Option SubmittedPayload :=
  if submitted.tool = submitResultTool then
    match Dict.get submitted.arguments "result" with
    | none => some (.malformed submitResultTool "called without a `result` argument")
    | some value => some (.result value)
  else if submitted.tool = submitQuestionsTool then some (.questions submitted.arguments)
  else none

inductive ReplyCheck where
  | result (value : Value)
  | questions (questions : Questionnaire)
  | violates (violation : String) (kind : AgentOutputViolationKind)

def checkAgentTurn (policy : AgentPolicy) (turn : AgentTurn) : ReplyCheck :=
  match policy.step.outputSchema with
  | none => .result (.string turn.text)
  | some schema =>
    match turn.submitted.bind readSubmittedPayload with
    | none => .violates (if policy.step.asks
        then "the turn ended without calling " ++ submitResultTool ++ " or " ++ submitQuestionsTool
        else "the turn ended without calling " ++ submitResultTool) .noSubmission
    | some (.malformed tool reason) => .violates (tool ++ ": " ++ reason) .malformedArguments
    | some (.questions value) =>
      if policy.step.asks then
        match policy.readQuestions value with
        | .error violation => .violates (submitQuestionsTool ++ ": " ++ violation) .invalidQuestions
        | .ok questions => .questions questions
      else .violates (submitQuestionsTool ++ ": this step cannot ask questions") .askingNotAllowed
    | some (.result value) =>
      match schema.violations value with
      | some violation => .violates (submitResultTool ++ ": " ++ violation) .schemaViolation
      | none => .result value

def resumes (step : AgentStep) : Bool :=
  match step.resumable with
  | .off => false
  | _ => true

def isTerminalAgentError (step : AgentStep) (error : AgentTurnError) : Bool :=
  error.kind = .contextWindowExceeded && resumes step

def maxRepairs (policy : AgentPolicy) : Nat :=
  if policy.step.outputSchema.isNone then 0 else (policy.maxOutputRepairs.getD 2).toNat

/-- What is sent to the session; how it is worded is not part of the model. -/
inductive Message where
  | prompt (text : String)
  | answers (answers : Record)
  | correction (violation : String)

inductive AttemptResult where
  | ok (output : Value)
  | retryable (reason : RetryReason) (error : String)
  | fatal (error : String)
  | blocked (questionnaire : Questionnaire) (conversation : Conversation) (elapsedMs tokensUsed : Option Nat)
  | cancelled (source : Option CancelSource)
  | thrown (error : String)

abbrev Notes := List (Nat × StepNote)

/-- What the host does with one turn: its reply and the messages it adds, and how long the appends after it take. -/
structure TurnFate where
  takes : Nat
  reply : Except String AgentTurn
  messages : Conversation := []
  recording : Nat := 0
  recorded : Except String Unit := .ok ()
  steering : Nat := 0
  steered : Except String Unit := .ok ()

structure SessionFate where
  resumeKey : Except String (Option String) := .ok none
  opened : Except String Unit := .ok ()
  prompt : Except String String
  turn : Nat → TurnFate

/-- An attempt run to its end, abandoned or not: when it ended, what it recorded on the way and what it sent. -/
structure SessionRun where
  endedAt : Nat
  result : AttemptResult
  notes : Notes := []
  sent : List Message := []
  messages : Conversation := []

def aborted (signal : Option Nat) (now : Nat) : Bool := signal.any (· < now)

inductive TurnStep where
  | ended (endedAt : Nat) (result : AttemptResult) (notes : Notes)
  | violated (recordedAt : Nat) (notes : Notes) (totalTokens : Nat) (violation : String)
      (kind : AgentOutputViolationKind)

def tokenError (policy : AgentPolicy) (budget total : Nat) : String :=
  "step \"" ++ policy.step.name ++ "\" exceeded its " ++ toString budget ++ "-token budget (used " ++
    toString total ++ ")"

def outputError (policy : AgentPolicy) (violation : String) : String :=
  "step \"" ++ policy.step.name ++ "\" output: " ++ violation

def judgeReply (policy : AgentPolicy) (turn : AgentTurn) (conversation : Conversation) (recordedAt : Nat)
    (notes : Notes) (total : Nat) : TurnStep :=
  match policy.maxTokens.filter (· < total) with
  | some budget => .ended recordedAt (.retryable .budgetExceeded (tokenError policy budget total)) notes
  | none =>
    match checkAgentTurn policy turn with
    | .result value => .ended recordedAt (.ok value) notes
    | .questions questions => .ended recordedAt (.blocked questions conversation none (some total)) notes
    | .violates violation kind => .violated recordedAt notes total violation kind

def recordError (policy : AgentPolicy) (attempt : Nat) (resumeKey : Option String) (fate : TurnFate)
    (settledAt : Nat) (error : AgentTurnError) : TurnStep :=
  let terminal := isTerminalAgentError policy.step error
  let kind := match error.kind with
    | .contextWindowExceeded => "context-window-exceeded"
    | .providerError => "provider-error"
  let text := "step \"" ++ policy.step.name ++ "\": " ++ kind ++ ": " ++ error.message
  match fate.recorded with
  | .error failure => .ended (settledAt + fate.recording) (.thrown failure) []
  | .ok () => .ended (settledAt + fate.recording)
      (if terminal then .fatal text else .retryable .agentError text)
      [(settledAt, .agentError attempt error.kind error.message terminal resumeKey)]

/-- The reply to one turn; the signal is looked at when it arrives, and not again once its event is appended. -/
def settleTurn (policy : AgentPolicy) (attempt : Nat) (resumeKey : Option String) (signal : Option Nat)
    (fate : TurnFate) (conversation : Conversation) (sentAt total : Nat) : TurnStep :=
  let settledAt := sentAt + fate.takes
  match fate.reply with
  | .error error =>
    if aborted signal settledAt then .ended settledAt (.cancelled none) []
    else .ended settledAt (.retryable .thrownError error) []
  | .ok turn =>
    if aborted signal settledAt then .ended settledAt (.cancelled none) []
    else if turn.cancelled then .ended settledAt (.cancelled (some .escape)) []
    else match turn.error with
      | some error => recordError policy attempt resumeKey fate settledAt error
      | none =>
        match turn.usage with
        | none => judgeReply policy turn conversation settledAt [] total
        | some tokens =>
          match fate.recorded with
          | .error failure => .ended (settledAt + fate.recording) (.thrown failure) []
          | .ok () => judgeReply policy turn conversation (settledAt + fate.recording)
              [(settledAt, .usage tokens)] (total + tokens)

/-- The turns from one of them on. Before each the signal is looked at again. -/
def runTurns (policy : AgentPolicy) (attempt : Nat) (resumeKey : Option String) (signal : Option Nat)
    (seed : Conversation) (turn : Nat → TurnFate) :
    Nat → Nat → Nat → Nat → Conversation → Message → SessionRun
  | repairs, repair, now, total, conversation, message =>
    if aborted signal now then { endedAt := now, result := .cancelled none, messages := conversation }
    else
      let heard := conversation ++ (turn repair).messages
      match settleTurn policy attempt resumeKey signal (turn repair) (seed ++ heard) now total with
      | .ended endedAt result notes =>
        { endedAt := endedAt, result := result, notes := notes, sent := [message], messages := heard }
      | .violated recordedAt notes total violation kind =>
        match repairs with
        | 0 => { endedAt := recordedAt, result := .retryable .invalidOutput (outputError policy violation),
                 notes := notes, sent := [message], messages := heard }
        | repairs + 1 =>
          let steeredAt := recordedAt + (turn repair).steering
          match (turn repair).steered with
          | .error failure =>
            { endedAt := steeredAt, result := .thrown failure, notes := notes, sent := [message], messages := heard }
          | .ok () =>
            let rest := runTurns policy attempt resumeKey signal seed turn repairs (repair + 1) steeredAt total heard
              (.correction violation)
            { rest with
              notes := notes ++ (recordedAt, .steer (repair + 1) violation kind resumeKey) :: rest.notes
              sent := message :: rest.sent }

def AgentEntry.seed : AgentEntry → Conversation
  | .fresh => []
  | .answer resume => resume.conversation

def firstMessage (entry : AgentEntry) (fate : SessionFate) : Except String Message :=
  match entry with
  | .answer resume => .ok (.answers resume.answers)
  | .fresh => fate.prompt.map .prompt

def runAgentSession (policy : AgentPolicy) (entry : AgentEntry) (attempt startingTokens : Nat)
    (signal : Option Nat) (fate : SessionFate) (now : Nat) : SessionRun :=
  match fate.resumeKey with
  | .error error => { endedAt := now, result := .fatal error }
  | .ok resumeKey =>
    match fate.opened with
    | .error error => { endedAt := now, result := .retryable .thrownError ("agent step \"" ++ policy.step.name ++
        "\" session startup failed: " ++ error) }
    | .ok () =>
      match firstMessage entry fate with
      | .error error => { endedAt := now, result := .fatal error }
      | .ok message => runTurns policy attempt resumeKey signal (AgentEntry.seed entry) fate.turn
          (maxRepairs policy) 0 now startingTokens [] message

end KimchiWorkflows.Engine.StepRunner
