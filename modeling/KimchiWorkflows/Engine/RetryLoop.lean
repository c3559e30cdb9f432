import KimchiWorkflows.Engine.AgentSession

/-!
One execution of a function or agent step: attempts under a retry policy and a wall-time budget.
-/

namespace KimchiWorkflows.Engine.StepRunner

open KimchiWorkflows.Flow KimchiWorkflows.Engine

/-- An attempt as the retry loop sees it; a session that was never started has left nothing. -/
structure AttemptRun where
  startedAt : Nat
  deadline : Option Nat := none
  startingTokens : Nat := 0
  session : Option SessionRun := none
  endedAt : Nat
  result : AttemptResult

def budgetError (name : String) (budgetMs : Int) : String :=
  "step \"" ++ name ++ "\" exceeded its " ++ toString budgetMs ++ "ms time budget"

def AttemptResult.withElapsed (elapsedMs : Nat) : AttemptResult → AttemptResult
  | .blocked questionnaire conversation _ tokensUsed =>
    .blocked questionnaire conversation (some elapsedMs) tokensUsed
  | result => result

def earlier (signal : Option Nat) (deadline : Nat) : Option Nat := some (signal.elim deadline (min deadline))

/-- The race of an attempt against the timer of what is left of the budget; the timer may fire late. -/
def withTimeBudget (name : String) (budgetMs : Option Int) (runSignal : Option Nat)
    (attempt : Option Nat → SessionRun) (consumedMs startingTokens lateness now : Nat) : AttemptRun :=
  match budgetMs with
  | none =>
    let session := attempt runSignal
    { startedAt := now, startingTokens := startingTokens, session := some session, endedAt := session.endedAt
      result := session.result }
  | some budgetMs =>
    if budgetMs - consumedMs ≤ 0 then
      { startedAt := now, startingTokens := startingTokens, endedAt := now
        result := .retryable .budgetExceeded (budgetError name budgetMs) }
    else
      let deadline := now + (budgetMs - consumedMs).toNat + lateness
      let session := attempt (earlier runSignal deadline)
      if deadline < session.endedAt then
        { startedAt := now, deadline := some deadline, startingTokens := startingTokens, session := some session
          endedAt := deadline, result := .retryable .budgetExceeded (budgetError name budgetMs) }
      else
        { startedAt := now, deadline := some deadline, startingTokens := startingTokens, session := some session
          endedAt := session.endedAt, result := session.result.withElapsed (consumedMs + (session.endedAt - now)) }

inductive LoopMove where
  | opened (number : Nat) (attempt : AttemptRun)
  | retried (at_ number : Nat) (reason : RetryReason) (error : String)

inductive ExecutionEnd where
  | settled (outcome : StepOutcome)
  | thrown (error : String)

structure Execution where
  moves : List LoopMove := []
  ending : ExecutionEnd
  endedAt : Nat

/-- What the host does after an attempt: how long it takes to record the retry, and to wake up again. -/
structure RetryFate where
  recording : Nat := 0
  recorded : Except String Unit := .ok ()
  lateness : Nat := 0

def AttemptResult.ending : AttemptResult → ExecutionEnd
  | .ok output => .settled (.ok output)
  | .retryable _ error => .settled (.crashed error)
  | .fatal error => .settled (.crashed error)
  | .blocked questionnaire conversation elapsedMs tokensUsed =>
    .settled (.blocked questionnaire conversation none elapsedMs tokensUsed)
  | .cancelled source => .settled (.cancelled source)
  | .thrown error => .thrown error

def backoff (policy : Option RetryPolicy) : Nat := (policy.map RetryPolicy.backoffMs).getD 0

def resumesAt (policy : Option RetryPolicy) (fate : RetryFate) (endedAt : Nat) : Nat :=
  endedAt + fate.recording + if 0 < backoff policy then backoff policy + fate.lateness else 0

/-- The attempts from one of them on; what an attempt does not use up of the carried tokens is left for the next. -/
def retryLoop (policy : Option RetryPolicy) (runSignal : Option Nat) (attempt : Nat → Nat → Nat → AttemptRun)
    (host : Nat → RetryFate) : Nat → Nat → Nat → Nat → Execution
  | retries, number, tokens, now =>
    if aborted runSignal now then { ending := .settled (.cancelled none), endedAt := now }
    else
      let run := attempt number tokens now
      match run.result with
      | .retryable reason error =>
        match retries with
        | 0 => { moves := [.opened number run], ending := run.result.ending, endedAt := run.endedAt }
        | retries + 1 =>
          match (host number).recorded with
          | .error failure => { moves := [.opened number run], ending := .thrown failure
                                endedAt := run.endedAt + (host number).recording }
          | .ok () =>
            let left := if run.session.isSome then 0 else tokens
            let rest := retryLoop policy runSignal attempt host retries (number + 1) left
              (resumesAt policy (host number) run.endedAt)
            { rest with moves := .opened number run :: .retried run.endedAt number reason error :: rest.moves }
      | _ => { moves := [.opened number run], ending := run.result.ending, endedAt := run.endedAt }

def maxRetries (policy : Option RetryPolicy) : Nat := (policy.map RetryPolicy.maxRetry).getD 0

structure AgentHost where
  session : Nat → SessionFate
  lateness : Nat → Nat := fun _ => 0
  retry : Nat → RetryFate := fun _ => {}
  runSignal : Option Nat := none

def AgentEntry.elapsedMs : AgentEntry → Nat
  | .fresh => 0
  | .answer resume => resume.elapsedMs.getD 0

def AgentEntry.tokensUsed : AgentEntry → Nat
  | .fresh => 0
  | .answer resume => resume.tokensUsed.getD 0

def agentAttempt (policy : AgentPolicy) (entry : AgentEntry) (budgetMs : Option Int) (host : AgentHost)
    (number tokens now : Nat) : AttemptRun :=
  withTimeBudget policy.step.name budgetMs host.runSignal
    (fun signal => runAgentSession policy entry number tokens signal (host.session number) now)
    (if number = 1 then AgentEntry.elapsedMs entry else 0) tokens (host.lateness number) now

/-- The budget is resolved by the caller's callback, which may fail. -/
def runAgentStep (policy : AgentPolicy) (budget : Except String (Option Int)) (host : AgentHost) (entry : AgentEntry)
    (now : Nat) : Execution :=
  match budget with
  | .error error => { ending := .settled (.crashed error), endedAt := now }
  | .ok budgetMs => retryLoop policy.retry host.runSignal (agentAttempt policy entry budgetMs host) host.retry
      (maxRetries policy.retry) 1 (AgentEntry.tokensUsed entry) now

structure FunctionPolicy where
  step : FunctionStep
  retry : Option RetryPolicy := none

structure FunctionFate where
  takes : Nat
  returned : Except String Value
  logged : List (Nat × LogLevel × String) := []

structure FunctionHost where
  attempt : Nat → FunctionFate
  lateness : Nat → Nat := fun _ => 0
  retry : Nat → RetryFate := fun _ => {}
  runSignal : Option Nat := none

def functionResult (policy : FunctionPolicy) (signal : Option Nat) (fate : FunctionFate) (endedAt : Nat) :
    AttemptResult :=
  match fate.returned with
  | .error error => if aborted signal endedAt then .cancelled none else .retryable .thrownError error
  | .ok output =>
    match policy.step.outputSchema.bind (·.violations output) with
    | some violation =>
      if aborted signal endedAt then .cancelled none
      else .retryable .invalidOutput ("step \"" ++ policy.step.name ++ "\" output: " ++ violation)
    | none => .ok output

def runFunctionAttempt (policy : FunctionPolicy) (signal : Option Nat) (fate : FunctionFate) (now : Nat) :
    SessionRun where
  endedAt := now + fate.takes
  result := functionResult policy signal fate (now + fate.takes)
  notes := fate.logged.map (fun entry => (now + entry.1, .log entry.2.1 entry.2.2))

def functionAttempt (policy : FunctionPolicy) (budgetMs : Option Int) (host : FunctionHost)
    (number tokens now : Nat) : AttemptRun :=
  withTimeBudget policy.step.name budgetMs host.runSignal
    (fun signal => runFunctionAttempt policy signal (host.attempt number) now) 0 tokens (host.lateness number) now

def runFunctionStep (policy : FunctionPolicy) (budget : Except String (Option Int)) (host : FunctionHost)
    (now : Nat) : Execution :=
  match budget with
  | .error error => { ending := .settled (.crashed error), endedAt := now }
  | .ok budgetMs => retryLoop policy.retry host.runSignal (functionAttempt policy budgetMs host) host.retry
      (maxRetries policy.retry) 1 0 now

def settlement (path : NodePath) (isOptional : Bool) : StepOutcome → Option RunEvent × ExecOutcome
  | .ok output => (some (.stepCompleted path output), .ok output)
  | .blocked questionnaire conversation violation elapsedMs tokensUsed =>
    (some (.questionnaireAsked path questionnaire conversation violation elapsedMs tokensUsed),
      .blocked ⟨path, .questionnaire questionnaire conversation, violation⟩)
  | .crashed error =>
    if isOptional then (some (.stepFailed path error), .ok .undefined) else (none, .crashed error (some path))
  | .cancelled source => (none, .cancelled (some path) source)

end KimchiWorkflows.Engine.StepRunner
