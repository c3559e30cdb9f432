import KimchiWorkflows.Engine.Events
import KimchiWorkflows.Lib.Dict

/-!
The attempts of the agent steps of a sequence, with the turns that are in flight in the bridge meanwhile.
-/

namespace KimchiWorkflows.Host

open KimchiWorkflows.Engine

/-- What one turn at a time may hold: the session of the harness, or the file of a conversation. -/
inductive Seat where
  | inSession
  | resumeFile (file : String)
  deriving DecidableEq

/-- The turn that holds a seat: the attempt that sent it, and the moment it settles. -/
structure Holder where
  attempt : Nat
  settlesAt : Nat

abbrev Bridge := List (Seat × Holder)

def Bridge.holder (bridge : Bridge) (seat : Seat) (now : Nat) : Option Holder :=
  (Dict.get bridge seat).filter (fun holder => decide (now < holder.settlesAt))

/-- An agent step as the retry loop and the bridge see it; a trace file is nobody else's, so it is no seat. -/
structure BudgetedStep where
  name : String
  seat : Option Seat
  budgetMs : Option Nat := none
  carryOverMs : Nat := 0
  maxRetry : Nat := 0
  backoffMs : Nat := 0
  maxOutputRepairs : Nat := 0
  isOptional : Bool := false

/-- How the host settles a turn that is left to end by itself. -/
inductive TurnReply where
  | submitted | questions | cancelled | exceedsTokens | thrown
  | violation
  | failed (terminal : Bool)

/-- A turn: it settles by itself after a while, some time after an abort, and its reply takes time to record. -/
structure TurnFate where
  takes : Nat
  reply : TurnReply
  lag : Nat
  recording : Nat

/-- What the host does in one attempt and after it; the run may have been cancelled before it. -/
structure AttemptFate where
  turn : Nat → TurnFate
  pause : Nat
  runAborted : Bool := false

inductive AttemptResult where
  | ok | fatal | blocked | cancelled
  | retryable (reason : RetryReason)
  deriving DecidableEq

/-- How an attempt ended: who refused its turn, and how long the turn it left behind takes to settle. -/
structure AttemptEnd where
  endedAt : Nat
  result : AttemptResult
  sent : Bool := true
  refusedBy : Option Nat := none
  left : Option Nat := none

def expired (deadline : Option Nat) (time : Nat) : Option Nat := deadline.filter (fun deadline => decide (deadline < time))

def resultOfReply : TurnReply → AttemptResult
  | .submitted => .ok
  | .questions => .blocked
  | .cancelled => .cancelled
  | .exceedsTokens => .retryable .budgetExceeded
  | .thrown => .retryable .thrownError
  | .violation => .retryable .invalidOutput
  | .failed terminal => if terminal then .fatal else .retryable .agentError

def TurnReply.violates : TurnReply → Bool
  | .violation => true
  | _ => false

/-- The turns of one attempt, from one of them on; the timer may win against a turn or against its recording. -/
def runAgentSession (step : BudgetedStep) (fate : AttemptFate) (index : Nat) (deadline : Option Nat) :
    Nat → Nat → Nat → Bridge → AttemptEnd × Bridge
  | repairs, turn, now, bridge =>
    match step.seat.bind (fun seat => bridge.holder seat now) with
    | some holder =>
      ({ endedAt := now, result := .retryable .thrownError, refusedBy := some holder.attempt }, bridge)
    | none =>
      let settlesAt := now + (fate.turn turn).takes
      match expired deadline settlesAt with
      | some timeout =>
        ({ endedAt := timeout, result := .retryable .budgetExceeded, left := some (fate.turn turn).lag },
          step.seat.elim bridge (fun seat =>
            Dict.set bridge seat { attempt := index, settlesAt := timeout + (fate.turn turn).lag }))
      | none =>
        let recordedAt := settlesAt + (fate.turn turn).recording
        match expired deadline recordedAt with
        | some timeout => ({ endedAt := timeout, result := .retryable .budgetExceeded }, bridge)
        | none =>
          match repairs with
          | 0 => ({ endedAt := recordedAt, result := resultOfReply (fate.turn turn).reply }, bridge)
          | repairs + 1 =>
            if (fate.turn turn).reply.violates then
              runAgentSession step fate index deadline repairs (turn + 1) recordedAt bridge
            else ({ endedAt := recordedAt, result := resultOfReply (fate.turn turn).reply }, bridge)

def withTimeBudget (step : BudgetedStep) (fate : AttemptFate) (index consumedMs now : Nat) (bridge : Bridge) :
    AttemptEnd × Bridge :=
  match step.budgetMs with
  | none => runAgentSession step fate index none step.maxOutputRepairs 0 now bridge
  | some budgetMs =>
    if budgetMs ≤ consumedMs then
      ({ endedAt := now, result := .retryable .budgetExceeded, sent := false }, bridge)
    else runAgentSession step fate index (some (now + (budgetMs - consumedMs))) step.maxOutputRepairs 0 now bridge

/-- An attempt of a run, under its number among all of them. -/
structure Attempt extends AttemptEnd where
  index : Nat
  step : BudgetedStep
  startedAt : Nat

def attemptOf (step : BudgetedStep) (index now : Nat) (ended : AttemptEnd) : Attempt :=
  { ended with index := index, step := step, startedAt := now }

/-- The attempts of one step, and what follows it in the sequence once it is done or has failed optionally. -/
def retryLoop (step : BudgetedStep) (host : Nat → AttemptFate) (next : Nat → Nat → Bridge → List Attempt) :
    Nat → Nat → Nat → Nat → Bridge → List Attempt
  | retries, index, consumedMs, now, bridge =>
    if (host index).runAborted then []
    else
      let ended := withTimeBudget step (host index) index consumedMs now bridge
      let resumesAt := ended.1.endedAt + (host index).pause
      attemptOf step index now ended.1 :: match ended.1.result with
        | .retryable _ =>
          match retries with
          | 0 => if step.isOptional then next (index + 1) resumesAt ended.2 else []
          | retries + 1 => retryLoop step host next retries (index + 1) 0 (resumesAt + step.backoffMs) ended.2
        | .ok => next (index + 1) resumesAt ended.2
        | .fatal => if step.isOptional then next (index + 1) resumesAt ended.2 else []
        | _ => []

def runSequence (host : Nat → AttemptFate) : List BudgetedStep → Nat → Nat → Bridge → List Attempt
  | [], _, _, _ => []
  | step :: rest, index, now, bridge =>
    retryLoop step host (runSequence host rest) step.maxRetry index step.carryOverMs now bridge

end KimchiWorkflows.Host
