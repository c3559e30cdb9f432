import KimchiWorkflows.Engine.AgentSession

namespace KimchiWorkflows.Engine.StepRunner

open KimchiWorkflows.Flow KimchiWorkflows.Engine

section Turns

variable (policy : AgentPolicy) (attempt : Nat) (resumeKey : Option String) (signal : Option Nat)
  (seed : Conversation) (turn : Nat → TurnFate)

def heard (repair : Nat) (conversation : Conversation) : Conversation := conversation ++ (turn repair).messages

/-- The turns from one of them on: repairs left, repairs made, time, tokens, what was heard, and what is sent. -/
inductive Turned : Nat → Nat → Nat → Nat → Conversation → Message → SessionRun → Prop where
  | aborted {repairs repair now total : Nat} {conversation : Conversation} {message : Message} :
      Turned repairs repair now total conversation message
        { endedAt := now, result := .cancelled none, messages := conversation }
  | ended {repairs repair now total endedAt : Nat} {conversation : Conversation} {message : Message}
      {result : AttemptResult} {notes : Notes}
      (hturn : settleTurn policy attempt resumeKey signal (turn repair) (seed ++ heard turn repair conversation) now
        total = .ended endedAt result notes) :
      Turned repairs repair now total conversation message
        { endedAt := endedAt, result := result, notes := notes, sent := [message]
          messages := heard turn repair conversation }
  | failed {repair now total recordedAt after : Nat} {conversation : Conversation} {message : Message}
      {notes : Notes} {violation : String} {kind : AgentOutputViolationKind}
      (hturn : settleTurn policy attempt resumeKey signal (turn repair) (seed ++ heard turn repair conversation) now
        total = .violated recordedAt notes after violation kind) :
      Turned 0 repair now total conversation message
        { endedAt := recordedAt, result := .retryable .invalidOutput (outputError policy violation), notes := notes
          sent := [message], messages := heard turn repair conversation }
  | unsteered {repairs repair now total recordedAt after : Nat} {conversation : Conversation} {message : Message}
      {notes : Notes} {violation failure : String} {kind : AgentOutputViolationKind}
      (hturn : settleTurn policy attempt resumeKey signal (turn repair) (seed ++ heard turn repair conversation) now
        total = .violated recordedAt notes after violation kind)
      (hsteered : (turn repair).steered = .error failure) :
      Turned (repairs + 1) repair now total conversation message
        { endedAt := recordedAt + (turn repair).steering, result := .thrown failure, notes := notes
          sent := [message], messages := heard turn repair conversation }
  | steered {repairs repair now total recordedAt after : Nat} {conversation : Conversation} {message : Message}
      {notes : Notes} {violation : String} {kind : AgentOutputViolationKind} {rest : SessionRun}
      (hturn : settleTurn policy attempt resumeKey signal (turn repair) (seed ++ heard turn repair conversation) now
        total = .violated recordedAt notes after violation kind)
      (hsteered : (turn repair).steered = .ok ())
      (hrest : Turned repairs (repair + 1) (recordedAt + (turn repair).steering) after
        (heard turn repair conversation) (.correction violation) rest) :
      Turned (repairs + 1) repair now total conversation message
        { rest with
          notes := notes ++ (recordedAt, .steer (repair + 1) violation kind resumeKey) :: rest.notes
          sent := message :: rest.sent }

variable {policy attempt resumeKey signal seed turn} {repairs repair now total : Nat} {conversation : Conversation}
  {message : Message}

theorem turned_runTurns : Turned policy attempt resumeKey signal seed turn repairs repair now total conversation message
    (runTurns policy attempt resumeKey signal seed turn repairs repair now total conversation message) := by
  induction repairs generalizing repair now total conversation message with
  | zero =>
    unfold runTurns
    split_ifs
    · exact .aborted
    · simp only
      split
      · rename_i hturn
        exact .ended hturn
      · rename_i hturn
        exact .failed hturn
  | succ repairs ih =>
    unfold runTurns
    split_ifs
    · exact .aborted
    · simp only
      split
      · rename_i hturn
        exact .ended hturn
      · rename_i hturn
        split
        · rename_i hsteered
          exact .unsteered hturn hsteered
        · rename_i hsteered
          exact .steered hturn hsteered ih

end Turns

theorem runAgentSession_cases {policy : AgentPolicy} {entry : AgentEntry} {number startingTokens now : Nat}
    {signal : Option Nat} {fate : SessionFate} {P : SessionRun → Prop}
    (hfatal : ∀ error, P { endedAt := now, result := .fatal error })
    (hstartup : ∀ error, P { endedAt := now, result := .retryable .thrownError error })
    (hturned : ∀ resumeKey message, P (runTurns policy number resumeKey signal (AgentEntry.seed entry) fate.turn
      (maxRepairs policy) 0 now startingTokens [] message)) :
    P (runAgentSession policy entry number startingTokens signal fate now) := by
  unfold runAgentSession
  split
  · exact hfatal _
  · split
    · exact hstartup _
    · split
      · exact hfatal _
      · exact hturned _ _

end KimchiWorkflows.Engine.StepRunner
