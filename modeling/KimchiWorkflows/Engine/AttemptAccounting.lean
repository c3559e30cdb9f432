import KimchiWorkflows.Engine.RetryLoop
import KimchiWorkflows.Engine.SessionTurns
import KimchiWorkflows.Engine.StepNodes

namespace KimchiWorkflows.Engine.StepRunner

open KimchiWorkflows.Flow KimchiWorkflows.Engine

def openings : List LoopMove → List Nat
  | [] => []
  | .opened number _ :: rest => number :: openings rest
  | .retried _ _ _ _ :: rest => openings rest

def retryNumbers : List LoopMove → List Nat
  | [] => []
  | .opened _ _ :: rest => retryNumbers rest
  | .retried _ number _ _ :: rest => number :: retryNumbers rest

def LoopMove.notes : LoopMove → Notes
  | .opened _ attempt => (attempt.session.map SessionRun.notes).getD []
  | .retried at_ number reason error => [(at_, .retry number reason error)]

def Execution.notes (execution : Execution) : Notes := execution.moves.flatMap LoopMove.notes

def settles : RunEvent → Bool
  | .stepCompleted _ _ => true
  | .stepFailed _ _ => true
  | .questionnaireAsked _ _ _ _ _ _ => true
  | _ => false

def Execution.settled (execution : Execution) (path : NodePath) (isOptional : Bool) : Option RunEvent :=
  match execution.ending with
  | .settled outcome => (settlement path isOptional outcome).1
  | .thrown _ => none

/-- All events of an execution, those of the notes in whatever order. -/
def Execution.events (execution : Execution) (path : NodePath) (isOptional : Bool) : List RunEvent :=
  execution.notes.map (fun note => note.2.event path) ++ (execution.settled path isOptional).toList

inductive Paced : Nat → List LoopMove → ExecutionEnd → Prop where
  | cancelled (number : Nat) : Paced number [] (.settled (.cancelled none))
  | last (number : Nat) (run : AttemptRun) : Paced number [.opened number run] run.result.ending
  | lost (number : Nat) (run : AttemptRun) (failure : String) : Paced number [.opened number run] (.thrown failure)
  | again {number : Nat} {run : AttemptRun} {reason : RetryReason} {error : String} {rest : List LoopMove}
      {ending : ExecutionEnd} (at_ : Nat) (h : run.result = .retryable reason error)
      (hrest : Paced (number + 1) rest ending) :
      Paced number (.opened number run :: .retried at_ number reason error :: rest) ending

variable {policy : Option RetryPolicy} {runSignal : Option Nat} {attempt : Nat → Nat → Nat → AttemptRun}
  {host : Nat → RetryFate} {retries number tokens now : Nat} {moves : List LoopMove} {ending : ExecutionEnd}

/-- The ways a retry loop can go from an attempt number on. -/
inductive Looped (policy : Option RetryPolicy) (runSignal : Option Nat) (attempt : Nat → Nat → Nat → AttemptRun)
    (host : Nat → RetryFate) : Nat → Nat → Nat → Nat → Execution → Prop where
  | cancelled {retries number tokens now : Nat} (h : aborted runSignal now = true) :
      Looped policy runSignal attempt host retries number tokens now
        { ending := .settled (.cancelled none), endedAt := now }
  | last {retries number tokens now : Nat} (h : aborted runSignal now = false)
      (hend : retries = 0 ∨ ∀ reason error, (attempt number tokens now).result ≠ .retryable reason error) :
      Looped policy runSignal attempt host retries number tokens now
        { moves := [.opened number (attempt number tokens now)], ending := (attempt number tokens now).result.ending
          endedAt := (attempt number tokens now).endedAt }
  | lost {retries number tokens now : Nat} {reason : RetryReason} {error failure : String}
      (h : aborted runSignal now = false) (hresult : (attempt number tokens now).result = .retryable reason error)
      (hrecorded : (host number).recorded = .error failure) :
      Looped policy runSignal attempt host (retries + 1) number tokens now
        { moves := [.opened number (attempt number tokens now)], ending := .thrown failure
          endedAt := (attempt number tokens now).endedAt + (host number).recording }
  | again {retries number tokens now : Nat} {reason : RetryReason} {error : String} {rest : Execution}
      (h : aborted runSignal now = false) (hresult : (attempt number tokens now).result = .retryable reason error)
      (hrecorded : (host number).recorded = .ok ())
      (hrest : Looped policy runSignal attempt host retries (number + 1)
        (if (attempt number tokens now).session.isSome then 0 else tokens)
        (resumesAt policy (host number) (attempt number tokens now).endedAt) rest) :
      Looped policy runSignal attempt host (retries + 1) number tokens now
        { rest with moves := .opened number (attempt number tokens now) ::
            .retried (attempt number tokens now).endedAt number reason error :: rest.moves }

theorem looped_retryLoop : Looped policy runSignal attempt host retries number tokens now
    (retryLoop policy runSignal attempt host retries number tokens now) := by
  induction retries generalizing number tokens now with
  | zero =>
    unfold retryLoop
    split_ifs with h
    · exact .cancelled h
    · have h : aborted runSignal now = false := by simpa using h
      simp only
      split
      · exact .last h (.inl rfl)
      · exact .last h (.inl rfl)
  | succ retries ih =>
    unfold retryLoop
    split_ifs with h
    · exact .cancelled h
    · have h : aborted runSignal now = false := by simpa using h
      simp only
      split
      · rename_i hresult
        split
        · rename_i hrecorded
          exact .lost h hresult hrecorded
        · rename_i hrecorded
          exact .again h hresult hrecorded ih
      · rename_i hresult
        exact .last h (.inr hresult)

variable {execution : Execution}

theorem Looped.paced (h : Looped policy runSignal attempt host retries number tokens now execution) :
    Paced number execution.moves execution.ending := by
  induction h with
  | cancelled => exact .cancelled _
  | last => exact .last _ _
  | lost => exact .lost _ _ _
  | again _ hresult _ _ ih => exact .again _ hresult ih

theorem Looped.openings_le (h : Looped policy runSignal attempt host retries number tokens now execution) :
    (openings execution.moves).length ≤ retries + 1 := by
  induction h with
  | cancelled => simp [openings]
  | last => simp [openings]
  | lost => simp [openings]
  | again _ _ _ _ ih => exact Nat.succ_le_succ ih

theorem Looped.opened (h : Looped policy runSignal attempt host retries number tokens now execution) {opened : Nat}
    {run : AttemptRun} (hm : .opened opened run ∈ execution.moves) :
    ∃ carried at_, run = attempt opened carried at_ := by
  induction h with
  | cancelled => simp at hm
  | @last _ _ tokens now =>
    simp only [List.mem_singleton, LoopMove.opened.injEq] at hm
    exact ⟨tokens, now, hm.1 ▸ hm.2⟩
  | @lost _ _ tokens now =>
    simp only [List.mem_singleton, LoopMove.opened.injEq] at hm
    exact ⟨tokens, now, hm.1 ▸ hm.2⟩
  | @again _ _ tokens now _ _ _ _ _ _ _ ih =>
    simp only [List.mem_cons, LoopMove.opened.injEq, reduceCtorEq, false_or] at hm
    obtain ⟨rfl, rfl⟩ | hm := hm
    · exact ⟨tokens, now, rfl⟩
    · exact ih hm

theorem Paced.numbered (h : Paced number moves ending) : ∃ count, openings moves = List.range' number count ∧
    ((retryNumbers moves = List.range' number count ∧ ending = .settled (.cancelled none)) ∨
      retryNumbers moves = List.range' number (count - 1)) := by
  induction h with
  | cancelled number => exact ⟨0, rfl, .inl ⟨rfl, rfl⟩⟩
  | last number run => exact ⟨1, rfl, .inr rfl⟩
  | lost number run failure => exact ⟨1, rfl, .inr rfl⟩
  | @again number run reason error rest ending at_ h hrest ih =>
    obtain ⟨count, hopen, hretry⟩ := ih
    refine ⟨count + 1, by simp [openings, hopen, List.range'_succ], ?_⟩
    obtain ⟨hretry, hend⟩ | hretry := hretry
    · exact .inl ⟨by simp [retryNumbers, hretry, List.range'_succ], hend⟩
    · cases count with
      | zero =>
        -- nothing was opened after this retry, so the run was cancelled
        cases hrest with
        | cancelled => exact .inl ⟨rfl, rfl⟩
        | last => simp [openings] at hopen
        | lost => simp [openings] at hopen
        | again => simp [openings] at hopen
      | succ count =>
        refine .inr ?_
        simp only [Nat.add_sub_cancel] at hretry ⊢
        simp [retryNumbers, hretry, List.range'_succ]

theorem Paced.around_attempt (h : Paced number moves ending) {before after : List LoopMove} {opened : Nat}
    {run : AttemptRun} (hm : moves = before ++ .opened opened run :: after) :
    ((opened = number ∧ before = []) ∨
      ∃ at_ reason error prior, before = prior ++ [.retried at_ (opened - 1) reason error]) ∧
    ((after = [] ∧ (ending = run.result.ending ∨ ∃ failure, ending = .thrown failure)) ∨
      ∃ at_ reason error rest, run.result = .retryable reason error ∧
        after = .retried at_ opened reason error :: rest) := by
  induction h generalizing before with
  | cancelled number => simp at hm
  | last number only =>
    cases before with
    | cons head rest => simp at hm
    | nil =>
      rw [List.nil_append, List.cons.injEq] at hm
      obtain ⟨hmove, rfl⟩ := hm
      obtain ⟨rfl, rfl⟩ := LoopMove.opened.inj hmove
      exact ⟨.inl ⟨rfl, rfl⟩, .inl ⟨rfl, .inl rfl⟩⟩
  | lost number only failure =>
    cases before with
    | cons head rest => simp at hm
    | nil =>
      rw [List.nil_append, List.cons.injEq] at hm
      obtain ⟨hmove, rfl⟩ := hm
      obtain ⟨rfl, rfl⟩ := LoopMove.opened.inj hmove
      exact ⟨.inl ⟨rfl, rfl⟩, .inl ⟨rfl, .inr ⟨failure, rfl⟩⟩⟩
  | @again number first reason error rest ending at_ h hrest ih =>
    cases before with
    | nil =>
      rw [List.nil_append, List.cons.injEq] at hm
      obtain ⟨hmove, rfl⟩ := hm
      obtain ⟨rfl, rfl⟩ := LoopMove.opened.inj hmove
      exact ⟨.inl ⟨rfl, rfl⟩, .inr ⟨at_, reason, error, rest, h, rfl⟩⟩
    | cons head before =>
      rw [List.cons_append, List.cons.injEq] at hm
      obtain ⟨rfl, hm⟩ := hm
      cases before with
      | nil => simp at hm
      | cons head before =>
        rw [List.cons_append, List.cons.injEq] at hm
        obtain ⟨rfl, hm⟩ := hm
        obtain ⟨hbefore, hafter⟩ := ih hm
        refine ⟨.inr ?_, hafter⟩
        obtain ⟨rfl, rfl⟩ | ⟨at', reason', error', prior, rfl⟩ := hbefore
        · exact ⟨at_, reason, error, [.opened number first], rfl⟩
        · exact ⟨at', reason', error', .opened number first :: .retried at_ number reason error :: prior, rfl⟩

theorem Paced.around_retry (h : Paced number moves ending) {before after : List LoopMove} {at_ failed : Nat}
    {reason : RetryReason} {error : String} (hm : moves = before ++ .retried at_ failed reason error :: after) :
    (∃ run prior, before = prior ++ [.opened failed run] ∧ run.result = .retryable reason error) ∧
      ((∃ run rest, after = .opened (failed + 1) run :: rest) ∨
        (after = [] ∧ ending = .settled (.cancelled none))) := by
  induction h generalizing before with
  | cancelled number => simp at hm
  | last number only =>
    cases before with
    | nil => simp at hm
    | cons head rest => simp at hm
  | lost number only failure =>
    cases before with
    | nil => simp at hm
    | cons head rest => simp at hm
  | @again number first reason' error' rest ending at' h hrest ih =>
    cases before with
    | nil => simp at hm
    | cons head before =>
      rw [List.cons_append, List.cons.injEq] at hm
      obtain ⟨rfl, hm⟩ := hm
      cases before with
      | nil =>
        rw [List.nil_append, List.cons.injEq] at hm
        obtain ⟨hmove, rfl⟩ := hm
        obtain ⟨rfl, rfl, rfl, rfl⟩ := LoopMove.retried.inj hmove
        refine ⟨⟨first, [], rfl, h⟩, ?_⟩
        cases hrest with
        | cancelled => exact .inr ⟨rfl, rfl⟩
        | last _ run => exact .inl ⟨run, [], rfl⟩
        | lost _ run => exact .inl ⟨run, [], rfl⟩
        | @again _ run _ _ rest => exact .inl ⟨run, _, rfl⟩
      | cons head before =>
        rw [List.cons_append, List.cons.injEq] at hm
        obtain ⟨rfl, hm⟩ := hm
        obtain ⟨⟨run, prior, rfl, hresult⟩, hafter⟩ := ih hm
        exact ⟨⟨run, .opened number first :: .retried at' number reason' error' :: prior, rfl, hresult⟩, hafter⟩

theorem Paced.ending_ok (h : Paced number moves ending) {output : Value} (he : ending = .settled (.ok output)) :
    ∃ opened run, .opened opened run ∈ moves ∧ run.result = .ok output := by
  induction h with
  | cancelled number => simp at he
  | last number run =>
    refine ⟨number, run, by simp, ?_⟩
    cases hr : run.result with
    | ok other => simpa [hr, AttemptResult.ending] using he
    | retryable => simp [hr, AttemptResult.ending] at he
    | fatal => simp [hr, AttemptResult.ending] at he
    | blocked => simp [hr, AttemptResult.ending] at he
    | cancelled => simp [hr, AttemptResult.ending] at he
    | thrown => simp [hr, AttemptResult.ending] at he
  | lost number run failure => simp at he
  | again at_ h hrest ih =>
    obtain ⟨opened, run, hm, hr⟩ := ih he
    exact ⟨opened, run, by simp [hm], hr⟩

section Turns

variable {agent : AgentPolicy} {entry : AgentEntry} {number startingTokens repairs repair total : Nat}
  {resumeKey : Option String} {signal : Option Nat} {seed conversation : Conversation} {turn : Nat → TurnFate}
  {message : Message}

theorem Turned.sent_le {run : SessionRun} (h : Turned agent number resumeKey signal seed turn repairs repair now total
    conversation message run) : run.sent.length ≤ repairs + 1 := by
  induction h with
  | steered hturn hsteered hrest ih => exact Nat.succ_le_succ ih
  | _ => simp

theorem checkAgentTurn_result {agentTurn : AgentTurn} {value : Value}
    (h : checkAgentTurn agent agentTurn = .result value) :
    agent.step.outputSchema.bind (·.violations value) = none := by
  unfold checkAgentTurn at h
  cases hs : agent.step.outputSchema with
  | none => rfl
  | some schema =>
    simp only [hs] at h
    split at h
    · simp at h
    · simp at h
    · split_ifs at h
      split at h
      · simp at h
      · simp at h
    · split at h
      · simp at h
      · rename_i hv
        rw [ReplyCheck.result.injEq] at h
        exact h ▸ hv

theorem judgeReply_ok {agentTurn : AgentTurn} {recordedAt endedAt : Nat} {notes notes' : Notes} {value : Value}
    (h : judgeReply agent agentTurn conversation recordedAt notes total = .ended endedAt (.ok value) notes') :
    agent.step.outputSchema.bind (·.violations value) = none := by
  unfold judgeReply at h
  split at h
  · simp at h
  · split at h
    · rename_i hcheck
      simp only [TurnStep.ended.injEq, AttemptResult.ok.injEq] at h
      exact h.2.1 ▸ checkAgentTurn_result hcheck
    · simp at h
    · simp at h

theorem settleTurn_ok {fate : TurnFate} {sentAt endedAt : Nat} {notes : Notes} {value : Value}
    (h : settleTurn agent number resumeKey signal fate conversation sentAt total = .ended endedAt (.ok value) notes) :
    agent.step.outputSchema.bind (·.violations value) = none := by
  unfold settleTurn at h
  simp only at h
  split at h
  · split_ifs at h
    · simp at h
    · simp at h
  · split_ifs at h
    · simp at h
    · simp at h
    · split at h
      · unfold recordError at h
        simp only at h
        split at h
        · simp at h
        · split_ifs at h
          · simp at h
          · simp at h
      · split at h
        · exact judgeReply_ok h
        · split at h
          · simp at h
          · exact judgeReply_ok h

theorem Turned.result_ok {run : SessionRun} {value : Value} (h : Turned agent number resumeKey signal seed turn repairs
    repair now total conversation message run) (hr : run.result = .ok value) :
    agent.step.outputSchema.bind (·.violations value) = none := by
  induction h with
  | ended hturn =>
    cases hr
    exact settleTurn_ok hturn
  | steered hturn hsteered hrest ih => exact ih hr
  | _ => cases hr

theorem sent_runAgentSession_le {fate : SessionFate} :
    (runAgentSession agent entry number startingTokens signal fate now).sent.length ≤ maxRepairs agent + 1 := by
  refine runAgentSession_cases (P := fun run => run.sent.length ≤ maxRepairs agent + 1) ?_ ?_ ?_
  · simp
  · simp
  · intro resumeKey message
    exact turned_runTurns.sent_le

theorem runAgentSession_ok {fate : SessionFate} {value : Value}
    (h : (runAgentSession agent entry number startingTokens signal fate now).result = .ok value) :
    agent.step.outputSchema.bind (·.violations value) = none := by
  revert h
  refine runAgentSession_cases (P := fun run => run.result = .ok value →
    agent.step.outputSchema.bind (·.violations value) = none) ?_ ?_ ?_
  · simp
  · simp
  · intro resumeKey message
    exact turned_runTurns.result_ok

theorem runFunctionAttempt_ok {work : FunctionPolicy} {fate : FunctionFate} {value : Value}
    (h : (runFunctionAttempt work signal fate now).result = .ok value) :
    work.step.outputSchema.bind (·.violations value) = none := by
  change functionResult work signal fate (now + fate.takes) = .ok value at h
  unfold functionResult at h
  split at h
  · split_ifs at h
  · split at h
    · split_ifs at h
    · rename_i hv
      exact AttemptResult.ok.inj h ▸ hv

theorem withElapsed_ok {result : AttemptResult} {elapsedMs : Nat} {value : Value}
    (h : result.withElapsed elapsedMs = .ok value) : result = .ok value := by
  cases result with
  | blocked => simp [AttemptResult.withElapsed] at h
  | ok => exact h
  | retryable => exact h
  | fatal => exact h
  | cancelled => exact h
  | thrown => exact h

theorem session_withTimeBudget {name : String} {budgetMs : Option Int} {attempt : Option Nat → SessionRun}
    {consumedMs lateness : Nat} {session : SessionRun}
    (h : (withTimeBudget name budgetMs runSignal attempt consumedMs startingTokens lateness now).session =
      some session) : ∃ signal, session = attempt signal := by
  unfold withTimeBudget at h
  split at h
  · exact ⟨runSignal, (Option.some.inj h).symm⟩
  · split_ifs at h
    · simp only at h
      split_ifs at h
      · exact ⟨_, (Option.some.inj h).symm⟩
      · exact ⟨_, (Option.some.inj h).symm⟩

theorem withTimeBudget_ok {name : String} {budgetMs : Option Int} {attempt : Option Nat → SessionRun}
    {consumedMs lateness : Nat} {value : Value}
    (h : (withTimeBudget name budgetMs runSignal attempt consumedMs startingTokens lateness now).result = .ok value) :
    ∃ signal, (attempt signal).result = .ok value := by
  unfold withTimeBudget at h
  split at h
  · exact ⟨runSignal, h⟩
  · split_ifs at h
    simp only at h
    split_ifs at h
    exact ⟨_, withElapsed_ok h⟩

end Turns

/-- What an execution leaves in the log at its end: one event, or an outcome that ends the run. -/
inductive SettlesWith (path : NodePath) (isOptional : Bool) : ExecutionEnd → Option RunEvent → Prop where
  | completed (output : Value) : SettlesWith path isOptional (.settled (.ok output)) (some (.stepCompleted path output))
  | failed (error : String) (h : isOptional = true) :
      SettlesWith path isOptional (.settled (.crashed error)) (some (.stepFailed path error))
  | asked (questionnaire : Questionnaire) (conversation : Conversation) (violation : Option String)
      (elapsedMs tokensUsed : Option Nat) : SettlesWith path isOptional
      (.settled (.blocked questionnaire conversation violation elapsedMs tokensUsed))
      (some (.questionnaireAsked path questionnaire conversation violation elapsedMs tokensUsed))
  | crashed (error : String) (h : isOptional = false) : SettlesWith path isOptional (.settled (.crashed error)) none
  | cancelled (source : Option CancelSource) : SettlesWith path isOptional (.settled (.cancelled source)) none
  | thrown (error : String) : SettlesWith path isOptional (.thrown error) none

/-- The books of one execution: its attempts, the retries between them, their turns and its one settlement. -/
structure Accounted (policy : Option RetryPolicy) (schema : Option Schema) (turnLimit : Nat)
    (execution : Execution) : Prop where
  attempts : (openings execution.moves).length ≤ maxRetries policy + 1
  numbered : ∃ count, openings execution.moves = List.range' 1 count ∧
    ((retryNumbers execution.moves = List.range' 1 count ∧ execution.ending = .settled (.cancelled none)) ∨
      retryNumbers execution.moves = List.range' 1 (count - 1))
  turns : ∀ number run session, .opened number run ∈ execution.moves → run.session = some session →
    session.sent.length ≤ turnLimit
  beforeAttempt : ∀ before number run after, execution.moves = before ++ .opened number run :: after →
    (number = 1 ∧ before = []) ∨
      ∃ at_ reason error prior, before = prior ++ [.retried at_ (number - 1) reason error]
  afterAttempt : ∀ before number run after, execution.moves = before ++ .opened number run :: after →
    (after = [] ∧ (execution.ending = run.result.ending ∨ ∃ failure, execution.ending = .thrown failure)) ∨
      ∃ at_ reason error rest, run.result = .retryable reason error ∧
        after = .retried at_ number reason error :: rest
  afterRetry : ∀ before at_ number reason error after,
    execution.moves = before ++ .retried at_ number reason error :: after →
      (∃ run rest, after = .opened (number + 1) run :: rest) ∨
        (after = [] ∧ execution.ending = .settled (.cancelled none))
  output : ∀ value, execution.ending = .settled (.ok value) → schema.bind (·.violations value) = none
  settled : ∀ path isOptional,
    (execution.events path isOptional).filter settles = (execution.settled path isOptional).toList ∧
      SettlesWith path isOptional execution.ending (execution.settled path isOptional)

theorem settlesWith (execution : Execution) (path : NodePath) (isOptional : Bool) :
    SettlesWith path isOptional execution.ending (execution.settled path isOptional) := by
  unfold Execution.settled
  cases execution.ending with
  | thrown error => exact .thrown error
  | settled outcome =>
    cases outcome with
    | ok output => exact .completed output
    | blocked questionnaire conversation violation elapsedMs tokensUsed => exact .asked _ _ _ _ _
    | cancelled source => exact .cancelled source
    | crashed error =>
      cases isOptional with
      | true => exact .failed error rfl
      | false => exact .crashed error rfl

theorem finishStep_eq_settlement (path : NodePath) (isOptional : Bool) (outcome : StepOutcome) :
    finishStep path isOptional outcome =
      (settlement path isOptional outcome).1.elim (conclude (settlement path isOptional outcome).2)
        (fun event => emit event (conclude (settlement path isOptional outcome).2)) := by
  cases outcome with
  | ok output => rfl
  | blocked questionnaire conversation violation elapsedMs tokensUsed => rfl
  | cancelled source => rfl
  | crashed error =>
    cases isOptional with
    | true => rfl
    | false => rfl

theorem settles_note (note : StepNote) (path : NodePath) : settles (note.event path) = false := by
  cases note with
  | log => rfl
  | retry => rfl
  | steer => rfl
  | agentError => rfl
  | usage => rfl

theorem settles_events (execution : Execution) (path : NodePath) (isOptional : Bool) :
    (execution.events path isOptional).filter settles = (execution.settled path isOptional).toList := by
  have hnotes : (execution.notes.map (fun note => note.2.event path)).filter settles = [] := by
    rw [List.filter_eq_nil_iff]
    intro event hm
    obtain ⟨note, -, rfl⟩ := List.mem_map.mp hm
    simp [settles_note]
  rw [Execution.events, List.filter_append, hnotes, List.nil_append]
  have hsettles := settlesWith execution path isOptional
  generalize execution.settled path isOptional = event at hsettles ⊢
  generalize execution.ending = ending at hsettles
  cases hsettles with
  | completed => simp [settles]
  | failed => simp [settles]
  | asked => simp [settles]
  | crashed => rfl
  | cancelled => rfl
  | thrown => rfl

theorem accounted_of_paced {schema : Option Schema} {turnLimit : Nat} {execution : Execution}
    (h : Paced 1 execution.moves execution.ending)
    (hattempts : (openings execution.moves).length ≤ maxRetries policy + 1)
    (hsessions : ∀ number run, .opened number run ∈ execution.moves →
      (∀ session, run.session = some session → session.sent.length ≤ turnLimit) ∧
        ∀ value, run.result = .ok value → schema.bind (·.violations value) = none) :
    Accounted policy schema turnLimit execution where
  attempts := hattempts
  numbered := h.numbered
  turns number run session hm := (hsessions number run hm).1 session
  beforeAttempt before number run after hm := (h.around_attempt hm).1
  afterAttempt before number run after hm := (h.around_attempt hm).2
  afterRetry before at_ number reason error after hm := (h.around_retry hm).2
  output value he := by
    obtain ⟨number, run, hm, hresult⟩ := h.ending_ok he
    exact (hsessions number run hm).2 value hresult
  settled path isOptional := ⟨settles_events execution path isOptional, settlesWith execution path isOptional⟩

theorem accounted_without_attempts {schema : Option Schema} {turnLimit : Nat} (error : String) (now : Nat) :
    Accounted policy schema turnLimit { ending := .settled (.crashed error), endedAt := now } where
  attempts := by simp [openings]
  numbered := ⟨0, rfl, .inr rfl⟩
  turns number run session hm := by simp at hm
  beforeAttempt before number run after hm := by simp at hm
  afterAttempt before number run after hm := by simp at hm
  afterRetry before at_ number reason error after hm := by simp at hm
  output value he := by simp at he
  settled path isOptional := ⟨settles_events _ path isOptional, settlesWith _ path isOptional⟩

theorem accounted_retryLoop {schema : Option Schema} {turnLimit : Nat}
    (hattempt : ∀ number tokens now, (∀ session, (attempt number tokens now).session = some session →
        session.sent.length ≤ turnLimit) ∧
      ∀ value, (attempt number tokens now).result = .ok value → schema.bind (·.violations value) = none) :
    Accounted policy schema turnLimit
      (retryLoop policy runSignal attempt host (maxRetries policy) 1 tokens now) := by
  refine accounted_of_paced looped_retryLoop.paced looped_retryLoop.openings_le ?_
  intro number run hm
  obtain ⟨carried, at_, rfl⟩ := looped_retryLoop.opened hm
  exact hattempt number carried at_

theorem maxRepairs_of_acting {policy : AgentPolicy} (h : policy.step.outputSchema = none) : maxRepairs policy = 0 := by
  simp [maxRepairs, h]

/-- Every execution of an agent or function step keeps its books, whatever the host does. -/
theorem executions_accounted :
    (∀ policy : AgentPolicy, policy.step.outputSchema = none → maxRepairs policy = 0) ∧
    (∀ policy budget host entry now, Accounted policy.retry policy.step.outputSchema (maxRepairs policy + 1)
      (runAgentStep policy budget host entry now)) ∧
    ∀ policy budget host now, Accounted policy.retry policy.step.outputSchema 0
      (runFunctionStep policy budget host now) := by
  refine ⟨fun policy h => maxRepairs_of_acting h, ?_, ?_⟩
  · intro policy budget host entry now
    cases budget with
    | error error => exact accounted_without_attempts error now
    | ok budgetMs =>
      refine accounted_retryLoop ?_
      intro number tokens now
      constructor
      · intro session hs
        obtain ⟨signal, rfl⟩ := session_withTimeBudget hs
        exact sent_runAgentSession_le
      · intro value hv
        obtain ⟨signal, hv⟩ := withTimeBudget_ok hv
        exact runAgentSession_ok hv
  · intro policy budget host now
    cases budget with
    | error error => exact accounted_without_attempts error now
    | ok budgetMs =>
      refine accounted_retryLoop ?_
      intro number tokens now
      constructor
      · intro session hs
        obtain ⟨signal, rfl⟩ := session_withTimeBudget hs
        exact Nat.zero_le 0
      · intro value hv
        obtain ⟨signal, hv⟩ := withTimeBudget_ok hv
        exact runFunctionAttempt_ok hv

end KimchiWorkflows.Engine.StepRunner
