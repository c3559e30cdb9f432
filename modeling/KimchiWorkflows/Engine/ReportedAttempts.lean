import KimchiWorkflows.Engine.ChainTotals
import KimchiWorkflows.Engine.SessionTurns

namespace KimchiWorkflows.Engine.StepRunner

open KimchiWorkflows.Flow KimchiWorkflows.Engine

def reportedOf : StepNote → Option Nat
  | .retry number _ _ => some number
  | .agentError attempt _ _ _ _ => some attempt
  | _ => none

def reported (moves : List LoopMove) : List Nat :=
  (moves.flatMap LoopMove.notes).filterMap (fun note => reportedOf note.2)

def AttemptRun.fails (run : AttemptRun) : Bool :=
  match run.result with
  | .retryable _ _ => true
  | _ => false

def failures (moves : List LoopMove) : Nat := (moves.filterMap LoopMove.openedRun).countP AttemptRun.fails

theorem fails_iff {run : AttemptRun} :
    run.fails = true ↔ ∃ reason error, run.result = .retryable reason error := by
  unfold AttemptRun.fails
  split
  · rename_i hresult
    simp [hresult]
  · rename_i hresult
    simpa using hresult

section Session

variable {policy : AgentPolicy} {entry : AgentEntry} {attempt repairs repair now total : Nat}
  {resumeKey : Option String} {signal : Option Nat} {seed conversation : Conversation} {turn : Nat → TurnFate}
  {message : Message} {run : SessionRun}

def Asks (result : AttemptResult) : Prop :=
  ∃ questionnaire conversation elapsedMs tokensUsed,
    result = .blocked questionnaire conversation elapsedMs tokensUsed

/-- What a turn reports is its own attempt, which then does not end with a question. -/
def Reports (attempt : Nat) (result : AttemptResult) (notes : Notes) : Prop :=
  ∀ note ∈ notes, ∀ number, reportedOf note.2 = some number → number = attempt ∧ ¬Asks result

theorem reports_of_silent {result : AttemptResult} {notes : Notes} (h : ∀ note ∈ notes, reportedOf note.2 = none) :
    Reports attempt result notes := by
  intro note hm number hn
  rw [h note hm] at hn
  simp at hn

def ReportsStep (attempt : Nat) : TurnStep → Prop
  | .ended _ result notes => Reports attempt result notes
  | .violated _ notes _ _ _ => ∀ note ∈ notes, reportedOf note.2 = none

theorem reportsStep_judgeReply {agentTurn : AgentTurn} {recordedAt : Nat} {notes : Notes}
    (h : ∀ note ∈ notes, reportedOf note.2 = none) :
    ReportsStep attempt (judgeReply policy agentTurn conversation recordedAt notes total) := by
  unfold judgeReply
  split
  · exact reports_of_silent h
  · split
    · exact reports_of_silent h
    · exact reports_of_silent h
    · exact h

theorem reportsStep_settleTurn {fate : TurnFate} {sentAt : Nat} {step : TurnStep}
    (h : settleTurn policy attempt resumeKey signal fate conversation sentAt total = step) :
    ReportsStep attempt step := by
  subst h
  unfold settleTurn
  simp only
  split
  · split_ifs
    · exact reports_of_silent (by simp)
    · exact reports_of_silent (by simp)
  · split_ifs
    · exact reports_of_silent (by simp)
    · exact reports_of_silent (by simp)
    · split
      · unfold recordError
        simp only
        split
        · exact reports_of_silent (by simp)
        · intro note hm number hn
          rw [List.mem_singleton] at hm
          rw [hm, reportedOf, Option.some_inj] at hn
          refine ⟨hn.symm, ?_⟩
          rintro ⟨_, _, _, _, hresult⟩
          split_ifs at hresult
      · split
        · exact reportsStep_judgeReply (by simp)
        · split
          · exact reports_of_silent (by simp)
          · exact reportsStep_judgeReply (by simp [reportedOf])

theorem Turned.reports (h : Turned policy attempt resumeKey signal seed turn repairs repair now total conversation
    message run) : Reports attempt run.result run.notes := by
  induction h with
  | aborted => exact reports_of_silent (by simp)
  | ended hturn => exact reportsStep_settleTurn hturn
  | failed hturn => exact reports_of_silent (reportsStep_settleTurn hturn)
  | unsteered hturn => exact reports_of_silent (reportsStep_settleTurn hturn)
  | steered hturn _ _ ih =>
    intro note hm number hn
    obtain hm | hm := List.mem_append.mp hm
    · rw [reportsStep_settleTurn hturn note hm] at hn
      simp at hn
    · obtain rfl | hm := List.mem_cons.mp hm
      · simp [reportedOf] at hn
      · exact ih note hm number hn

theorem reports_runAgentSession {startingTokens : Nat} {fate : SessionFate} :
    Reports attempt (runAgentSession policy entry attempt startingTokens signal fate now).result
      (runAgentSession policy entry attempt startingTokens signal fate now).notes := by
  refine runAgentSession_cases (P := fun run => Reports attempt run.result run.notes) ?_ ?_ ?_
  · exact fun error => reports_of_silent (by simp)
  · exact fun error => reports_of_silent (by simp)
  · exact fun resumeKey message => turned_runTurns.reports

theorem session_asks {name : String} {budgetMs : Option Int} {runSignal : Option Nat}
    {session : Option Nat → SessionRun} {consumedMs startingTokens lateness : Nat} {run : AttemptRun}
    (h : withTimeBudget name budgetMs runSignal session consumedMs startingTokens lateness now = run)
    (hasks : Asks run.result) : ∃ session, run.session = some session ∧ Asks session.result := by
  obtain ⟨questionnaire, conversation, elapsedMs, tokensUsed, hresult⟩ := hasks
  subst h
  unfold withTimeBudget at hresult ⊢
  split at hresult
  · exact ⟨_, rfl, questionnaire, conversation, elapsedMs, tokensUsed, hresult⟩
  · simp only at hresult ⊢
    split_ifs at hresult ⊢
    obtain ⟨before, hresult, -⟩ := withElapsed_blocked hresult
    exact ⟨_, rfl, questionnaire, conversation, before, tokensUsed, hresult⟩

theorem reports_agentAttempt {budgetMs : Option Int} {host : AgentHost} {tokens at_ : Nat} {run : AttemptRun}
    (h : agentAttempt policy entry budgetMs host attempt tokens at_ = run) {session : SessionRun}
    (hs : run.session = some session) : Reports attempt run.result session.notes := by
  have hsession := hs
  rw [← h] at hsession
  obtain ⟨signal, rfl⟩ := session_withTimeBudget hsession
  intro note hm number hn
  obtain ⟨hnumber, hasks⟩ := reports_runAgentSession note hm number hn
  refine ⟨hnumber, ?_⟩
  intro hresult
  obtain ⟨session, hs', hasks'⟩ := session_asks h hresult
  rw [hs, Option.some_inj] at hs'
  exact hasks (hs' ▸ hasks')

end Session

section Loop

variable {retryPolicy : Option RetryPolicy} {runSignal : Option Nat} {attempt : Nat → Nat → Nat → AttemptRun}
  {host : Nat → RetryFate} {number opened retries tokens now limit : Nat} {execution : Execution} {run : AttemptRun}
  {front back : List LoopMove}

@[simp] theorem failures_nil : failures [] = 0 := rfl

@[simp] theorem failures_opened (moves : List LoopMove) :
    failures (.opened number run :: moves) = (if run.fails then 1 else 0) + failures moves := by
  simp [failures, LoopMove.openedRun, List.countP_cons, Nat.add_comm]

@[simp] theorem failures_retried {at_ : Nat} {reason : RetryReason} {error : String} (moves : List LoopMove) :
    failures (.retried at_ number reason error :: moves) = failures moves := rfl

theorem Looped.split (h : Looped retryPolicy runSignal attempt host retries number tokens now execution)
    (hsplit : execution.moves = front ++ .opened opened run :: back) (hfails : run.fails = true) :
    (openings front).length + number = opened ∧ failures front = (openings front).length ∧
      opened ≤ number + retries ∧
      ((back = [] ∧ ∃ error, execution.ending = .settled (.crashed error)) ↔ opened = number + retries) := by
  induction h generalizing front with
  | cancelled => simp at hsplit
  | @last retries number tokens now h hend =>
    cases front with
    | cons => simp at hsplit
    | nil =>
      simp only [List.nil_append, List.cons.injEq, LoopMove.opened.injEq] at hsplit
      obtain ⟨⟨rfl, rfl⟩, rfl⟩ := hsplit
      obtain ⟨reason, error, hresult⟩ := fails_iff.mp hfails
      obtain rfl | hnot := hend
      · refine ⟨by simp [openings], rfl, Nat.le_refl _, iff_of_true ⟨rfl, error, ?_⟩ rfl⟩
        simp only
        rw [hresult]
        rfl
      · exact absurd hresult (hnot reason error)
  | @lost retries number tokens now reason error failure h hresult hrecorded =>
    cases front with
    | cons => simp at hsplit
    | nil =>
      simp only [List.nil_append, List.cons.injEq, LoopMove.opened.injEq] at hsplit
      obtain ⟨⟨rfl, rfl⟩, rfl⟩ := hsplit
      exact ⟨by simp [openings], rfl, by omega, iff_of_false (by simp) (by omega)⟩
  | @again retries number tokens now reason error rest h hresult hrecorded hrest ih =>
    cases front with
    | nil =>
      simp only [List.nil_append, List.cons.injEq, LoopMove.opened.injEq] at hsplit
      obtain ⟨⟨rfl, rfl⟩, rfl⟩ := hsplit
      exact ⟨by simp [openings], rfl, by omega, iff_of_false (by simp) (by omega)⟩
    | cons head front =>
      rw [List.cons_append, List.cons.injEq] at hsplit
      obtain ⟨rfl, hsplit⟩ := hsplit
      cases front with
      | nil => simp at hsplit
      | cons head front =>
        rw [List.cons_append, List.cons.injEq] at hsplit
        obtain ⟨rfl, hsplit⟩ := hsplit
        obtain ⟨hnumber, hfailures, hle, hlast⟩ := ih hsplit
        have hfirst := fails_iff.mpr ⟨_, _, hresult⟩
        refine ⟨?_, ?_, by omega, ?_⟩
        · simp only [openings, List.length_cons]
          omega
        · simp only [openings, failures_opened, failures_retried, hfirst, if_true, List.length_cons]
          omega
        · rw [hlast]
          omega

theorem Looped.openings_le_failures
    (h : Looped retryPolicy runSignal attempt host retries number tokens now execution) :
    (openings execution.moves).length ≤ failures execution.moves + 1 := by
  induction h with
  | cancelled => exact Nat.zero_le _
  | last => exact Nat.succ_le_succ (Nat.zero_le _)
  | lost => exact Nat.succ_le_succ (Nat.zero_le _)
  | again h hresult _ _ ih =>
    have hfails := fails_iff.mpr ⟨_, _, hresult⟩
    simp only [openings, failures_opened, failures_retried, hfails, if_true, List.length_cons] at ih ⊢
    omega

theorem Looped.openings_of_blocked
    (h : Looped retryPolicy runSignal attempt host retries number tokens now execution)
    {questionnaire : Questionnaire} {conversation : Conversation} {violation : Option String}
    {elapsedMs tokensUsed : Option Nat}
    (hblocked : execution.ending = .settled (.blocked questionnaire conversation violation elapsedMs tokensUsed)) :
    (openings execution.moves).length = failures execution.moves + 1 := by
  induction h with
  | cancelled => simp at hblocked
  | lost => simp at hblocked
  | last =>
    have hresult := ending_eq_blocked hblocked
    simp [openings, AttemptRun.fails, hresult]
  | again _ hresult _ _ ih =>
    have hfirst := fails_iff.mpr ⟨_, _, hresult⟩
    have := ih hblocked
    simp only [openings, failures_opened, failures_retried, hfirst, if_true, List.length_cons]
    omega

theorem Looped.failed_at (h : Looped retryPolicy runSignal attempt host retries number tokens now execution)
    {k : Nat} (hk : k < failures execution.moves) :
    ∃ front run back, execution.moves = front ++ .opened (number + k) run :: back ∧ run.fails = true := by
  induction h generalizing k with
  | cancelled => simp at hk
  | last =>
    simp only [failures_opened, failures_nil] at hk
    split_ifs at hk with hfails
    · obtain rfl : k = 0 := by omega
      exact ⟨[], _, [], rfl, hfails⟩
    · omega
  | lost =>
    simp only [failures_opened, failures_nil] at hk
    split_ifs at hk with hfails
    · obtain rfl : k = 0 := by omega
      exact ⟨[], _, [], rfl, hfails⟩
    · omega
  | @again retries number tokens now reason error rest h hresult hrecorded hrest ih =>
    have hfirst := fails_iff.mpr ⟨_, _, hresult⟩
    simp only [failures_opened, failures_retried, hfirst, if_true] at hk
    cases k with
    | zero => exact ⟨[], _, _, rfl, hfirst⟩
    | succ k =>
      obtain ⟨front, run, back, hmoves, hfails⟩ := ih (k := k) (by omega)
      refine ⟨.opened number (attempt number tokens now) ::
        .retried (attempt number tokens now).endedAt number reason error :: front, run, back, ?_, hfails⟩
      rw [show number + (k + 1) = number + 1 + k by omega]
      simp [hmoves]

def sessionReports (run : AttemptRun) : List Nat :=
  ((run.session.map SessionRun.notes).getD []).filterMap (fun note => reportedOf note.2)

@[simp] theorem reported_nil : reported [] = [] := rfl

@[simp] theorem reported_opened (moves : List LoopMove) :
    reported (.opened number run :: moves) = sessionReports run ++ reported moves := by
  simp [reported, LoopMove.notes, sessionReports]

@[simp] theorem reported_retried {at_ : Nat} {reason : RetryReason} {error : String} (moves : List LoopMove) :
    reported (.retried at_ number reason error :: moves) = number :: reported moves := by
  simp [reported, LoopMove.notes, reportedOf]

/-- An attempt reports only its own number, and nothing if it asks. -/
def ReportsItself (attempt : Nat → Nat → Nat → AttemptRun) : Prop :=
  ∀ number tokens now reportedNumber, reportedNumber ∈ sessionReports (attempt number tokens now) →
    reportedNumber = number ∧ ¬Asks (attempt number tokens now).result

theorem Looped.reported_sorted (h : Looped retryPolicy runSignal attempt host retries number tokens now execution)
    (hself : ReportsItself attempt) :
    (reported execution.moves).Pairwise (· ≤ ·) ∧ ∀ other ∈ reported execution.moves, number ≤ other := by
  induction h with
  | cancelled => simp
  | @last retries number tokens now =>
    have hall : ∀ other ∈ sessionReports (attempt number tokens now), other = number :=
      fun other hm => (hself number tokens now other hm).1
    simp only [reported_opened, reported_nil, List.append_nil]
    refine ⟨List.pairwise_of_forall_mem_list ?_, fun other hm => (hall other hm).ge⟩
    intro one hone other hother
    rw [hall one hone, hall other hother]
  | @lost retries number tokens now =>
    have hall : ∀ other ∈ sessionReports (attempt number tokens now), other = number :=
      fun other hm => (hself number tokens now other hm).1
    simp only [reported_opened, reported_nil, List.append_nil]
    refine ⟨List.pairwise_of_forall_mem_list ?_, fun other hm => (hall other hm).ge⟩
    intro one hone other hother
    rw [hall one hone, hall other hother]
  | @again retries number tokens now reason error rest h hresult hrecorded hrest ih =>
    have hall : ∀ other ∈ sessionReports (attempt number tokens now), other = number :=
      fun other hm => (hself number tokens now other hm).1
    obtain ⟨hsorted, hge⟩ := ih
    simp only [reported_opened, reported_retried, List.pairwise_append, List.pairwise_cons, List.mem_append,
      List.mem_cons]
    refine ⟨⟨List.pairwise_of_forall_mem_list ?_, ⟨?_, hsorted⟩, ?_⟩, ?_⟩
    · intro one hone other hother
      rw [hall one hone, hall other hother]
    · intro other hm
      have := hge other hm
      omega
    · rintro one hone other (rfl | hm)
      · exact (hall one hone).le
      · have := hall one hone
        have := hge other hm
        omega
    · rintro other (hm | rfl | hm)
      · exact (hall other hm).ge
      · exact Nat.le_refl _
      · have := hge other hm
        omega

theorem Looped.mem_reported (h : Looped retryPolicy runSignal attempt host retries number tokens now execution)
    (hself : ReportsItself attempt) {questionnaire : Questionnaire} {conversation : Conversation}
    {violation : Option String} {elapsedMs tokensUsed : Option Nat}
    (hblocked : execution.ending = .settled (.blocked questionnaire conversation violation elapsedMs tokensUsed))
    (other : Nat) :
    other ∈ reported execution.moves ↔ number ≤ other ∧ other < number + failures execution.moves := by
  induction h with
  | cancelled => simp at hblocked
  | lost => simp at hblocked
  | @last retries number tokens now =>
    have hresult := ending_eq_blocked hblocked
    have hsilent : sessionReports (attempt number tokens now) = [] := by
      rw [List.eq_nil_iff_forall_not_mem]
      intro other hm
      exact (hself number tokens now other hm).2 ⟨_, _, _, _, hresult⟩
    have hfails : (attempt number tokens now).fails = false := by simp [AttemptRun.fails, hresult]
    simp only [reported_opened, hsilent, reported_nil, failures_opened, hfails, failures_nil]
    simp
  | @again retries number tokens now reason error rest h hresult hrecorded hrest ih =>
    have hfirst := fails_iff.mpr ⟨_, _, hresult⟩
    have hall : ∀ other ∈ sessionReports (attempt number tokens now), other = number :=
      fun other hm => (hself number tokens now other hm).1
    simp only [reported_opened, reported_retried, List.mem_append, List.mem_cons, failures_opened, failures_retried,
      hfirst, if_true, ih hblocked]
    constructor
    · rintro (hm | rfl | ⟨hle, hlt⟩)
      · have := hall other hm
        omega
      · omega
      · omega
    · rintro ⟨hle, hlt⟩
      by_cases heq : other = number
      · exact .inr (.inl heq)
      · exact .inr (.inr (by omega))

/-- The first attempt of an execution fails, or its session ends in an error, and that is recorded. -/
def FirstReports (retries number : Nat) (host : Nat → RetryFate) (moves : List LoopMove) : Prop :=
  ∃ run, .opened number run ∈ moves ∧
    ((run.fails = true ∧ 0 < retries ∧ (host number).recorded = .ok ()) ∨ sessionReports run ≠ [])

theorem Looped.reported_iff (h : Looped retryPolicy runSignal attempt host retries number tokens now execution)
    (hself : ReportsItself attempt) :
    (reported execution.moves ≠ [] → FirstReports retries number host execution.moves) ∧
      (FirstReports retries number host execution.moves → number ∈ reported execution.moves) := by
  have hown : ∀ {number tokens now}, sessionReports (attempt number tokens now) ≠ [] →
      number ∈ sessionReports (attempt number tokens now) := by
    intro number tokens now hne
    obtain ⟨other, hm⟩ := List.exists_mem_of_ne_nil _ hne
    rwa [(hself number tokens now other hm).1] at hm
  constructor
  · intro hne
    cases h with
    | cancelled => simp at hne
    | last =>
      simp only [reported_opened, reported_nil, List.append_nil] at hne
      exact ⟨_, by simp, .inr hne⟩
    | lost =>
      simp only [reported_opened, reported_nil, List.append_nil] at hne
      exact ⟨_, by simp, .inr hne⟩
    | again h hresult hrecorded =>
      exact ⟨_, by simp, .inl ⟨fails_iff.mpr ⟨_, _, hresult⟩, Nat.succ_pos _, hrecorded⟩⟩
  · rintro ⟨run, hm, hfirst⟩
    obtain rfl := h.eq_first hm
    cases h with
    | cancelled => simp at hm
    | last h hend =>
      obtain ⟨hfails, hpos, -⟩ | hne := hfirst
      · obtain ⟨reason, error, hresult⟩ := fails_iff.mp hfails
        obtain rfl | hnot := hend
        · omega
        · exact absurd hresult (hnot reason error)
      · simpa using hown hne
    | lost h hresult hrecorded =>
      obtain ⟨-, -, hok⟩ | hne := hfirst
      · rw [hok] at hrecorded
        simp at hrecorded
      · simpa using hown hne
    | again => simp

end Loop

end KimchiWorkflows.Engine.StepRunner
