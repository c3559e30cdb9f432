import KimchiWorkflows.Engine.RetryLoop
import KimchiWorkflows.Host.AgentAttempts
import Mathlib.Data.List.Chain

/-!
An attempt that timed out in a turn, against the attempt that comes after it, and the attempts of a sequence
against the engine's execution of a step.
-/

namespace KimchiWorkflows.Host

open KimchiWorkflows.Flow KimchiWorkflows.Engine

variable {step : BudgetedStep} {fate : AttemptFate} {index consumedMs now repairs turn : Nat} {deadline : Option Nat}
  {bridge : Bridge} {host : Nat → AttemptFate}

def holderFor (step : BudgetedStep) (bridge : Bridge) (now : Nat) : Option Holder :=
  step.seat.bind (fun seat => bridge.holder seat now)

/-- The bridge after an attempt that left a turn behind, or none. -/
def leaveTurn (step : BudgetedStep) (index : Nat) (ended : AttemptEnd) (bridge : Bridge) : Bridge :=
  match ended.left, step.seat with
  | some lag, some seat => Dict.set bridge seat { attempt := index, settlesAt := ended.endedAt + lag }
  | _, _ => bridge

theorem holderFor_none_mono {later : Nat} (h : holderFor step bridge now = none) (hle : now ≤ later) :
    holderFor step bridge later = none := by
  unfold holderFor at h ⊢
  cases hs : step.seat with
  | none => rfl
  | some seat =>
    rw [hs, Option.bind_some, Bridge.holder, Option.filter_eq_none_iff] at h
    rw [Option.bind_some, Bridge.holder, Option.filter_eq_none_iff]
    intro holder hh
    have hnot := h holder hh
    simp only [decide_eq_true_eq, not_lt] at hnot ⊢
    omega

/-- Only the first turn of an attempt can be refused, and by a turn that is still in flight then. -/
theorem refusedBy_runAgentSession :
    (runAgentSession step fate index deadline repairs turn now bridge).1.refusedBy =
      (holderFor step bridge now).map Holder.attempt := by
  induction repairs generalizing turn now with
  | zero =>
    unfold runAgentSession
    cases hh : holderFor step bridge now with
    | some holder =>
      rw [holderFor] at hh
      simp only [hh]
      rfl
    | none =>
      rw [holderFor] at hh
      simp only [hh]
      split
      · rfl
      · split <;> rfl
  | succ repairs ih =>
    unfold runAgentSession
    cases hh : holderFor step bridge now with
    | some holder =>
      rw [holderFor] at hh
      simp only [hh]
      rfl
    | none =>
      have hlater : ∀ later, now ≤ later → holderFor step bridge later = none :=
        fun later hle => holderFor_none_mono hh hle
      rw [holderFor] at hh
      simp only [hh]
      split
      · rfl
      · split
        · rfl
        · split
          · rw [ih, hlater _ (by omega)]
          · rfl

theorem bridge_runAgentSession :
    (runAgentSession step fate index deadline repairs turn now bridge).2 =
      leaveTurn step index (runAgentSession step fate index deadline repairs turn now bridge).1 bridge := by
  induction repairs generalizing turn now with
  | zero =>
    unfold runAgentSession
    split
    · rfl
    · dsimp only
      split
      · cases hs : step.seat <;> simp [leaveTurn, hs]
      · split <;> rfl
  | succ repairs ih =>
    unfold runAgentSession
    split
    · rfl
    · dsimp only
      split
      · cases hs : step.seat <;> simp [leaveTurn, hs]
      · split
        · rfl
        · split
          · exact ih
          · rfl

theorem sent_runAgentSession :
    (runAgentSession step fate index deadline repairs turn now bridge).1.sent = true := by
  induction repairs generalizing turn now with
  | zero =>
    unfold runAgentSession
    split
    · rfl
    · dsimp only
      split
      · rfl
      · split <;> rfl
  | succ repairs ih =>
    unfold runAgentSession
    split
    · rfl
    · dsimp only
      split
      · rfl
      · split
        · rfl
        · split
          · exact ih
          · rfl

/-- A step whose budget is spent sends no turn; any other is refused by whoever holds its seat. -/
theorem refusedBy_withTimeBudget :
    (withTimeBudget step fate index consumedMs now bridge).1.refusedBy =
      if (withTimeBudget step fate index consumedMs now bridge).1.sent then
        (holderFor step bridge now).map Holder.attempt else none := by
  unfold withTimeBudget
  split
  · rw [sent_runAgentSession, if_pos rfl, refusedBy_runAgentSession]
  · split
    · rfl
    · rw [sent_runAgentSession, if_pos rfl, refusedBy_runAgentSession]

theorem bridge_withTimeBudget :
    (withTimeBudget step fate index consumedMs now bridge).2 =
      leaveTurn step index (withTimeBudget step fate index consumedMs now bridge).1 bridge := by
  unfold withTimeBudget
  split
  · exact bridge_runAgentSession
  · split
    · rfl
    · exact bridge_runAgentSession

/-- What the bridge keeps of an attempt until the next one: the turn it left behind, on its seat. -/
structure Leaves (attempt : Attempt) (bridge : Bridge) : Prop where
  older : ∀ seat holder, Dict.get bridge seat = some holder → holder.attempt ≤ attempt.index
  own : ∀ seat holder, Dict.get bridge seat = some holder → holder.attempt = attempt.index →
    attempt.step.seat = some seat ∧ ∃ lag, attempt.left = some lag ∧ holder.settlesAt = attempt.endedAt + lag
  kept : ∀ seat lag, attempt.step.seat = some seat → attempt.left = some lag →
    Dict.get bridge seat = some { attempt := attempt.index, settlesAt := attempt.endedAt + lag }

theorem leaves_leaveTurn {attempt previous : Attempt} (h : Leaves previous bridge) (hlt : previous.index < attempt.index) :
    Leaves attempt (leaveTurn attempt.step attempt.index attempt.toAttemptEnd bridge) := by
  have hnone : (∀ seat lag, attempt.step.seat = some seat → attempt.left = some lag → False) → Leaves attempt bridge := by
    intro hno
    refine ⟨?_, ?_, ?_⟩
    · intro seat holder hg
      exact (h.older seat holder hg).trans hlt.le
    · intro seat holder hg he
      have := h.older seat holder hg
      omega
    · intro seat lag hs hl
      exact absurd (hno seat lag hs hl) id
  cases hl : attempt.left with
  | none =>
    rw [leaveTurn, hl]
    refine hnone (fun seat lag _ h => ?_)
    rw [hl] at h
    cases h
  | some lag =>
    cases hs : attempt.step.seat with
    | none =>
      rw [leaveTurn, hl, hs]
      refine hnone (fun seat lag h _ => ?_)
      rw [hs] at h
      cases h
    | some seat =>
      rw [leaveTurn, hl, hs]
      dsimp only
      refine ⟨?_, ?_, ?_⟩
      · intro other holder hg
        rw [Dict.get_set] at hg
        split_ifs at hg
        · cases hg
          exact le_refl _
        · exact (h.older other holder hg).trans hlt.le
      · intro other holder hg he
        rw [Dict.get_set] at hg
        split_ifs at hg with hother
        · cases hg
          exact ⟨hother ▸ hs, lag, hl, rfl⟩
        · have := h.older other holder hg
          omega
      · intro other lag' hs' hl'
        rw [hs] at hs'
        rw [hl] at hl'
        cases hs'
        cases hl'
        rw [Dict.get_set, if_pos rfl]

/-- The next attempt is sent to the seat of an attempt whose turn has not settled yet. -/
def Collides (previous attempt : Attempt) : Prop :=
  attempt.sent = true ∧ ∃ seat lag, previous.step.seat = some seat ∧ attempt.step.seat = some seat ∧
    previous.left = some lag ∧ attempt.startedAt < previous.endedAt + lag

theorem refused_iff_collides {previous attempt : Attempt} (h : Leaves previous bridge)
    (hr : attempt.refusedBy = if attempt.sent then
      (holderFor attempt.step bridge attempt.startedAt).map Holder.attempt else none) :
    attempt.refusedBy = some previous.index ↔ Collides previous attempt := by
  constructor
  · intro he
    rw [hr] at he
    split_ifs at he with hsent
    obtain ⟨holder, hh, hindex⟩ := Option.map_eq_some_iff.mp he
    obtain ⟨seat, hs, hg⟩ := Option.bind_eq_some_iff.mp hh
    obtain ⟨hg, hlive⟩ := Option.filter_eq_some_iff.mp hg
    obtain ⟨hseat, lag, hl, hsettles⟩ := h.own seat holder hg hindex
    rw [decide_eq_true_eq, hsettles] at hlive
    exact ⟨hsent, seat, lag, hseat, hs, hl, hlive⟩
  · rintro ⟨hsent, seat, lag, hseat, hs, hl, hlive⟩
    have hg := h.kept seat lag hseat hl
    rw [hr, if_pos hsent, holderFor, hs, Option.bind_some, Bridge.holder, hg]
    simp [hlive]

/-- Whatever comes next is refused by an attempt exactly if it collides with it. -/
def Refuses (previous attempt : Attempt) : Prop := attempt.refusedBy = some previous.index ↔ Collides previous attempt

theorem chain_retryLoop {next : Nat → Nat → Bridge → List Attempt}
    (hn : ∀ previous index now bridge, Leaves previous bridge → previous.index < index →
      (previous :: next index now bridge).IsChain Refuses)
    {previous : Attempt} {retries : Nat} (h : Leaves previous bridge) (hlt : previous.index < index) :
    (previous :: retryLoop step host next retries index consumedMs now bridge).IsChain Refuses := by
  have hleaves : ∀ (previous : Attempt) index consumedMs now bridge, Leaves previous bridge → previous.index < index →
      Leaves (attemptOf step index now (withTimeBudget step (host index) index consumedMs now bridge).1)
        (withTimeBudget step (host index) index consumedMs now bridge).2 := by
    intro previous index consumedMs now bridge h hlt
    rw [bridge_withTimeBudget]
    exact leaves_leaveTurn h hlt
  have hrefuses : ∀ {previous : Attempt} {index consumedMs now bridge}, Leaves previous bridge → Refuses previous
      (attemptOf step index now (withTimeBudget step (host index) index consumedMs now bridge).1) :=
    fun h => refused_iff_collides h refusedBy_withTimeBudget
  induction retries generalizing previous index consumedMs now bridge with
  | zero =>
    unfold retryLoop
    by_cases ha : (host index).runAborted = true
    · rw [if_pos ha]
      exact .singleton _
    · rw [if_neg ha]
      refine .cons_cons (hrefuses h) ?_
      have hnext := fun later =>
        hn _ (index + 1) later _ (hleaves previous index consumedMs now bridge h hlt) (Nat.lt_succ_self index)
      cases (withTimeBudget step (host index) index consumedMs now bridge).1.result with
      | ok => exact hnext _
      | blocked => exact .singleton _
      | cancelled => exact .singleton _
      | fatal =>
        dsimp only
        split
        · exact hnext _
        · exact .singleton _
      | retryable reason =>
        dsimp only
        split
        · exact hnext _
        · exact .singleton _
  | succ retries ih =>
    unfold retryLoop
    by_cases ha : (host index).runAborted = true
    · rw [if_pos ha]
      exact .singleton _
    · rw [if_neg ha]
      refine .cons_cons (hrefuses h) ?_
      have hnext := fun later =>
        hn _ (index + 1) later _ (hleaves previous index consumedMs now bridge h hlt) (Nat.lt_succ_self index)
      cases (withTimeBudget step (host index) index consumedMs now bridge).1.result with
      | ok => exact hnext _
      | blocked => exact .singleton _
      | cancelled => exact .singleton _
      | fatal =>
        dsimp only
        split
        · exact hnext _
        · exact .singleton _
      | retryable reason => exact ih (hleaves _ _ _ _ _ h hlt) (Nat.lt_succ_self index)

theorem chain_runSequence (steps : List BudgetedStep) {previous : Attempt} (h : Leaves previous bridge)
    (hlt : previous.index < index) : (previous :: runSequence host steps index now bridge).IsChain Refuses := by
  induction steps generalizing previous index now bridge with
  | nil => exact .singleton _
  | cons step rest ih => exact chain_retryLoop (fun previous index now bridge h hlt => ih h hlt) h hlt

/-- No attempt fails because the turn of the one before it is still in flight. -/
def Undisturbed (attempts : List Attempt) : Prop :=
  attempts.IsChain (fun previous attempt => attempt.refusedBy ≠ some previous.index)

/-- A turn that an attempt left behind has settled by the time the next turn is sent to its seat. -/
def SettlesInTime (attempts : List Attempt) : Prop :=
  attempts.IsChain (fun previous attempt => ∀ seat lag, previous.step.seat = some seat →
    attempt.step.seat = some seat → previous.left = some lag → attempt.sent = true →
    previous.endedAt + lag ≤ attempt.startedAt)

theorem undisturbed_iff {attempts : List Attempt} (h : attempts.IsChain Refuses) :
    Undisturbed attempts ↔ SettlesInTime attempts := by
  have hpair : ∀ {previous attempt : Attempt}, Refuses previous attempt → (attempt.refusedBy ≠ some previous.index ↔
      ∀ seat lag, previous.step.seat = some seat → attempt.step.seat = some seat → previous.left = some lag →
        attempt.sent = true → previous.endedAt + lag ≤ attempt.startedAt) := by
    intro previous attempt hr
    rw [Ne, show attempt.refusedBy = some previous.index ↔ Collides previous attempt from hr, Collides]
    constructor
    · intro hno seat lag hs hs' hl hsent
      exact not_lt.mp (fun hlt => hno ⟨hsent, seat, lag, hs, hs', hl, hlt⟩)
    · rintro hin ⟨hsent, seat, lag, hs, hs', hl, hlt⟩
      exact absurd (hin seat lag hs hs' hl hsent) (not_le.mpr hlt)
  induction h with
  | nil => exact iff_of_true .nil .nil
  | singleton a => exact iff_of_true (.singleton a) (.singleton a)
  | cons_cons hr _ ih =>
    rw [Undisturbed, SettlesInTime, List.isChain_cons_cons, List.isChain_cons_cons, hpair hr]
    exact and_congr_right (fun _ => ih)

/-- Attempts after a timeout are left alone exactly where the aborted turns settle before them. -/
theorem runSequence_undisturbed_iff (host : Nat → AttemptFate) (steps : List BudgetedStep) (now : Nat) :
    Undisturbed (runSequence host steps 1 now []) ↔ SettlesInTime (runSequence host steps 1 now []) := by
  have hstart : Leaves { endedAt := now, result := .ok, index := 0, step := { name := "", seat := none }, startedAt := now } [] :=
    ⟨fun _ _ hg => absurd hg (by simp [Dict.get]), fun _ _ hg => absurd hg (by simp [Dict.get]), by simp⟩
  exact undisturbed_iff (chain_runSequence steps hstart Nat.zero_lt_one).tail

section Execution

variable (policy : StepRunner.AgentPolicy) (tokens : Nat) (session : StepRunner.SessionFate)

def usageOf (fate : StepRunner.TurnFate) : Nat :=
  match fate.reply with
  | .error _ => 0
  | .ok turn => turn.usage.getD 0

def usedBefore : Nat → Nat
  | 0 => tokens
  | turn + 1 => usedBefore turn + usageOf (session.turn turn)

/-- A reply that was paid for, with the tokens used so far. -/
def replyJudged (turn : StepRunner.AgentTurn) (total : Nat) : TurnReply :=
  match policy.maxTokens.filter (· < total) with
  | some _ => .exceedsTokens
  | none =>
    match StepRunner.checkAgentTurn policy turn with
    | .result _ => .submitted
    | .questions _ => .questions
    | .violates _ _ => .violation

/-- What the sequence sees of a reply that comes after some tokens have been used. -/
def replyOf (used : Nat) (fate : StepRunner.TurnFate) : TurnReply :=
  match fate.reply with
  | .error _ => .thrown
  | .ok turn =>
    if turn.cancelled then .cancelled
    else match turn.error with
      | some error => .failed (StepRunner.isTerminalAgentError policy.step error)
      | none => replyJudged policy turn (used + turn.usage.getD 0)

/-- Only a reply that reports its usage or an error is recorded. -/
def recordingOf (fate : StepRunner.TurnFate) : Nat :=
  match fate.reply with
  | .error _ => 0
  | .ok turn => if turn.cancelled then 0 else if turn.error.isSome || turn.usage.isSome then fate.recording else 0

/-- A turn of a session as the bridge has it; the correction after it is recorded too. -/
def turnSeen (lag turn : Nat) : TurnFate where
  takes := (session.turn turn).takes
  reply := replyOf policy (usedBefore tokens session turn) (session.turn turn)
  lag := lag
  recording := recordingOf (session.turn turn) +
    if (replyOf policy (usedBefore tokens session turn) (session.turn turn)).violates ∧ turn < StepRunner.maxRepairs policy
    then (session.turn turn).steering else 0

def resultSeen : StepRunner.AttemptResult → Option AttemptResult
  | .ok _ => some .ok
  | .retryable reason _ => some (.retryable reason)
  | .fatal _ => some .fatal
  | .blocked .. => some .blocked
  | .cancelled _ => some .cancelled
  | .thrown _ => none

structure Lasting (entry : AgentEntry) : Prop where
  resumeKey : ∃ key, session.resumeKey = .ok key
  opened : session.opened = .ok ()
  first : ∃ message, StepRunner.firstMessage entry session = .ok message
  recorded : ∀ turn, (session.turn turn).recorded = .ok ()
  steered : ∀ turn, (session.turn turn).steered = .ok ()

variable {policy tokens session}

theorem aborted_eq (deadline : Option Nat) (time : Nat) :
    StepRunner.aborted deadline time = (expired deadline time).isSome := by
  cases deadline with
  | none => rfl
  | some deadline =>
    rw [StepRunner.aborted, expired, Option.any_some, Option.filter]
    cases decide (deadline < time) <;> rfl

theorem recordError_ended {fate : StepRunner.TurnFate} {attempt settledAt : Nat} {key : Option String}
    {error : StepRunner.AgentTurnError} (hr : fate.recorded = .ok ()) : ∃ result notes,
    StepRunner.recordError policy attempt key fate settledAt error = .ended (settledAt + fate.recording) result notes ∧
      resultSeen result = some (resultOfReply (.failed (StepRunner.isTerminalAgentError policy.step error))) := by
  unfold StepRunner.recordError
  rw [hr]
  refine ⟨_, _, rfl, ?_⟩
  cases StepRunner.isTerminalAgentError policy.step error <;> rfl

theorem judgeReply_cases (turn : StepRunner.AgentTurn) (conversation : Conversation) (recordedAt total : Nat)
    (notes : StepRunner.Notes) :
    ((replyJudged policy turn total).violates = true ∧ ∃ violation kind,
      StepRunner.judgeReply policy turn conversation recordedAt notes total =
        .violated recordedAt notes total violation kind) ∨
    ((replyJudged policy turn total).violates = false ∧ ∃ result,
      StepRunner.judgeReply policy turn conversation recordedAt notes total = .ended recordedAt result notes ∧
      resultSeen result = some (resultOfReply (replyJudged policy turn total))) := by
  unfold replyJudged StepRunner.judgeReply
  cases hm : policy.maxTokens.filter (· < total) with
  | some budget => exact .inr ⟨rfl, _, rfl, rfl⟩
  | none =>
    cases StepRunner.checkAgentTurn policy turn with
    | result value => exact .inr ⟨rfl, _, rfl, rfl⟩
    | questions questions => exact .inr ⟨rfl, _, rfl, rfl⟩
    | violates violation kind => exact .inl ⟨rfl, _, _, rfl⟩

variable (policy) in
/-- A turn that settles in time: a violation is corrected, any other reply ends the attempt. -/
theorem settleTurn_cases {fate : StepRunner.TurnFate} (attempt : Nat) (key : Option String)
    (conversation : Conversation) (used : Nat) (hr : fate.recorded = .ok ()) (ht : expired deadline (now + fate.takes) = none) :
    ((replyOf policy used fate).violates = true ∧ ∃ notes violation kind,
      StepRunner.settleTurn policy attempt key deadline fate conversation now used =
        .violated (now + fate.takes + recordingOf fate) notes (used + usageOf fate) violation kind) ∨
    ((replyOf policy used fate).violates = false ∧ ∃ result notes,
      StepRunner.settleTurn policy attempt key deadline fate conversation now used =
        .ended (now + fate.takes + recordingOf fate) result notes ∧
      resultSeen result = some (resultOfReply (replyOf policy used fate))) := by
  have ha : StepRunner.aborted deadline (now + fate.takes) = false := by rw [aborted_eq, ht]; rfl
  cases hreply : fate.reply with
  | error error =>
    refine .inr ⟨by simp [replyOf, hreply, TurnReply.violates], .retryable .thrownError error, [], ?_, ?_⟩
    · simp [StepRunner.settleTurn, hreply, ha, recordingOf]
    · simp [replyOf, hreply, resultSeen, resultOfReply]
  | ok turn =>
    cases hc : turn.cancelled with
    | true =>
      refine .inr ⟨by simp [replyOf, hreply, hc, TurnReply.violates], .cancelled (some .escape), [], ?_, ?_⟩
      · simp [StepRunner.settleTurn, hreply, ha, hc, recordingOf]
      · simp [replyOf, hreply, hc, resultSeen, resultOfReply]
    | false =>
      cases he : turn.error with
      | some error =>
        have hsame : replyOf policy used fate = .failed (StepRunner.isTerminalAgentError policy.step error) := by
          simp [replyOf, hreply, hc, he]
        have hsettle : StepRunner.settleTurn policy attempt key deadline fate conversation now used =
            StepRunner.recordError policy attempt key fate (now + fate.takes) error := by
          simp [StepRunner.settleTurn, hreply, ha, hc, he]
        have hrecording : recordingOf fate = fate.recording := by simp [recordingOf, hreply, hc, he]
        rw [hsettle, hsame, hrecording]
        exact .inr ⟨rfl, recordError_ended hr⟩
      | none =>
        cases hu : turn.usage with
        | none =>
          have hsettle : StepRunner.settleTurn policy attempt key deadline fate conversation now used =
              StepRunner.judgeReply policy turn conversation (now + fate.takes) [] used := by
            simp [StepRunner.settleTurn, hreply, ha, hc, he, hu]
          have hsame : replyOf policy used fate = replyJudged policy turn used := by
            simp [replyOf, hreply, hc, he, hu]
          have hrecording : recordingOf fate = 0 := by simp [recordingOf, hreply, hc, he, hu]
          have husage : usageOf fate = 0 := by simp [usageOf, hreply, hu]
          rw [hsettle, hsame, hrecording, husage]
          obtain ⟨hv, hj⟩ | hj := judgeReply_cases turn conversation (now + fate.takes) used []
          · exact .inl ⟨hv, [], hj⟩
          · obtain ⟨hv, result, hj⟩ := hj
            exact .inr ⟨hv, result, [], hj⟩
        | some tokens =>
          have hsettle : StepRunner.settleTurn policy attempt key deadline fate conversation now used =
              StepRunner.judgeReply policy turn conversation (now + fate.takes + fate.recording)
                [(now + fate.takes, .usage tokens)] (used + tokens) := by
            simp [StepRunner.settleTurn, hreply, ha, hc, he, hu, hr]
          have hsame : replyOf policy used fate = replyJudged policy turn (used + tokens) := by
            simp [replyOf, hreply, hc, he, hu]
          have hrecording : recordingOf fate = fate.recording := by simp [recordingOf, hreply, hc, he, hu]
          have husage : usageOf fate = tokens := by simp [usageOf, hreply, hu]
          rw [hsettle, hsame, hrecording, husage]
          obtain ⟨hv, hj⟩ | hj := judgeReply_cases turn conversation
            (now + fate.takes + fate.recording) (used + tokens) [(now + fate.takes, .usage tokens)]
          · exact .inl ⟨hv, _, hj⟩
          · obtain ⟨hv, result, hj⟩ := hj
            exact .inr ⟨hv, result, _, hj⟩

/-- An attempt that is not refused ends as its session does, or when the timer fires before that. -/
def EndsAs (deadline : Option Nat) (run : StepRunner.SessionRun) (ended : AttemptEnd) : Prop :=
  match expired deadline run.endedAt with
  | some timeout => ended.endedAt = timeout ∧ ended.result = .retryable .budgetExceeded
  | none => ended.endedAt = run.endedAt ∧ resultSeen run.result = some ended.result

theorem settleTurn_late {fate : StepRunner.TurnFate} {attempt : Nat} {key : Option String} {conversation : Conversation}
    {used timeout : Nat} (ht : expired deadline (now + fate.takes) = some timeout) :
    StepRunner.settleTurn policy attempt key deadline fate conversation now used =
      .ended (now + fate.takes) (.cancelled none) [] := by
  have ha : StepRunner.aborted deadline (now + fate.takes) = true := by rw [aborted_eq, ht]; rfl
  unfold StepRunner.settleTurn
  cases fate.reply <;> simp [ha]

theorem endsAs_late {run : StepRunner.SessionRun} {ended : AttemptEnd} {timeout : Nat}
    (h : expired deadline run.endedAt = some timeout) (he : ended.endedAt = timeout)
    (hr : ended.result = .retryable .budgetExceeded) : EndsAs deadline run ended := by
  unfold EndsAs
  rw [h]
  exact ⟨he, hr⟩

theorem endsAs_timely {run : StepRunner.SessionRun} {ended : AttemptEnd} (h : expired deadline run.endedAt = none)
    (he : ended.endedAt = run.endedAt) (hr : resultSeen run.result = some ended.result) : EndsAs deadline run ended := by
  unfold EndsAs
  rw [h]
  exact ⟨he, hr⟩

/-- Induction on the corrections that are left: the bridge's session takes the turns of the engine's. -/
theorem endsAs_runTurns (hr : ∀ turn, (session.turn turn).recorded = .ok ())
    (hsteered : ∀ turn, (session.turn turn).steered = .ok ()) {attempt : Nat} {key : Option String}
    {seed conversation : Conversation} {message : StepRunner.Message} {lag : Nat}
    (hrepairs : repairs + turn = StepRunner.maxRepairs policy) (hf : fate.turn = turnSeen policy tokens session lag)
    (hs : holderFor step bridge now = none) (hnow : expired deadline now = none) :
    EndsAs deadline (StepRunner.runTurns policy attempt key deadline seed session.turn repairs turn now
      (usedBefore tokens session turn) conversation message)
      (runAgentSession step fate index deadline repairs turn now bridge).1 := by
  induction repairs generalizing turn now conversation message with
  | zero =>
    have ha : ¬StepRunner.aborted deadline now = true := by rw [aborted_eq, hnow]; simp
    have hlast : ¬turn < StepRunner.maxRepairs policy := by omega
    unfold StepRunner.runTurns runAgentSession
    rw [holderFor] at hs
    simp only [if_neg ha, hs, hf, turnSeen, hlast, and_false, if_false, Nat.add_zero]
    cases ht : expired deadline (now + (session.turn turn).takes) with
    | some timeout =>
      rw [settleTurn_late ht]
      exact endsAs_late ht rfl rfl
    | none =>
      obtain ⟨hv, notes, violation, kind, hsettle⟩ | ⟨hv, result, notes, hsettle, hseen⟩ :=
        settleTurn_cases policy attempt key
          (seed ++ (conversation ++ (session.turn turn).messages)) (usedBefore tokens session turn) (hr turn) ht
      · rw [hsettle]
        dsimp only
        cases hrec : expired deadline (now + (session.turn turn).takes + recordingOf (session.turn turn)) with
        | some timeout => exact endsAs_late hrec rfl rfl
        | none =>
          refine endsAs_timely hrec rfl ?_
          generalize replyOf policy (usedBefore tokens session turn) (session.turn turn) = reply at hv ⊢
          cases reply with
          | violation => rfl
          | _ => cases hv
      · rw [hsettle]
        dsimp only
        cases hrec : expired deadline (now + (session.turn turn).takes + recordingOf (session.turn turn)) with
        | some timeout => exact endsAs_late hrec rfl rfl
        | none => exact endsAs_timely hrec rfl hseen
  | succ repairs ih =>
    have ha : ¬StepRunner.aborted deadline now = true := by rw [aborted_eq, hnow]; simp
    have hmore : turn < StepRunner.maxRepairs policy := by omega
    unfold StepRunner.runTurns runAgentSession
    have hfree := hs
    rw [holderFor] at hs
    simp only [if_neg ha, hs, hf, turnSeen, hmore, and_true]
    cases ht : expired deadline (now + (session.turn turn).takes) with
    | some timeout =>
      rw [settleTurn_late ht]
      exact endsAs_late ht rfl rfl
    | none =>
      obtain ⟨hv, notes, violation, kind, hsettle⟩ | ⟨hv, result, notes, hsettle, hseen⟩ :=
        settleTurn_cases policy attempt key
          (seed ++ (conversation ++ (session.turn turn).messages)) (usedBefore tokens session turn) (hr turn) ht
      · rw [hsettle, if_pos hv, if_pos hv]
        simp only [hsteered turn, ← Nat.add_assoc]
        cases hrec : expired deadline (now + (session.turn turn).takes + recordingOf (session.turn turn) +
            (session.turn turn).steering) with
        | some timeout =>
          refine endsAs_late ?_ rfl rfl
          unfold StepRunner.runTurns
          rw [if_pos (by rw [aborted_eq, hrec]; rfl)]
          exact hrec
        | none => exact ih (by omega) (holderFor_none_mono hfree (by omega)) hrec
      · rw [hsettle]
        simp only [hv, Bool.false_eq_true, if_false, Nat.add_zero]
        cases hrec : expired deadline (now + (session.turn turn).takes + recordingOf (session.turn turn)) with
        | some timeout => exact endsAs_late hrec rfl rfl
        | none => exact endsAs_timely hrec rfl hseen

/-- An attempt as the sequence has it: when it ended and how, and whether a turn was sent at all. -/
structure SeenAs (run : StepRunner.AttemptRun) (ended : AttemptEnd) : Prop where
  endedAt : ended.endedAt = run.endedAt
  result : resultSeen run.result = some ended.result
  sent : ended.sent = run.session.isSome

/-- Whether any of the budget is left when an attempt begins. -/
def affords (budget : Option Int) (consumedMs : Nat) : Bool :=
  budget.all (fun budgetMs => decide ((consumedMs : Int) < budgetMs))

theorem resultSeen_withElapsed (elapsedMs : Nat) (result : StepRunner.AttemptResult) :
    resultSeen (result.withElapsed elapsedMs) = resultSeen result := by
  cases result <;> rfl

theorem endsAs_runAgentSession {entry : AgentEntry} (hl : Lasting session entry) {lag : Nat} (deadline : Option Nat)
    (index attempt : Nat)
    (hrepairs : step.maxOutputRepairs = StepRunner.maxRepairs policy)
    (hf : fate.turn = turnSeen policy tokens session lag) (hs : holderFor step bridge now = none)
    (hnow : expired deadline now = none) :
    EndsAs deadline (StepRunner.runAgentSession policy entry attempt tokens deadline session now)
      (runAgentSession step fate index deadline step.maxOutputRepairs 0 now bridge).1 := by
  obtain ⟨key, hkey⟩ := hl.resumeKey
  obtain ⟨message, hmessage⟩ := hl.first
  simp only [StepRunner.runAgentSession, hkey, hl.opened, hmessage, hrepairs]
  exact endsAs_runTurns hl.recorded hl.steered rfl hf hs hnow

theorem seenAs_withTimeBudget {entry : AgentEntry} (hl : Lasting session entry) {attempt lag : Nat} {budget : Option Int}
    (hbudget : step.budgetMs = budget.map Int.toNat) (hrepairs : step.maxOutputRepairs = StepRunner.maxRepairs policy)
    (hf : fate.turn = turnSeen policy tokens session lag)
    (hfree : (withTimeBudget step fate index consumedMs now bridge).1.refusedBy = none) :
    SeenAs (StepRunner.withTimeBudget policy.step.name budget none
        (fun signal => StepRunner.runAgentSession policy entry attempt tokens signal session now) consumedMs tokens 0 now)
        (withTimeBudget step fate index consumedMs now bridge).1 ∧
      (withTimeBudget step fate index consumedMs now bridge).1.sent = affords budget consumedMs := by
  rw [refusedBy_withTimeBudget] at hfree
  cases budget with
  | none =>
    have hdeadline : withTimeBudget step fate index consumedMs now bridge =
        runAgentSession step fate index none step.maxOutputRepairs 0 now bridge := by simp [withTimeBudget, hbudget]
    rw [hdeadline] at hfree ⊢
    rw [sent_runAgentSession, if_pos rfl, Option.map_eq_none_iff] at hfree
    obtain ⟨hended, hresult⟩ := endsAs_runAgentSession hl none index attempt hrepairs hf hfree rfl
    exact ⟨⟨hended, hresult, sent_runAgentSession⟩, sent_runAgentSession.trans rfl⟩
  | some budgetMs =>
    have hsome : step.budgetMs = some budgetMs.toNat := hbudget
    by_cases hspent : budgetMs - consumedMs ≤ 0
    · have hnothing : withTimeBudget step fate index consumedMs now bridge =
          ({ endedAt := now, result := .retryable .budgetExceeded, sent := false }, bridge) := by
        simp only [withTimeBudget, hsome]
        exact if_pos (by omega)
      have hsends : affords (some budgetMs) consumedMs = false := by
        simp only [affords, Option.all_some, decide_eq_false_iff_not]
        omega
      rw [hnothing, StepRunner.withTimeBudget, if_pos hspent, hsends]
      exact ⟨⟨rfl, rfl, rfl⟩, rfl⟩
    · have hleft : now + (budgetMs.toNat - consumedMs) = now + (budgetMs - consumedMs).toNat + 0 := by omega
      have hdeadline : withTimeBudget step fate index consumedMs now bridge =
          runAgentSession step fate index (some (now + (budgetMs - consumedMs).toNat + 0)) step.maxOutputRepairs 0 now
            bridge := by
        simp only [withTimeBudget, hsome]
        rw [if_neg (by omega), hleft]
      have hsends : affords (some budgetMs) consumedMs = true := by
        simp only [affords, Option.all_some, decide_eq_true_eq]
        omega
      have hnow : expired (some (now + (budgetMs - consumedMs).toNat + 0)) now = none := by
        rw [expired, Option.filter_eq_none_iff]
        intro deadline hd
        cases hd
        simp
      rw [hdeadline] at hfree ⊢
      rw [sent_runAgentSession, if_pos rfl, Option.map_eq_none_iff] at hfree
      have hends := endsAs_runAgentSession hl _ index attempt hrepairs hf hfree hnow
      rw [StepRunner.withTimeBudget, if_neg hspent, hsends]
      refine ⟨?_, sent_runAgentSession⟩
      dsimp only [StepRunner.earlier, Option.elim_none]
      unfold EndsAs at hends
      split at hends
      · rename_i timeout hlate
        obtain ⟨hd, hlt⟩ := Option.filter_eq_some_iff.mp hlate
        cases hd
        rw [if_pos (of_decide_eq_true hlt)]
        exact ⟨hends.1, congrArg some hends.2.symm, sent_runAgentSession⟩
      · rename_i htimely
        rw [expired, Option.filter_eq_none_iff] at htimely
        rw [if_neg (fun hover => htimely _ rfl (decide_eq_true hover))]
        exact ⟨hends.1, (resultSeen_withElapsed _ _).trans hends.2, sent_runAgentSession⟩

variable (policy) (entry : AgentEntry) (budget : Option Int) (engine : StepRunner.AgentHost)

def carriedMs (number : Nat) : Nat := if number = 1 then StepRunner.AgentEntry.elapsedMs entry else 0

/-- The tokens an attempt begins with: what a block carried is left until an attempt has sent a turn. -/
def tokensAt : Nat → Nat
  | 0 => StepRunner.AgentEntry.tokensUsed entry
  | number + 1 => if number ≠ 0 ∧ affords budget (carriedMs entry number) = true then 0 else tokensAt number

/-- The host of the engine's execution, as the bridge meets it; the turns it aborts take their time to settle. -/
def fateSeen (lag : Nat → Nat) (number : Nat) : AttemptFate where
  turn := turnSeen policy (tokensAt entry budget number) (engine.session number) (lag number)
  pause := (engine.retry number).recording +
    if 0 < StepRunner.backoff policy.retry then (engine.retry number).lateness else 0

def stepSeen (seat : Option Seat) : BudgetedStep where
  name := policy.step.name
  seat := seat
  budgetMs := budget.map Int.toNat
  carryOverMs := StepRunner.AgentEntry.elapsedMs entry
  maxRetry := StepRunner.maxRetries policy.retry
  backoffMs := StepRunner.backoff policy.retry
  maxOutputRepairs := StepRunner.maxRepairs policy
  isOptional := policy.step.isOptional

/-- A host that nobody cancels, whose timers fire on time and whose sessions and log do not fail. -/
structure Reliable : Prop where
  signal : engine.runSignal = none
  punctual : ∀ number, engine.lateness number = 0
  lasting : ∀ number, Lasting (engine.session number) entry
  recorded : ∀ number, (engine.retry number).recorded = .ok ()

def Attempt.seen (attempt : Attempt) : Nat × Nat × Nat × Option AttemptResult × Bool :=
  (attempt.index, attempt.startedAt, attempt.endedAt, some attempt.result, attempt.sent)

def openedSeen : StepRunner.LoopMove → Option (Nat × Nat × Nat × Option AttemptResult × Bool)
  | .opened number run => some (number, run.startedAt, run.endedAt, resultSeen run.result, run.session.isSome)
  | .retried .. => none

variable {policy entry budget engine} {seat : Option Seat} {lag : Nat → Nat} {number retries : Nat}
  {next : Nat → Nat → Bridge → List Attempt}

theorem seenAs_agentAttempt (hr : Reliable entry engine)
    (hfree : (withTimeBudget (stepSeen policy entry budget seat) (fateSeen policy entry budget engine lag number) number
      (carriedMs entry number) now bridge).1.refusedBy = none) :
    SeenAs (StepRunner.agentAttempt policy entry budget engine number (tokensAt entry budget number) now)
        (withTimeBudget (stepSeen policy entry budget seat) (fateSeen policy entry budget engine lag number) number
          (carriedMs entry number) now bridge).1 ∧
      (withTimeBudget (stepSeen policy entry budget seat) (fateSeen policy entry budget engine lag number) number
        (carriedMs entry number) now bridge).1.sent = affords budget (carriedMs entry number) := by
  rw [StepRunner.agentAttempt, hr.signal, hr.punctual]
  exact seenAs_withTimeBudget (hr.lasting number) rfl rfl rfl hfree

theorem startedAt_agentAttempt (attempt tokens : Nat) :
    (StepRunner.agentAttempt policy entry budget engine attempt tokens now).startedAt = now := by
  unfold StepRunner.agentAttempt StepRunner.withTimeBudget
  cases budget with
  | none => rfl
  | some budgetMs =>
    dsimp only
    split_ifs <;> rfl

theorem seen_attemptOf (step : BudgetedStep) (number : Nat) {run : StepRunner.AttemptRun} {ended : AttemptEnd} (h : SeenAs run ended)
    (hs : run.startedAt = now) : openedSeen (.opened number run) = some (attemptOf step number now ended).seen := by
  rw [openedSeen, hs, h.result, ← h.endedAt, ← h.sent]
  rfl

theorem tokensAt_succ {run : StepRunner.AttemptRun} (hnumber : 0 < number)
    (hs : run.session.isSome = affords budget (carriedMs entry number)) :
    (if run.session.isSome then 0 else tokensAt entry budget number) = tokensAt entry budget (number + 1) := by
  rw [tokensAt, hs]
  exact if_congr ⟨fun h => ⟨hnumber.ne', h⟩, fun h => h.2⟩ rfl rfl

/-- An attempt that no retry can follow is the last of both. -/
theorem seen_settled (hr : Reliable entry engine) (hnext : ∀ index now bridge, next index now bridge = [])
    (hfree : ∀ attempt ∈ retryLoop (stepSeen policy entry budget seat) (fateSeen policy entry budget engine lag) next
      retries number (carriedMs entry number) now bridge, attempt.refusedBy = none)
    (hs : retries = 0 ∨ ∀ reason error, (StepRunner.agentAttempt policy entry budget engine number
      (tokensAt entry budget number) now).result ≠ .retryable reason error) :
    (retryLoop (stepSeen policy entry budget seat) (fateSeen policy entry budget engine lag) next retries number
        (carriedMs entry number) now bridge).map Attempt.seen =
      (StepRunner.retryLoop policy.retry none (StepRunner.agentAttempt policy entry budget engine) engine.retry retries
        number (tokensAt entry budget number) now).moves.filterMap openedSeen := by
  have hlive : ¬(fateSeen policy entry budget engine lag number).runAborted = true := Bool.false_ne_true
  have hrunning : ¬StepRunner.aborted none now = true := Bool.false_ne_true
  unfold retryLoop at hfree ⊢
  unfold StepRunner.retryLoop
  rw [if_neg hlive] at hfree ⊢
  rw [if_neg hrunning]
  obtain ⟨hseen, -⟩ := seenAs_agentAttempt hr (hfree _ List.mem_cons_self)
  have hopened := seen_attemptOf (stepSeen policy entry budget seat) number hseen
    (startedAt_agentAttempt number (tokensAt entry budget number))
  have hresult := hseen.result
  cases hres : (StepRunner.agentAttempt policy entry budget engine number (tokensAt entry budget number) now).result with
  | ok output =>
    rw [hres] at hresult
    have he := (Option.some.inj hresult).symm
    simp [hres, he, hopened, hnext]
  | retryable reason error =>
    obtain rfl : retries = 0 := hs.resolve_right (fun hnot => hnot reason error hres)
    rw [hres] at hresult
    have he := (Option.some.inj hresult).symm
    simp [hres, he, hopened, hnext]
  | fatal error =>
    rw [hres] at hresult
    have he := (Option.some.inj hresult).symm
    simp [hres, he, hopened, hnext]
  | blocked questionnaire conversation elapsedMs tokensUsed =>
    rw [hres] at hresult
    have he := (Option.some.inj hresult).symm
    simp [hres, he, hopened]
  | cancelled source =>
    rw [hres] at hresult
    have he := (Option.some.inj hresult).symm
    simp [hres, he, hopened]
  | thrown error =>
    rw [hres] at hresult
    cases hresult

/-- Induction on the retries that are left: the attempts of a sequence of one step are those of its execution. -/
theorem seen_retryLoop (hr : Reliable entry engine) (hnext : ∀ index now bridge, next index now bridge = [])
    (hnumber : 0 < number)
    (hfree : ∀ attempt ∈ retryLoop (stepSeen policy entry budget seat) (fateSeen policy entry budget engine lag) next
      retries number (carriedMs entry number) now bridge, attempt.refusedBy = none) :
    (retryLoop (stepSeen policy entry budget seat) (fateSeen policy entry budget engine lag) next retries number
        (carriedMs entry number) now bridge).map Attempt.seen =
      (StepRunner.retryLoop policy.retry none (StepRunner.agentAttempt policy entry budget engine) engine.retry retries
        number (tokensAt entry budget number) now).moves.filterMap openedSeen := by
  induction retries generalizing number now bridge with
  | zero => exact seen_settled hr hnext hfree (.inl rfl)
  | succ retries ih =>
    by_cases hagain : ∃ reason error, (StepRunner.agentAttempt policy entry budget engine number
        (tokensAt entry budget number) now).result = .retryable reason error
    · obtain ⟨reason, error, hres⟩ := hagain
      have hlive : ¬(fateSeen policy entry budget engine lag number).runAborted = true := Bool.false_ne_true
      have hrunning : ¬StepRunner.aborted none now = true := Bool.false_ne_true
      unfold retryLoop at hfree ⊢
      unfold StepRunner.retryLoop
      rw [if_neg hlive] at hfree ⊢
      rw [if_neg hrunning]
      obtain ⟨hseen, hsent⟩ := seenAs_agentAttempt hr (hfree _ List.mem_cons_self)
      have hopened := seen_attemptOf (stepSeen policy entry budget seat) number hseen
        (startedAt_agentAttempt number (tokensAt entry budget number))
      have hresult := hseen.result
      rw [hres] at hresult
      have he := (Option.some.inj hresult).symm
      have hlater : StepRunner.resumesAt policy.retry (engine.retry number)
          (StepRunner.agentAttempt policy entry budget engine number (tokensAt entry budget number) now).endedAt =
          (withTimeBudget (stepSeen policy entry budget seat) (fateSeen policy entry budget engine lag number) number
            (carriedMs entry number) now bridge).1.endedAt + (fateSeen policy entry budget engine lag number).pause +
            (stepSeen policy entry budget seat).backoffMs := by
        rw [hseen.endedAt]
        simp only [StepRunner.resumesAt, fateSeen, stepSeen]
        split_ifs <;> omega
      have hnone : carriedMs entry (number + 1) = 0 := if_neg (by omega)
      simp only [he] at hfree ⊢
      simp only [hres, hr.recorded, tokensAt_succ hnumber (hseen.sent.symm.trans hsent), hlater]
      rw [← hnone] at hfree ⊢
      rw [List.map_cons, List.filterMap_cons_some hopened, List.filterMap_cons_none rfl,
        ih (Nat.succ_pos number) (fun attempt hm => hfree attempt (List.mem_cons_of_mem _ hm))]
    · push Not at hagain
      exact seen_settled hr hnext hfree (.inr hagain)

/-- A sequence of one step whose turns nobody refuses is the engine's execution of the step. -/
theorem seen_runSequence (hr : Reliable entry engine)
    (hfree : ∀ attempt ∈ runSequence (fateSeen policy entry budget engine lag) [stepSeen policy entry budget seat] 1 now
      bridge, attempt.refusedBy = none) :
    (runSequence (fateSeen policy entry budget engine lag) [stepSeen policy entry budget seat] 1 now bridge).map
        Attempt.seen =
      (StepRunner.runAgentStep policy (.ok budget) engine entry now).moves.filterMap openedSeen := by
  rw [StepRunner.runAgentStep, hr.signal]
  exact seen_retryLoop hr (fun _ _ _ => rfl) Nat.one_pos hfree

end Execution

section Sample

/-- A host whose only session takes one turn, which answers. -/
def promptly : StepRunner.AgentHost where
  session _ := { prompt := .ok "Draft it", turn := fun _ => { takes := 40, reply := .ok { text := "Done", usage := some 7 } } }

example : Reliable .fresh promptly :=
  ⟨rfl, fun _ => rfl, fun _ => ⟨⟨none, rfl⟩, rfl, ⟨_, rfl⟩, fun _ => rfl, fun _ => rfl⟩, fun _ => rfl⟩

def slowHost (_ : Nat) : AttemptFate :=
  { turn := fun _ => { takes := 1000, reply := .submitted, lag := 500, recording := 0 }, pause := 20 }

def boxedStep (name : String) (seat : Seat) : BudgetedStep :=
  { name := name, seat := some seat, budgetMs := some 100, maxRetry := 1, isOptional := true }

/-- The second attempt is refused by the first one's turn, in the session as over a resume file. -/
theorem slowHost_disturbs :
    ¬ Undisturbed (runSequence slowHost [boxedStep "draft" .inSession] 1 0 []) ∧
    ¬ Undisturbed (runSequence slowHost [boxedStep "draft" (.resumeFile "draft.jsonl")] 1 0 []) ∧
    (runSequence slowHost [{ boxedStep "draft" .inSession with maxRetry := 0 }, boxedStep "review" .inSession] 1 0 []).map
      (fun attempt => (attempt.step.name, attempt.result, attempt.refusedBy)) =
      [("draft", .retryable .budgetExceeded, none), ("review", .retryable .thrownError, some 1),
        ("review", .retryable .thrownError, some 1)] := by
  unfold Undisturbed
  exact ⟨by decide +kernel, by decide +kernel, by decide +kernel⟩

end Sample

end KimchiWorkflows.Host
