import KimchiWorkflows.Engine.AttemptAccounting
import KimchiWorkflows.Engine.AttemptNotes
import KimchiWorkflows.Engine.StepState

namespace KimchiWorkflows.Engine.StepRunner

open KimchiWorkflows.Flow KimchiWorkflows.Engine

def Silent (run : AttemptRun) : Prop :=
  ∀ deadline session, run.deadline = some deadline → run.session = some session →
    ∀ note ∈ session.notes, counts note.2 = true → note.1 ≤ deadline

/-- The timer fires while the usage of a reply is being recorded that the attempt goes on to correct. -/
def straddles (policy : AgentPolicy) (attempt : Nat) (resumeKey : Option String) (signal : Option Nat)
    (seed : Conversation) (turn : Nat → TurnFate) (deadline : Nat) : Nat → Nat → Nat → Nat → Conversation → Bool
  | 0, _, _, _, _ => false
  | repairs + 1, repair, now, total, conversation =>
    if aborted signal now then false
    else
      let heard := conversation ++ (turn repair).messages
      match settleTurn policy attempt resumeKey signal (turn repair) (seed ++ heard) now total with
      | .ended _ _ _ => false
      | .violated recordedAt _ total _ _ =>
        (turn repair).steered.isOk && (decide (deadline < recordedAt) ||
          straddles policy attempt resumeKey signal seed turn deadline repairs (repair + 1)
            (recordedAt + (turn repair).steering) total heard)

def sessionStraddles (policy : AgentPolicy) (entry : AgentEntry) (attempt startingTokens : Nat)
    (signal : Option Nat) (fate : SessionFate) (now deadline : Nat) : Bool :=
  match fate.resumeKey, fate.opened, firstMessage entry fate with
  | .ok resumeKey, .ok (), .ok _ => straddles policy attempt resumeKey signal (AgentEntry.seed entry) fate.turn
      deadline (maxRepairs policy) 0 now startingTokens []
  | _, _, _ => false

/-- The timer of an attempt of a step fires in the middle of a correction. -/
def TimerStraddles (policy : AgentPolicy) (entry : AgentEntry) (host : AgentHost) (number : Nat)
    (run : AttemptRun) : Prop :=
  ∃ deadline, run.deadline = some deadline ∧ sessionStraddles policy entry number run.startingTokens
    (earlier host.runSignal deadline) (host.session number) run.startedAt deadline = true

variable {policy : AgentPolicy} {entry : AgentEntry} {number startingTokens repairs repair total now deadline : Nat}
  {resumeKey : Option String} {signal runSignal : Option Nat} {seed conversation : Conversation}
  {turn : Nat → TurnFate} {message : Message}

theorem le_of_not_aborted {time : Nat} (h : ¬aborted (earlier runSignal deadline) time = true) : time ≤ deadline := by
  cases runSignal with
  | none => simpa [aborted, earlier] using h
  | some stop =>
    simp only [aborted, earlier, Option.elim_some, Option.any_some, decide_eq_true_eq, not_lt] at h
    omega

def settledState : RunEvent → StepState
  | .stepCompleted _ _ => .completed
  | .stepFailed _ _ => .crashed
  | _ => .blocked

def Execution.log (execution : Execution) (path : NodePath) (isOptional : Bool) : List RunEvent :=
  (execution.notes.filter (·.1 ≤ execution.endedAt)).map (fun note => note.2.event path) ++
    (execution.settled path isOptional).toList ++
      (execution.notes.filter (execution.endedAt < ·.1)).map (fun note => note.2.event path)

/-- No attempt records anything after its timer, nothing is billed after the settlement, and the step stays settled. -/
structure SilentAfterLoss (execution : Execution) : Prop where
  attempts : ∀ number run, .opened number run ∈ execution.moves → Silent run
  settlement : ∀ note ∈ execution.notes, counts note.2 = true → note.1 ≤ execution.endedAt
  states : ∀ path isOptional event prior, execution.settled path isOptional = some event →
    Dict.get (deriveStepStates (prior ++ execution.log path isOptional)) (staticKeyOf path) =
      some (settledState event)

theorem notes_settleTurn_le {fate : TurnFate} {sentAt : Nat} {note : Nat × StepNote}
    (hm : note ∈ (settleTurn policy number resumeKey (earlier runSignal deadline) fate conversation sentAt
      total).notes) : note.1 ≤ deadline := by
  obtain ⟨htime, ha, -⟩ := notes_settleTurn hm
  rw [htime]
  exact le_of_not_aborted ha

theorem notes_runTurns_le_iff : (∀ note ∈ (runTurns policy number resumeKey (earlier runSignal deadline) seed turn
      repairs repair now total conversation message).notes, note.1 ≤ deadline) ↔
    straddles policy number resumeKey (earlier runSignal deadline) seed turn deadline repairs repair now total
      conversation = false := by
  induction repairs generalizing repair now total conversation message with
  | zero =>
    refine iff_of_true ?_ rfl
    unfold runTurns
    split_ifs
    · simp
    · simp only
      intro note hm
      split at hm
      · rename_i hturn
        exact notes_settleTurn_le (by rw [hturn]; exact hm)
      · rename_i hturn
        exact notes_settleTurn_le (by rw [hturn]; exact hm)
  | succ repairs ih =>
    unfold runTurns straddles
    split_ifs
    · simp
    · simp only
      cases hturn : settleTurn policy number resumeKey (earlier runSignal deadline) (turn repair)
          (seed ++ (conversation ++ (turn repair).messages)) now total with
      | ended endedAt result notes =>
        refine iff_of_true ?_ rfl
        intro note hm
        exact notes_settleTurn_le (by rw [hturn]; exact hm)
      | violated recordedAt notes total violation kind =>
        have hnotes : ∀ note ∈ notes, note.1 ≤ deadline := fun note hm =>
          notes_settleTurn_le (by rw [hturn]; exact hm)
        cases hsteered : (turn repair).steered with
        | error failure => exact iff_of_true hnotes rfl
        | ok =>
          simp only [List.mem_append, List.mem_cons, Except.isOk, Except.toBool, Bool.true_and,
            Bool.or_eq_false_iff, decide_eq_false_iff_not, not_lt]
          rw [← ih]
          constructor
          · intro hall
            refine ⟨hall _ (.inr (.inl rfl)), ?_⟩
            intro note hm
            exact hall note (.inr (.inr hm))
          · rintro ⟨hsteer, hrest⟩ note (hm | rfl | hm)
            · exact hnotes note hm
            · exact hsteer
            · exact hrest note hm

theorem notes_runAgentSession_le_iff {fate : SessionFate} :
    (∀ note ∈ (runAgentSession policy entry number startingTokens (earlier runSignal deadline) fate now).notes,
        note.1 ≤ deadline) ↔
      sessionStraddles policy entry number startingTokens (earlier runSignal deadline) fate now deadline = false := by
  unfold runAgentSession sessionStraddles
  cases fate.resumeKey with
  | error error => simp
  | ok resumeKey =>
    cases fate.opened with
    | error error => simp
    | ok =>
      cases firstMessage entry fate with
      | error error => simp
      | ok message => exact notes_runTurns_le_iff

section Execution

variable {name : String} {budgetMs : Option Int} {attempt : Option Nat → SessionRun}
  {consumedMs lateness : Nat} {run : AttemptRun}

theorem withTimeBudget_deadline (hrun : withTimeBudget name budgetMs runSignal attempt consumedMs startingTokens
      lateness now = run) (h : run.deadline = some deadline) :
    run.session = some (attempt (earlier runSignal deadline)) ∧ run.startedAt = now ∧
      run.startingTokens = startingTokens := by
  subst hrun
  unfold withTimeBudget at h ⊢
  split at h
  · simp at h
  · split_ifs at h ⊢ with hleft
    simp only at h ⊢
    split_ifs at h ⊢ with hlost
    · exact ⟨by rw [Option.some.inj h], rfl, rfl⟩
    · exact ⟨by rw [Option.some.inj h], rfl, rfl⟩

def Before (run : AttemptRun) : Prop :=
  ∀ session, run.session = some session → ∀ note ∈ session.notes, counts note.2 = true → note.1 ≤ run.endedAt

theorem frame_withTimeBudget (hattempt : ∀ signal, now ≤ (attempt signal).endedAt ∧
      ∀ note ∈ (attempt signal).notes, counts note.2 = true → note.1 ≤ (attempt signal).endedAt)
    (hrun : withTimeBudget name budgetMs runSignal attempt consumedMs startingTokens lateness now = run) :
    now ≤ run.endedAt ∧ (Silent run → Before run) := by
  subst hrun
  unfold withTimeBudget
  split
  · refine ⟨(hattempt runSignal).1, ?_⟩
    rintro - session hs
    cases hs
    exact (hattempt runSignal).2
  · split_ifs
    · exact ⟨Nat.le_refl _, by simp [Before]⟩
    · simp only
      split_ifs
      · refine ⟨by simp only; omega, ?_⟩
        intro hsilent session hs
        exact hsilent _ session rfl hs
      · refine ⟨(hattempt _).1, ?_⟩
        rintro - session hs
        cases hs
        exact (hattempt _).2

variable {retryPolicy : Option RetryPolicy} {attempts : Nat → Nat → Nat → AttemptRun} {host : Nat → RetryFate}
  {retries tokens : Nat} {execution : Execution}

theorem le_resumesAt (retryPolicy : Option RetryPolicy) (fate : RetryFate) (endedAt : Nat) :
    endedAt ≤ resumesAt retryPolicy fate endedAt := by
  unfold resumesAt
  omega

theorem mem_notes {moves : List LoopMove} {ending : ExecutionEnd} {endedAt : Nat} {note : Nat × StepNote} :
    note ∈ (Execution.mk moves ending endedAt).notes ↔ ∃ move ∈ moves, note ∈ move.notes := List.mem_flatMap

theorem before_opened {opened : Nat} (h : Before run) {note : Nat × StepNote}
    (hm : note ∈ (LoopMove.opened opened run).notes) (hc : counts note.2 = true) : note.1 ≤ run.endedAt := by
  cases hs : run.session with
  | none => simp [LoopMove.notes, hs] at hm
  | some session =>
    simp only [LoopMove.notes, hs, Option.map_some, Option.getD_some] at hm
    exact h session hs note hm hc

theorem frame_retryLoop (hattempts : ∀ number tokens now, now ≤ (attempts number tokens now).endedAt ∧
      (Silent (attempts number tokens now) → Before (attempts number tokens now)))
    (h : Looped retryPolicy runSignal attempts host retries number tokens now execution) :
    now ≤ execution.endedAt ∧ ((∀ number run, .opened number run ∈ execution.moves → Silent run) →
      ∀ note ∈ execution.notes, counts note.2 = true → note.1 ≤ execution.endedAt) := by
  induction h with
  | cancelled => exact ⟨Nat.le_refl _, by simp [Execution.notes]⟩
  | @last _ number tokens now =>
    obtain ⟨hle, hbefore⟩ := hattempts number tokens now
    refine ⟨hle, ?_⟩
    intro hsilent note hm hc
    obtain ⟨move, hmove, hm⟩ := mem_notes.mp hm
    rw [List.mem_singleton] at hmove
    subst hmove
    exact before_opened (hbefore (hsilent number _ List.mem_cons_self)) hm hc
  | @lost _ number tokens now =>
    obtain ⟨hle, hbefore⟩ := hattempts number tokens now
    refine ⟨by simp only; omega, ?_⟩
    intro hsilent note hm hc
    obtain ⟨move, hmove, hm⟩ := mem_notes.mp hm
    rw [List.mem_singleton] at hmove
    subst hmove
    have := before_opened (hbefore (hsilent number _ List.mem_cons_self)) hm hc
    simp only
    omega
  | @again _ number tokens now reason error rest _ _ _ _ ih =>
    obtain ⟨hle, hbefore⟩ := hattempts number tokens now
    obtain ⟨hresumes, hrest⟩ := ih
    have hlater := le_resumesAt retryPolicy (host number) (attempts number tokens now).endedAt
    refine ⟨by simp only; omega, ?_⟩
    intro hsilent note hm hc
    simp only
    obtain ⟨move, hmove, hm⟩ := mem_notes.mp hm
    obtain rfl | hmove := List.mem_cons.mp hmove
    · have := before_opened (hbefore (hsilent number _ List.mem_cons_self)) hm hc
      omega
    · obtain rfl | hmove := List.mem_cons.mp hmove
      · rw [LoopMove.notes, List.mem_singleton] at hm
        subst hm
        simp only
        omega
      · refine hrest ?_ note (mem_notes.mpr ⟨move, hmove, hm⟩) hc
        intro opened run hopened
        exact hsilent opened run (List.mem_cons_of_mem _ (List.mem_cons_of_mem _ hopened))

theorem touchOf_settled {path : NodePath} {isOptional : Bool} {event : RunEvent}
    (h : execution.settled path isOptional = some event) :
    touchOf (staticKeyOf path) event = some (.put (settledState event)) := by
  have hs := settlesWith execution path isOptional
  generalize execution.ending = ending at hs
  rw [h] at hs
  cases hs with
  | completed => simp [touchOf, touchAt, settledState]
  | failed => simp [touchOf, touchAt, settledState]
  | asked => simp [touchOf, touchAt, settledState]

theorem touchOf_uncounted (key path : NodePath) {note : StepNote} (h : counts note = false) :
    touchOf key (note.event path) = none := by
  cases note with
  | log => rfl
  | retry => simp [counts] at h
  | steer => simp [counts] at h
  | agentError => simp [counts] at h
  | usage => simp [counts] at h

theorem viewOf_untouched (key : NodePath) (events later : List RunEvent)
    (h : ∀ event ∈ later, touchOf key event = none) : viewOf key (events ++ later) = viewOf key events := by
  induction later generalizing events with
  | nil => rw [List.append_nil]
  | cons event rest ih =>
    rw [← List.singleton_append, ← List.append_assoc, ih _ (fun other hm => h other (List.mem_cons_of_mem _ hm))]
    simp [viewOf, KeyView.next, h event (by simp)]

theorem states_of_settlement (h : ∀ note ∈ execution.notes, counts note.2 = true → note.1 ≤ execution.endedAt)
    (path : NodePath) (isOptional : Bool) (event : RunEvent) (prior : List RunEvent)
    (hs : execution.settled path isOptional = some event) :
    Dict.get (deriveStepStates (prior ++ execution.log path isOptional)) (staticKeyOf path) =
      some (settledState event) := by
  have hlater : ∀ event ∈ (execution.notes.filter (execution.endedAt < ·.1)).map (fun note => note.2.event path),
      touchOf (staticKeyOf path) event = none := by
    intro event hm
    obtain ⟨note, hnote, rfl⟩ := List.mem_map.mp hm
    obtain ⟨hm, hlate⟩ := List.mem_filter.mp hnote
    apply touchOf_uncounted
    by_contra hc
    have := h note hm (by simpa using hc)
    simp only [decide_eq_true_eq] at hlate
    omega
  rw [get_deriveStepStates, Execution.log, ← List.append_assoc, viewOf_untouched _ _ _ hlater, hs,
    Option.toList_some, ← List.append_assoc]
  simp [viewOf, KeyView.next, touchOf_settled hs, KeyView.touch]

theorem silentAfterLoss (h : ∀ number run, .opened number run ∈ execution.moves → Silent run)
    (hbooks : (∀ number run, .opened number run ∈ execution.moves → Silent run) →
      ∀ note ∈ execution.notes, counts note.2 = true → note.1 ≤ execution.endedAt) :
    SilentAfterLoss execution :=
  ⟨h, hbooks h, states_of_settlement (hbooks h)⟩

end Execution

theorem silent_agentAttempt_iff {budgetMs : Option Int} {host : AgentHost} {tokens at_ : Nat} {run : AttemptRun}
    (h : agentAttempt policy entry budgetMs host number tokens at_ = run) :
    Silent run ↔ ¬TimerStraddles policy entry host number run := by
  constructor
  · rintro hsilent ⟨deadline, hd, hstraddles⟩
    obtain ⟨hsession, hstart, htokens⟩ := withTimeBudget_deadline h hd
    rw [hstart, htokens] at hstraddles
    have hle : ∀ note ∈ (runAgentSession policy entry number tokens (earlier host.runSignal deadline)
        (host.session number) at_).notes, note.1 ≤ deadline :=
      fun note hm => hsilent deadline _ hd hsession note hm (frame_runAgentSession.2 note hm).1
    rw [notes_runAgentSession_le_iff.mp hle] at hstraddles
    exact absurd hstraddles (by simp)
  · intro hnot deadline session hd hs note hm _
    obtain ⟨hsession, hstart, htokens⟩ := withTimeBudget_deadline h hd
    rw [hsession, Option.some_inj] at hs
    subst hs
    refine notes_runAgentSession_le_iff.mpr ?_ note hm
    by_contra hstraddles
    refine hnot ⟨deadline, hd, ?_⟩
    rw [hstart, htokens]
    simpa using hstraddles

theorem silent_functionAttempt {work : FunctionPolicy} {budgetMs : Option Int} {host : FunctionHost}
    {tokens at_ : Nat} {run : AttemptRun} (h : functionAttempt work budgetMs host number tokens at_ = run) :
    Silent run := by
  intro deadline session _ hs note hm hc
  subst h
  obtain ⟨signal, rfl⟩ := session_withTimeBudget hs
  obtain ⟨entry, -, rfl⟩ := List.mem_map.mp hm
  simp [counts] at hc

theorem silentAfterLoss_crashed (error : String) (now : Nat) :
    SilentAfterLoss { ending := .settled (.crashed error), endedAt := now } := by
  apply silentAfterLoss
  · simp
  · simp [Execution.notes]

theorem silentAfterLoss_agentLoop {budgetMs : Option Int} {host : AgentHost} {tokens : Nat} {execution : Execution}
    (h : Looped policy.retry host.runSignal (agentAttempt policy entry budgetMs host) host.retry repairs number tokens
      now execution) :
    SilentAfterLoss execution ↔
      ∀ number run, .opened number run ∈ execution.moves → ¬TimerStraddles policy entry host number run := by
  have hsilent : ∀ number run, .opened number run ∈ execution.moves →
      (Silent run ↔ ¬TimerStraddles policy entry host number run) := by
    intro number run hm
    obtain ⟨carried, at_, hrun⟩ := h.opened hm
    exact silent_agentAttempt_iff hrun.symm
  constructor
  · intro hloss number run hm
    exact (hsilent number run hm).mp (hloss.attempts number run hm)
  · intro hnot
    refine silentAfterLoss (fun number run hm => (hsilent number run hm).mpr (hnot number run hm)) ?_
    refine (frame_retryLoop ?_ h).2
    intro number tokens now
    refine frame_withTimeBudget ?_ rfl
    intro signal
    exact ⟨frame_runAgentSession.1, fun note hm _ => (frame_runAgentSession.2 note hm).2⟩

theorem silentAfterLoss_functionLoop {work : FunctionPolicy} {budgetMs : Option Int} {host : FunctionHost}
    {tokens : Nat} {execution : Execution}
    (h : Looped work.retry host.runSignal (functionAttempt work budgetMs host) host.retry repairs number tokens now
      execution) : SilentAfterLoss execution := by
  apply silentAfterLoss
  · intro number run hm
    obtain ⟨carried, at_, hrun⟩ := h.opened hm
    exact silent_functionAttempt hrun.symm
  · refine (frame_retryLoop ?_ h).2
    intro number tokens now
    refine frame_withTimeBudget ?_ rfl
    intro signal
    refine ⟨Nat.le_add_right _ _, ?_⟩
    intro note hm hc
    obtain ⟨entry, -, rfl⟩ := List.mem_map.mp hm
    simp [counts] at hc

/-- Attempts are silent after their timers exactly if no timer fires in the middle of a correction. -/
theorem silentAfterLoss_iff (policy : AgentPolicy) (work : FunctionPolicy) (budget : Except String (Option Int))
    (host : AgentHost) (workHost : FunctionHost) (entry : AgentEntry) (now : Nat) :
    (SilentAfterLoss (runAgentStep policy budget host entry now) ↔
      ∀ number run, .opened number run ∈ (runAgentStep policy budget host entry now).moves →
        ¬TimerStraddles policy entry host number run) ∧
    SilentAfterLoss (runFunctionStep work budget workHost now) := by
  cases budget with
  | error error =>
    refine ⟨iff_of_true (silentAfterLoss_crashed error now) ?_, silentAfterLoss_crashed error now⟩
    simp [runAgentStep]
  | ok budgetMs => exact ⟨silentAfterLoss_agentLoop looped_retryLoop, silentAfterLoss_functionLoop looped_retryLoop⟩

def reviewPolicy : AgentPolicy where
  step := { name := "review", outputSchema := some { violations := fun _ => none }, isOptional := true }
  maxOutputRepairs := some 1
  readQuestions := fun _ => .error "no questions"

/-- The reply arrives halfway through the budget and takes longer than what is left to be recorded. -/
def slowAppends : AgentHost where
  session _ := { prompt := .ok "review it", turn := fun _ =>
    { takes := 50, reply := .ok { text := "done", usage := some 7 }, recording := 100, steering := 5 } }

def reviewPath : NodePath := [{ name := "review" }]

/-- The correction is recorded after the timer, and reopens a step that has failed. -/
theorem steers_after_timer : ¬SilentAfterLoss (runAgentStep reviewPolicy (.ok (some 100)) slowAppends .fresh 0) ∧
    ((runAgentStep reviewPolicy (.ok (some 100)) slowAppends .fresh 0).settled reviewPath true).map settledState =
      some .crashed ∧
    Dict.get (deriveStepStates (.stepStarted reviewPath .undefined ::
      (runAgentStep reviewPolicy (.ok (some 100)) slowAppends .fresh 0).log reviewPath true)) (staticKeyOf reviewPath) =
        some .inProgress := by
  have hsettled : ((runAgentStep reviewPolicy (.ok (some 100)) slowAppends .fresh 0).settled reviewPath true).map
      settledState = some .crashed := by decide +kernel
  have hstate : Dict.get (deriveStepStates ([.stepStarted reviewPath .undefined] ++
      (runAgentStep reviewPolicy (.ok (some 100)) slowAppends .fresh 0).log reviewPath true)) (staticKeyOf reviewPath) =
        some .inProgress := by decide +kernel
  refine ⟨?_, hsettled, hstate⟩
  intro h
  obtain ⟨event, hevent, hcrashed⟩ := Option.map_eq_some_iff.mp hsettled
  have := h.states reviewPath true event [.stepStarted reviewPath .undefined] hevent
  rw [hstate, hcrashed] at this
  simp at this

end KimchiWorkflows.Engine.StepRunner
