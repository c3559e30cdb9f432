import KimchiWorkflows.Engine.AttemptAccounting
import KimchiWorkflows.Engine.SessionBilling

namespace KimchiWorkflows.Engine.StepRunner

open KimchiWorkflows.Flow KimchiWorkflows.Engine

/-- One call of the engine, and what is answered to the question that it ends with, if it does. -/
structure EngineCall where
  host : AgentHost
  budget : Except String (Option Int)
  startedAt : Nat
  answers : Record := []

structure ChainLink where
  entry : AgentEntry
  call : EngineCall
  execution : Execution

/-- The next call takes the step up with what the block recorded. -/
def continuation (answers : Record) : ExecutionEnd → Option AgentEntry
  | .settled (.blocked _ conversation _ elapsedMs tokensUsed) =>
    some (.answer { answers := answers, conversation := conversation, elapsedMs := elapsedMs, tokensUsed := tokensUsed })
  | _ => none

def runCall (policy : AgentPolicy) (entry : AgentEntry) (call : EngineCall) : ChainLink where
  entry := entry
  call := call
  execution := runAgentStep policy call.budget call.host entry call.startedAt

def runChain (policy : AgentPolicy) : List EngineCall → AgentEntry → List ChainLink
  | [], _ => []
  | call :: calls, entry =>
    runCall policy entry call ::
      ((continuation call.answers (runCall policy entry call).execution.ending).map (runChain policy calls)).getD []

variable {policy : AgentPolicy} {calls : List EngineCall} {entry : AgentEntry} {chain : List ChainLink}

inductive Chained (policy : AgentPolicy) : AgentEntry → List ChainLink → Prop where
  | nil (entry : AgentEntry) : Chained policy entry []
  | last (entry : AgentEntry) (call : EngineCall) : Chained policy entry [runCall policy entry call]
  | answered {entry next : AgentEntry} {call : EngineCall} {rest : List ChainLink}
      (h : continuation call.answers (runCall policy entry call).execution.ending = some next)
      (hrest : Chained policy next rest) : Chained policy entry (runCall policy entry call :: rest)

theorem chained_runChain : Chained policy entry (runChain policy calls entry) := by
  induction calls generalizing entry with
  | nil => exact .nil entry
  | cons call calls ih =>
    unfold runChain
    cases h : continuation call.answers (runCall policy entry call).execution.ending with
    | none => exact .last entry call
    | some next => exact .answered h ih

theorem continuation_eq_some {answers : Record} {ending : ExecutionEnd} {next : AgentEntry}
    (h : continuation answers ending = some next) :
    ∃ questionnaire conversation violation elapsedMs tokensUsed,
      ending = .settled (.blocked questionnaire conversation violation elapsedMs tokensUsed) ∧
        next = .answer { answers := answers, conversation := conversation, elapsedMs := elapsedMs,
                         tokensUsed := tokensUsed } := by
  unfold continuation at h
  split at h
  · exact ⟨_, _, _, _, _, rfl, (Option.some.inj h).symm⟩
  · simp at h

end KimchiWorkflows.Engine.StepRunner

namespace KimchiWorkflows.Engine.StepRunner

open KimchiWorkflows.Flow KimchiWorkflows.Engine

/-- An attempt that counts its tokens and its time from given totals, on top of the conversation of its entry. -/
structure Counts (policy : AgentPolicy) (entry : AgentEntry) (budgetMs : Option Int) (tokens elapsed lateness : Nat)
    (run : AttemptRun) : Prop where
  starting : run.session.isSome = true → run.startingTokens = tokens
  unstarted : ∀ budget : Int, budgetMs = some budget → budget ≤ elapsed →
    run.session = none ∧ run.result = .retryable .budgetExceeded (budgetError policy.step.name budget)
  timed : ∀ budget : Int, budgetMs = some budget → elapsed < budget →
    run.session.isSome = true ∧ run.deadline = some (run.startedAt + (budget - elapsed).toNat + lateness)
  untimed : budgetMs = none → run.session.isSome = true ∧ run.deadline = none
  overdue : ∀ deadline session, run.deadline = some deadline → run.session = some session →
    deadline < session.endedAt → ∃ error, run.result = .retryable .budgetExceeded error
  failed : ∀ session reason error, run.session = some session →
    (∀ deadline, run.deadline = some deadline → session.endedAt ≤ deadline) →
    session.result = .retryable reason error → run.result = .retryable reason error
  billed : ∀ session, run.session = some session →
    Billed policy tokens (AgentEntry.seed entry ++ session.messages) session.result session.notes
  asked : ∀ questionnaire conversation elapsedMs tokensUsed,
    run.result = .blocked questionnaire conversation elapsedMs tokensUsed →
      ∃ session, run.session = some session ∧ conversation = AgentEntry.seed entry ++ session.messages ∧
        tokensUsed = some (tokens + (usages session.notes).sum) ∧
        elapsedMs = budgetMs.map (fun _ => elapsed + (run.endedAt - run.startedAt))

variable {policy : AgentPolicy} {entry : AgentEntry} {budgetMs : Option Int} {host : AgentHost}
  {number tokens elapsed lateness now retries : Nat} {run : AttemptRun} {execution : Execution}

theorem withElapsed_blocked {result : AttemptResult} {spent : Nat} {questionnaire : Questionnaire}
    {conversation : Conversation} {elapsedMs tokensUsed : Option Nat}
    (h : result.withElapsed spent = .blocked questionnaire conversation elapsedMs tokensUsed) :
    ∃ before, result = .blocked questionnaire conversation before tokensUsed ∧ elapsedMs = some spent := by
  cases result with
  | blocked questionnaire' conversation' before tokensUsed' =>
    simp only [AttemptResult.withElapsed, AttemptResult.blocked.injEq] at h
    obtain ⟨rfl, rfl, rfl, rfl⟩ := h
    exact ⟨before, rfl, rfl⟩
  | ok => simp [AttemptResult.withElapsed] at h
  | retryable => simp [AttemptResult.withElapsed] at h
  | fatal => simp [AttemptResult.withElapsed] at h
  | cancelled => simp [AttemptResult.withElapsed] at h
  | thrown => simp [AttemptResult.withElapsed] at h

theorem counts_agentAttempt (h : agentAttempt policy entry budgetMs host number tokens now = run) :
    Counts policy entry budgetMs tokens (if number = 1 then AgentEntry.elapsedMs entry else 0)
      (host.lateness number) run := by
  generalize hconsumed : (if number = 1 then AgentEntry.elapsedMs entry else 0) = consumed
  unfold agentAttempt withTimeBudget at h
  rw [hconsumed] at h
  cases budgetMs with
  | none =>
    simp only at h
    subst h
    refine ⟨fun _ => rfl, by simp, by simp, fun _ => ⟨rfl, rfl⟩, by simp, ?_, ?_, ?_⟩
    · intro session reason error hs _ he
      rw [Option.some_inj] at hs
      rw [← hs] at he
      exact he
    · intro session hs
      rw [Option.some_inj] at hs
      subst hs
      exact billed_runAgentSession rfl
    · intro questionnaire conversation elapsedMs tokensUsed he
      obtain ⟨hconversation, helapsed, htokens⟩ := (billed_runAgentSession rfl).asked _ _ _ _ he
      exact ⟨_, rfl, hconversation, htokens, helapsed⟩
  | some budget =>
    simp only at h
    split_ifs at h with hleft hlost
    · subst h
      refine ⟨by simp, ?_, ?_, by simp, by simp, by simp, by simp, by simp⟩
      · intro budget' hb _
        rw [Option.some_inj] at hb
        subst hb
        exact ⟨rfl, rfl⟩
      · intro budget' hb hlt
        rw [Option.some_inj] at hb
        omega
    · subst h
      refine ⟨fun _ => rfl, ?_, ?_, by simp, fun _ _ _ _ _ => ⟨_, rfl⟩, ?_, ?_, by simp⟩
      · intro budget' hb hle
        rw [Option.some_inj] at hb
        omega
      · intro budget' hb _
        rw [Option.some_inj] at hb
        subst hb
        exact ⟨rfl, rfl⟩
      · intro session reason error hs hin _
        rw [Option.some_inj] at hs
        subst hs
        exact absurd (hin _ rfl) (by omega)
      · intro session hs
        rw [Option.some_inj] at hs
        subst hs
        exact billed_runAgentSession rfl
    · subst h
      refine ⟨fun _ => rfl, ?_, ?_, by simp, ?_, ?_, ?_, ?_⟩
      · intro budget' hb hle
        rw [Option.some_inj] at hb
        omega
      · intro budget' hb _
        rw [Option.some_inj] at hb
        subst hb
        exact ⟨rfl, rfl⟩
      · intro deadline session hd hs hlt
        rw [Option.some_inj] at hd hs
        subst hd hs
        exact absurd hlt hlost
      · intro session reason error hs _ he
        rw [Option.some_inj] at hs
        subst hs
        simp only
        rw [he]
        rfl
      · intro session hs
        rw [Option.some_inj] at hs
        subst hs
        exact billed_runAgentSession rfl
      · intro questionnaire conversation elapsedMs tokensUsed he
        obtain ⟨before, he, helapsed⟩ := withElapsed_blocked he
        obtain ⟨hconversation, -, htokens⟩ := (billed_runAgentSession rfl).asked _ _ _ _ he
        exact ⟨_, rfl, hconversation, htokens, helapsed⟩

theorem Counts.of_no_session (h : Counts policy entry budgetMs tokens elapsed lateness run)
    (hs : run.session = none) (other : Nat) : Counts policy entry budgetMs other elapsed lateness run where
  starting := by simp [hs]
  unstarted := h.unstarted
  timed := h.timed
  untimed := h.untimed
  overdue := h.overdue
  failed := h.failed
  billed session hsession := by simp [hs] at hsession
  asked questionnaire conversation elapsedMs tokensUsed he := by
    obtain ⟨session, hsession, -⟩ := h.asked questionnaire conversation elapsedMs tokensUsed he
    simp [hs] at hsession

theorem counts_continued (h : agentAttempt policy entry budgetMs host 1 tokens now = run) :
    Counts policy entry budgetMs tokens (AgentEntry.elapsedMs entry) (host.lateness 1) run := counts_agentAttempt h

theorem counts_retried (h : agentAttempt policy entry budgetMs host number tokens now = run) (hnumber : number ≠ 1) :
    Counts policy entry budgetMs tokens 0 (host.lateness number) run := by
  have := counts_agentAttempt h
  rwa [if_neg hnumber] at this

section Loop

variable {retryPolicy : Option RetryPolicy} {runSignal : Option Nat} {attempt : Nat → Nat → Nat → AttemptRun}
  {retryFate : Nat → RetryFate} {opened : Nat}

theorem Looped.le_opened (h : Looped retryPolicy runSignal attempt retryFate retries number tokens now execution)
    (hm : .opened opened run ∈ execution.moves) : number ≤ opened := by
  induction h with
  | cancelled => simp at hm
  | last =>
    simp only [List.mem_singleton, LoopMove.opened.injEq] at hm
    omega
  | lost =>
    simp only [List.mem_singleton, LoopMove.opened.injEq] at hm
    omega
  | again _ _ _ _ ih =>
    simp only [List.mem_cons, LoopMove.opened.injEq, reduceCtorEq, false_or] at hm
    obtain ⟨rfl, -⟩ | hm := hm
    · exact Nat.le_refl _
    · have := ih hm
      omega

theorem Looped.opened_zero (h : Looped retryPolicy runSignal attempt retryFate retries number tokens now execution)
    (htokens : tokens = 0) (hm : .opened opened run ∈ execution.moves) : ∃ at_, run = attempt opened 0 at_ := by
  induction h with
  | cancelled => simp at hm
  | @last _ _ _ now =>
    simp only [List.mem_singleton, LoopMove.opened.injEq] at hm
    subst htokens
    exact ⟨now, hm.1 ▸ hm.2⟩
  | @lost _ _ _ now =>
    simp only [List.mem_singleton, LoopMove.opened.injEq] at hm
    subst htokens
    exact ⟨now, hm.1 ▸ hm.2⟩
  | @again _ _ _ now _ _ _ _ _ _ _ ih =>
    simp only [List.mem_cons, LoopMove.opened.injEq, reduceCtorEq, false_or] at hm
    subst htokens
    obtain ⟨rfl, rfl⟩ | hm := hm
    · exact ⟨now, rfl⟩
    · exact ih (by simp) hm

theorem Looped.first_opened (h : Looped retryPolicy runSignal attempt retryFate retries number tokens now execution)
    (hnot : aborted runSignal now = false) : .opened number (attempt number tokens now) ∈ execution.moves := by
  cases h with
  | cancelled h => simp [h] at hnot
  | last => simp
  | lost => simp
  | again => simp

theorem Looped.not_aborted (h : Looped retryPolicy runSignal attempt retryFate retries number tokens now execution)
    {move : LoopMove} (hm : move ∈ execution.moves) : aborted runSignal now = false := by
  cases h with
  | cancelled => simp at hm
  | last h => exact h
  | lost h => exact h
  | again h => exact h

end Loop

theorem agentAttempt_unstarted {budget : Int} (h : budget ≤ AgentEntry.elapsedMs entry) :
    agentAttempt policy entry (some budget) host 1 tokens now =
      { startedAt := now, startingTokens := tokens, endedAt := now
        result := .retryable .budgetExceeded (budgetError policy.step.name budget) } := by
  unfold agentAttempt withTimeBudget
  rw [if_pos rfl]
  simp only
  rw [if_pos (by omega)]

/-- A continuation finds no time left, still has the tokens of the block, and is retried. -/
structure Stranded (policy : AgentPolicy) (budgetMs : Option Int) (entry : AgentEntry) (call : EngineCall) : Prop where
  budget : ∃ budget, budgetMs = some budget ∧ 0 < budget ∧ budget ≤ AgentEntry.elapsedMs entry
  tokens : 0 < AgentEntry.tokensUsed entry
  retries : 0 < maxRetries policy.retry
  started : aborted call.host.runSignal call.startedAt = false
  recorded : (call.host.retry 1).recorded = .ok ()
  resumed : aborted call.host.runSignal (resumesAt policy.retry (call.host.retry 1) call.startedAt) = false

theorem counts_of_retry_iff {call : EngineCall} (hretries : maxRetries policy.retry = retries)
    (hentry : AgentEntry.tokensUsed entry = tokens)
    (h : Looped policy.retry call.host.runSignal (agentAttempt policy entry budgetMs call.host) call.host.retry
      retries 1 tokens call.startedAt execution) :
    (∀ number run, .opened number run ∈ execution.moves → number ≠ 1 →
      Counts policy entry budgetMs 0 0 (call.host.lateness number) run) ↔ ¬Stranded policy budgetMs entry call := by
  cases h with
  | cancelled h =>
    refine iff_of_true (by simp) ?_
    intro hs
    rw [hs.started] at h
    simp at h
  | last h hend =>
    refine iff_of_true ?_ ?_
    · intro number run hm hnumber
      simp only [List.mem_singleton, LoopMove.opened.injEq] at hm
      exact absurd hm.1 hnumber
    · intro hs
      obtain ⟨budget, rfl, hpos, hle⟩ := hs.budget
      obtain hzero | hresult := hend
      · have := hs.retries
        omega
      · rw [agentAttempt_unstarted hle] at hresult
        exact hresult _ _ rfl
  | lost h hresult hrecorded =>
    refine iff_of_true ?_ ?_
    · intro number run hm hnumber
      simp only [List.mem_singleton, LoopMove.opened.injEq] at hm
      exact absurd hm.1 hnumber
    · intro hs
      rw [hs.recorded] at hrecorded
      simp at hrecorded
  | @again retries _ _ _ reason error rest h hresult hrecorded hrest =>
    constructor
    · intro hcounts hs
      obtain ⟨budget, rfl, hpos, hle⟩ := hs.budget
      rw [agentAttempt_unstarted hle] at hrest
      simp only [Option.isSome_none, Bool.false_eq_true, if_false] at hrest
      have hopened := hrest.first_opened hs.resumed
      have hzero := hcounts _ _ (List.mem_cons_of_mem _ (List.mem_cons_of_mem _ hopened)) (by omega)
      generalize hrun : agentAttempt policy entry (some budget) call.host (1 + 1) tokens _ = run at hzero
      have htokens := counts_retried hrun (by omega)
      have hstarted := (hzero.timed budget rfl (by simpa using hpos)).1
      have := hzero.starting hstarted
      have := htokens.starting hstarted
      have := hs.tokens
      omega
    · intro hnot number run hm hnumber
      simp only [List.mem_cons, LoopMove.opened.injEq, reduceCtorEq, false_or] at hm
      obtain ⟨rfl, -⟩ | hm := hm
      · exact absurd rfl hnumber
      · generalize hfirst : agentAttempt policy entry budgetMs call.host 1 tokens call.startedAt = first at hrest
        have hcounts := counts_continued hfirst
        cases hsession : first.session with
        | some session =>
          obtain ⟨at_, rfl⟩ := hrest.opened_zero (by simp [hsession]) hm
          exact counts_retried rfl hnumber
        | none =>
          cases budgetMs with
          | none =>
            have := (hcounts.untimed rfl).1
            simp [hsession] at this
          | some budget =>
            have hle : budget ≤ AgentEntry.elapsedMs entry := by
              by_contra hlt
              have := (hcounts.timed budget rfl (by omega)).1
              simp [hsession] at this
            obtain ⟨carried, at_, hrun⟩ := hrest.opened hm
            have hlater := counts_retried hrun.symm hnumber
            by_cases hpos : 0 < budget
            · -- the carried tokens are still there, so there must have been none
              obtain hzero | htokens := Nat.eq_zero_or_pos tokens
              · obtain ⟨at_, rfl⟩ := hrest.opened_zero (by simp [hzero]) hm
                exact counts_retried rfl hnumber
              · have hresumed := hrest.not_aborted hm
                rw [← hfirst, agentAttempt_unstarted hle] at hresumed
                exact absurd ⟨⟨budget, rfl, hpos, hle⟩, by omega, by omega, h, hrecorded, hresumed⟩ hnot
            · exact hlater.of_no_session (hlater.unstarted budget rfl (by simpa using hpos)).1 0

end KimchiWorkflows.Engine.StepRunner
