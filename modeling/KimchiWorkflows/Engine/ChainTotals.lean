import KimchiWorkflows.Engine.CarriedTotals

namespace KimchiWorkflows.Engine.StepRunner

open KimchiWorkflows.Flow KimchiWorkflows.Engine

def LoopMove.openedRun : LoopMove → Option AttemptRun
  | .opened _ run => some run
  | .retried _ _ _ _ => none

def ChainLink.lastRun (link : ChainLink) : Option AttemptRun :=
  (link.execution.moves.filterMap LoopMove.openedRun).getLast?

def ChainLink.messages (link : ChainLink) : Conversation :=
  ((link.lastRun.bind AttemptRun.session).map SessionRun.messages).getD []

def ChainLink.tokens (link : ChainLink) : Nat :=
  (((link.lastRun.bind AttemptRun.session).map (fun session => usages session.notes)).getD []).sum

def ChainLink.span (link : ChainLink) : Nat := (link.lastRun.map (fun run => run.endedAt - run.startedAt)).getD 0

def isContinuation (link : ChainLink) : Prop := ∃ resume, link.entry = .answer resume

/-- No continuation of the chain is retried; the call that first asked may have been. -/
def Unretried (links : List ChainLink) : Prop :=
  ∀ link ∈ links, isContinuation link → retryNumbers link.execution.moves = []

/-- Every continuation goes on from the totals of its block, a retried one from zero, and the totals add up. -/
structure CarriesEverything (policy : AgentPolicy) (budgetMs : Option Int) (chain : List ChainLink) : Prop where
  continued : ∀ link ∈ chain, ∀ run, .opened 1 run ∈ link.execution.moves →
    Counts policy link.entry budgetMs (AgentEntry.tokensUsed link.entry) (AgentEntry.elapsedMs link.entry)
      (link.call.host.lateness 1) run
  retried : ∀ link ∈ chain, ∀ number run, .opened number run ∈ link.execution.moves → number ≠ 1 →
    Counts policy link.entry budgetMs 0 0 (link.call.host.lateness number) run
  totals : ∀ before link after questionnaire conversation violation elapsedMs tokensUsed,
    chain = before ++ link :: after → Unretried (before ++ [link]) →
    link.execution.ending = .settled (.blocked questionnaire conversation violation elapsedMs tokensUsed) →
      conversation = (before ++ [link]).flatMap ChainLink.messages ∧
      tokensUsed = some ((before ++ [link]).map ChainLink.tokens).sum ∧
      elapsedMs = budgetMs.map (fun _ => ((before ++ [link]).map ChainLink.span).sum)

variable {policy : AgentPolicy} {entry : AgentEntry} {budgetMs : Option Int} {call : EngineCall} {chain : List ChainLink}

section Loop

variable {retryPolicy : Option RetryPolicy} {runSignal : Option Nat} {attempt : Nat → Nat → Nat → AttemptRun}
  {retryFate : Nat → RetryFate} {number opened retries tokens now : Nat} {execution : Execution} {run : AttemptRun}
  {moves : List LoopMove} {questionnaire : Questionnaire} {conversation : Conversation} {violation : Option String}
  {elapsedMs tokensUsed : Option Nat}

theorem Looped.eq_first (h : Looped retryPolicy runSignal attempt retryFate retries number tokens now execution)
    (hm : .opened number run ∈ execution.moves) : run = attempt number tokens now := by
  cases h with
  | cancelled => simp at hm
  | last =>
    simp only [List.mem_singleton, LoopMove.opened.injEq] at hm
    exact hm.2
  | lost =>
    simp only [List.mem_singleton, LoopMove.opened.injEq] at hm
    exact hm.2
  | again _ _ _ hrest =>
    simp only [List.mem_cons, LoopMove.opened.injEq, reduceCtorEq, false_or] at hm
    obtain ⟨-, rfl⟩ | hm := hm
    · rfl
    · have := hrest.le_opened hm
      omega

theorem ending_eq_blocked {result : AttemptResult}
    (h : result.ending = .settled (.blocked questionnaire conversation violation elapsedMs tokensUsed)) :
    result = .blocked questionnaire conversation elapsedMs tokensUsed := by
  cases result with
  | blocked =>
    simp only [AttemptResult.ending, ExecutionEnd.settled.injEq, StepOutcome.blocked.injEq] at h
    obtain ⟨rfl, rfl, -, rfl, rfl⟩ := h
    rfl
  | ok => simp [AttemptResult.ending] at h
  | retryable => simp [AttemptResult.ending] at h
  | fatal => simp [AttemptResult.ending] at h
  | cancelled => simp [AttemptResult.ending] at h
  | thrown => simp [AttemptResult.ending] at h

theorem Paced.ending_blocked
    (h : Paced number moves (.settled (.blocked questionnaire conversation violation elapsedMs tokensUsed))) :
    ∃ before opened run, moves = before ++ [.opened opened run] ∧
      run.result = .blocked questionnaire conversation elapsedMs tokensUsed ∧
      (retryNumbers moves = [] → opened = number) := by
  generalize hending : ExecutionEnd.settled (.blocked questionnaire conversation violation elapsedMs tokensUsed) =
    ending at h
  induction h with
  | cancelled => simp at hending
  | last number run => exact ⟨[], number, run, rfl, ending_eq_blocked hending.symm, fun _ => rfl⟩
  | lost => simp at hending
  | @again number run reason error rest ending at_ h hrest ih =>
    obtain ⟨before, opened, last, rfl, hresult, -⟩ := ih hending
    exact ⟨.opened number run :: .retried at_ number reason error :: before, opened, last, rfl, hresult,
      by simp [retryNumbers]⟩

end Loop

theorem looped_runCall (policy : AgentPolicy) (entry : AgentEntry) (hbudget : call.budget = .ok budgetMs) :
    Looped policy.retry call.host.runSignal (agentAttempt policy entry budgetMs call.host) call.host.retry
      (maxRetries policy.retry) 1 (AgentEntry.tokensUsed entry) call.startedAt (runCall policy entry call).execution := by
  unfold runCall runAgentStep
  rw [hbudget]
  exact looped_retryLoop

theorem block_of_runCall {questionnaire : Questionnaire} {conversation : Conversation} {violation : Option String}
    {elapsedMs tokensUsed : Option Nat} (hbudget : call.budget = .ok budgetMs)
    (hretried : isContinuation (runCall policy entry call) →
      retryNumbers (runCall policy entry call).execution.moves = [])
    (h : (runCall policy entry call).execution.ending =
      .settled (.blocked questionnaire conversation violation elapsedMs tokensUsed)) :
    conversation = AgentEntry.seed entry ++ (runCall policy entry call).messages ∧
    tokensUsed = some (AgentEntry.tokensUsed entry + (runCall policy entry call).tokens) ∧
    elapsedMs = budgetMs.map (fun _ => AgentEntry.elapsedMs entry + (runCall policy entry call).span) := by
  have hlooped := looped_runCall policy entry hbudget
  have hpaced := hlooped.paced
  rw [h] at hpaced
  obtain ⟨before, opened, run, hmoves, hresult, hnumber⟩ := hpaced.ending_blocked
  have hlast : (runCall policy entry call).lastRun = some run := by
    simp [ChainLink.lastRun, hmoves, LoopMove.openedRun]
  have hopened : .opened opened run ∈ (runCall policy entry call).execution.moves := by simp [hmoves]
  have hcounts : Counts policy entry budgetMs (AgentEntry.tokensUsed entry) (AgentEntry.elapsedMs entry)
      (call.host.lateness opened) run := by
    cases entry with
    | fresh =>
      obtain ⟨at_, rfl⟩ := hlooped.opened_zero rfl hopened
      have := counts_agentAttempt (show agentAttempt policy .fresh budgetMs call.host opened 0 at_ = _ from rfl)
      simpa [AgentEntry.elapsedMs, AgentEntry.tokensUsed] using this
    | answer resume =>
      obtain rfl := hnumber (hretried ⟨resume, rfl⟩)
      exact counts_continued (hlooped.eq_first hopened).symm
  obtain ⟨session, hsession, hconversation, htokens, helapsed⟩ := hcounts.asked _ _ _ _ hresult
  refine ⟨?_, ?_, ?_⟩
  · rw [hconversation, ChainLink.messages, hlast, Option.bind_some, hsession]
    rfl
  · rw [htokens, ChainLink.tokens, hlast, Option.bind_some, hsession]
    rfl
  · rw [helapsed, ChainLink.span, hlast]
    rfl

theorem totals_of_chained (h : Chained policy entry chain) (hbudget : ∀ link ∈ chain, link.call.budget = .ok budgetMs)
    {before after : List ChainLink} {link : ChainLink} {questionnaire : Questionnaire} {conversation : Conversation}
    {violation : Option String} {elapsedMs tokensUsed : Option Nat} (hsplit : chain = before ++ link :: after)
    (hretried : Unretried (before ++ [link]))
    (hblocked : link.execution.ending =
      .settled (.blocked questionnaire conversation violation elapsedMs tokensUsed)) :
    conversation = AgentEntry.seed entry ++ (before ++ [link]).flatMap ChainLink.messages ∧
    tokensUsed = some (AgentEntry.tokensUsed entry + ((before ++ [link]).map ChainLink.tokens).sum) ∧
    elapsedMs = budgetMs.map
      (fun _ => AgentEntry.elapsedMs entry + ((before ++ [link]).map ChainLink.span).sum) := by
  induction h generalizing before with
  | nil entry => simp at hsplit
  | last entry call =>
    cases before with
    | cons => simp at hsplit
    | nil =>
      rw [List.nil_append, List.cons.injEq] at hsplit
      obtain ⟨rfl, rfl⟩ := hsplit
      have hcall : call.budget = .ok budgetMs := hbudget (runCall policy entry call) List.mem_cons_self
      simpa using block_of_runCall hcall (hretried (runCall policy entry call) List.mem_cons_self) hblocked
  | @answered entry next call rest hnext hrest ih =>
    cases before with
    | nil =>
      rw [List.nil_append, List.cons.injEq] at hsplit
      obtain ⟨rfl, rfl⟩ := hsplit
      have hcall : call.budget = .ok budgetMs := hbudget (runCall policy entry call) List.mem_cons_self
      simpa using block_of_runCall hcall (hretried (runCall policy entry call) List.mem_cons_self) hblocked
    | cons head before =>
      rw [List.cons_append, List.cons.injEq] at hsplit
      obtain ⟨rfl, hsplit⟩ := hsplit
      obtain ⟨_, _, _, _, _, hfirst, rfl⟩ := continuation_eq_some hnext
      have hcall : call.budget = .ok budgetMs := hbudget (runCall policy entry call) List.mem_cons_self
      obtain ⟨hconversation, htokens, helapsed⟩ := block_of_runCall hcall
        (hretried (runCall policy entry call) List.mem_cons_self) hfirst
      obtain ⟨ihConversation, ihTokens, ihElapsed⟩ := ih (fun link hm => hbudget link (List.mem_cons_of_mem _ hm)) hsplit
        (fun link hm => hretried link (List.mem_cons_of_mem _ hm))
      refine ⟨?_, ?_, ?_⟩
      · rw [ihConversation, AgentEntry.seed, hconversation]
        simp
      · rw [ihTokens, AgentEntry.tokensUsed, htokens]
        simp [Nat.add_assoc]
      · rw [ihElapsed]
        cases budgetMs with
        | none => rfl
        | some budget => simp [AgentEntry.elapsedMs, helapsed, Nat.add_assoc]

theorem Chained.eq_runCall (h : Chained policy entry chain) {link : ChainLink} (hm : link ∈ chain) :
    link = runCall policy link.entry link.call := by
  induction h with
  | nil => simp at hm
  | last entry call =>
    rw [List.mem_singleton] at hm
    rw [hm]
    rfl
  | answered _ _ ih =>
    obtain rfl | hm := List.mem_cons.mp hm
    · rfl
    · exact ih hm

theorem call_of_runChain {calls : List EngineCall} {link : ChainLink} (hm : link ∈ runChain policy calls entry) :
    link.call ∈ calls := by
  induction calls generalizing entry with
  | nil => simp [runChain] at hm
  | cons call calls ih =>
    obtain rfl | hm := List.mem_cons.mp hm
    · exact List.mem_cons_self
    · cases hnext : continuation call.answers (runCall policy entry call).execution.ending with
      | none => simp [hnext] at hm
      | some next =>
        rw [hnext] at hm
        exact List.mem_cons_of_mem _ (ih hm)

def EngineCall.under (budgetMs : Option Int) (call : EngineCall) : EngineCall := { call with budget := .ok budgetMs }

/-- Under a constant time budget a chain carries everything exactly if none of its continuations is stranded. -/
theorem carriesEverything_iff (policy : AgentPolicy) (budgetMs : Option Int) (calls : List EngineCall) :
    CarriesEverything policy budgetMs (runChain policy (calls.map (·.under budgetMs)) .fresh) ↔
      ∀ link ∈ runChain policy (calls.map (·.under budgetMs)) .fresh, ¬Stranded policy budgetMs link.entry link.call := by
  have hchain : Chained policy .fresh (runChain policy (calls.map (·.under budgetMs)) .fresh) := chained_runChain
  have hbudget : ∀ link ∈ runChain policy (calls.map (·.under budgetMs)) .fresh, link.call.budget = .ok budgetMs := by
    intro link hm
    obtain ⟨call, -, hcall⟩ := List.mem_map.mp (call_of_runChain hm)
    rw [← hcall]
    rfl
  generalize runChain policy (calls.map (·.under budgetMs)) .fresh = chain at hchain hbudget
  have hlooped : ∀ link ∈ chain, Looped policy.retry link.call.host.runSignal
      (agentAttempt policy link.entry budgetMs link.call.host) link.call.host.retry (maxRetries policy.retry) 1
      (AgentEntry.tokensUsed link.entry) link.call.startedAt link.execution := by
    intro link hm
    rw [hchain.eq_runCall hm]
    exact looped_runCall policy link.entry (hbudget link hm)
  have hretried : ∀ link ∈ chain, (∀ number run, .opened number run ∈ link.execution.moves → number ≠ 1 →
      Counts policy link.entry budgetMs 0 0 (link.call.host.lateness number) run) ↔
        ¬Stranded policy budgetMs link.entry link.call :=
    fun link hm => counts_of_retry_iff rfl rfl (hlooped link hm)
  constructor
  · intro h link hm
    exact (hretried link hm).mp (h.retried link hm)
  · intro h
    refine ⟨?_, fun link hm => (hretried link hm).mpr (h link hm), ?_⟩
    · intro link hm run hopened
      exact counts_continued ((hlooped link hm).eq_first hopened).symm
    · intro before link after questionnaire conversation violation elapsedMs tokensUsed hsplit hun hblocked
      have := totals_of_chained hchain hbudget hsplit hun hblocked
      simpa [AgentEntry.seed, AgentEntry.tokensUsed, AgentEntry.elapsedMs] using this

/-- Number, starting tokens and start of a session of the attempts of a chain. -/
def starts (chain : List ChainLink) : List (Nat × Nat × Bool) :=
  chain.flatMap fun link => link.execution.moves.filterMap fun move =>
    match move with
    | .opened number run => some (number, run.startingTokens, run.session.isSome)
    | .retried _ _ _ _ => none

def surveyPolicy : AgentPolicy where
  step := { name := "survey", outputSchema := some { violations := fun _ => none }, asks := true }
  retry := some { maxRetry := 1 }
  maxTokens := some 600
  readQuestions := fun _ => .ok { questions := [] }

def asking (takes tokens : Nat) : EngineCall where
  host := { session := fun _ => { prompt := .ok "ask", turn := fun _ =>
    { takes := takes, reply := .ok { text := "", usage := some tokens, submitted := some ⟨submitQuestionsTool, []⟩ } } } }
  budget := .ok none
  startedAt := 0

/-- The first call uses up the whole budget; the retry of its continuation starts with the tokens of the block. -/
theorem retry_keeps_tokens : ¬CarriesEverything surveyPolicy (some 1000)
      (runChain surveyPolicy ([asking 1000 500, asking 10 200].map (·.under (some 1000))) .fresh) ∧
    starts (runChain surveyPolicy ([asking 1000 500, asking 10 200].map (·.under (some 1000))) .fresh) =
      [(1, 0, true), (1, 500, false), (2, 500, true)] := by
  have hstarts : starts (runChain surveyPolicy ([asking 1000 500, asking 10 200].map (·.under (some 1000))) .fresh) =
      [(1, 0, true), (1, 500, false), (2, 500, true)] := by decide +kernel
  refine ⟨?_, hstarts⟩
  intro h
  have hlast : (2, 500, true) ∈
      starts (runChain surveyPolicy ([asking 1000 500, asking 10 200].map (·.under (some 1000))) .fresh) := by
    rw [hstarts]
    simp
  obtain ⟨link, hlink, hmove⟩ := List.mem_flatMap.mp hlast
  obtain ⟨move, hmove, hstart⟩ := List.mem_filterMap.mp hmove
  cases move with
  | retried => simp at hstart
  | opened number run =>
    simp only [Option.some_inj, Prod.mk.injEq] at hstart
    obtain ⟨rfl, htokens, hsession⟩ := hstart
    have := (h.retried link hlink 2 run hmove (by omega)).starting hsession
    omega

end KimchiWorkflows.Engine.StepRunner
