import KimchiWorkflows.Engine.ReportedAttempts
import Mathlib.Data.List.Induction

namespace KimchiWorkflows.Engine.StepRunner

open KimchiWorkflows.Flow KimchiWorkflows.Engine

def opensIn (link : ChainLink) : Nat := (openings link.execution.moves).length

def failsIn (link : ChainLink) : Nat := failures link.execution.moves

/-- An answer continues the attempt that asked, so the first attempt of a continuation is no new one. -/
def attemptsOpened : List ChainLink → Nat
  | [] => 0
  | first :: rest => opensIn first + (rest.map (fun link => opensIn link - 1)).sum

def ChainLink.upTo (moves : List LoopMove) (link : ChainLink) : ChainLink :=
  { link with execution := { link.execution with moves := moves } }

structure SpansContinuations (policy : AgentPolicy) (chain : List ChainLink) : Prop where
  attempts : attemptsOpened chain ≤ maxRetries policy.retry + 1
  numbers : (chain.flatMap (fun link => reported link.execution.moves)).Pairwise (· ≤ ·)
  settles : ∀ before link after front number run back, chain = before ++ link :: after →
    link.execution.moves = front ++ .opened number run :: back → run.fails = true →
    maxRetries policy.retry < attemptsOpened (before ++ [link.upTo (front ++ [.opened number run])]) →
      back = [] ∧ ∃ error, link.execution.ending = .settled (.crashed error)

/-- Few enough attempts fail in the chain, and at most one in a call before another call with a failure. -/
structure FewFailures (policy : AgentPolicy) (chain : List ChainLink) : Prop where
  reported : ∀ before link between later after, chain = before ++ link :: (between ++ later :: after) →
    FirstReports (maxRetries policy.retry) 1 later.call.host.retry later.execution.moves → failsIn link ≤ 1
  spent : ∀ before link after, chain = before ++ link :: after → 0 < failsIn link →
    (before.map failsIn).sum = 0 ∨ (before.map failsIn).sum + failsIn link ≤ maxRetries policy.retry

variable {policy : AgentPolicy} {entry : AgentEntry} {chain : List ChainLink}

def blocks (link : ChainLink) : Prop :=
  ∃ questionnaire conversation violation elapsedMs tokensUsed,
    link.execution.ending = .settled (.blocked questionnaire conversation violation elapsedMs tokensUsed)

structure CallFacts (policy : AgentPolicy) (link : ChainLink) : Prop where
  opens_le : opensIn link ≤ maxRetries policy.retry + 1
  opens_le_fails : opensIn link ≤ failsIn link + 1
  split : ∀ front number run back, link.execution.moves = front ++ .opened number run :: back → run.fails = true →
    (openings front).length + 1 = number ∧ number ≤ failsIn link ∧ number ≤ maxRetries policy.retry + 1 ∧
      ((back = [] ∧ ∃ error, link.execution.ending = .settled (.crashed error)) ↔
        number = maxRetries policy.retry + 1)
  failed : ∀ k, k < failsIn link →
    ∃ front run back, link.execution.moves = front ++ .opened (1 + k) run :: back ∧ run.fails = true
  sorted : (reported link.execution.moves).Pairwise (· ≤ ·) ∧ ∀ other ∈ reported link.execution.moves, 1 ≤ other
  reports : (reported link.execution.moves ≠ [] →
      FirstReports (maxRetries policy.retry) 1 link.call.host.retry link.execution.moves) ∧
    (FirstReports (maxRetries policy.retry) 1 link.call.host.retry link.execution.moves →
      1 ∈ reported link.execution.moves)
  blocked : blocks link → opensIn link = failsIn link + 1 ∧
    ∀ other, other ∈ reported link.execution.moves ↔ 1 ≤ other ∧ other ≤ failsIn link

theorem reportsItself_agentAttempt {budgetMs : Option Int} {host : AgentHost} :
    ReportsItself (agentAttempt policy entry budgetMs host) := by
  intro number tokens now other hm
  obtain ⟨note, hnote, hother⟩ := List.mem_filterMap.mp hm
  cases hs : (agentAttempt policy entry budgetMs host number tokens now).session with
  | none => simp [hs] at hnote
  | some session =>
    simp only [hs, Option.map_some, Option.getD_some] at hnote
    exact reports_agentAttempt rfl hs note hnote other hother

theorem failures_append (front back : List LoopMove) : failures (front ++ back) = failures front + failures back := by
  simp [failures]

theorem callFacts_runCall (call : EngineCall) : CallFacts policy (runCall policy entry call) := by
  cases hbudget : call.budget with
  | error error =>
    have hmoves : (runCall policy entry call).execution.moves = [] := by simp [runCall, runAgentStep, hbudget]
    have hending : (runCall policy entry call).execution.ending = .settled (.crashed error) := by
      simp [runCall, runAgentStep, hbudget]
    refine ⟨?_, ?_, ?_, ?_, ?_, ?_, ?_⟩
    · simp [opensIn, hmoves, openings]
    · simp [opensIn, hmoves, openings]
    · simp [hmoves]
    · simp [failsIn, hmoves]
    · simp [hmoves]
    · simp [hmoves, FirstReports]
    · rintro ⟨_, _, _, _, _, hblocked⟩
      simp [hending] at hblocked
  | ok budgetMs =>
    have h := looped_runCall policy entry hbudget
    refine ⟨h.openings_le, h.openings_le_failures, ?_, fun k hk => h.failed_at hk,
      h.reported_sorted reportsItself_agentAttempt, h.reported_iff reportsItself_agentAttempt, ?_⟩
    · intro front number run back hsplit hfails
      obtain ⟨hnumber, hfailures, hle, hlast⟩ := h.split hsplit hfails
      refine ⟨hnumber, ?_, by omega, by rw [hlast]; omega⟩
      rw [failsIn, hsplit, failures_append, failures_opened, hfails]
      simp only [if_true]
      omega
    · rintro ⟨questionnaire, conversation, violation, elapsedMs, tokensUsed, hblocked⟩
      refine ⟨h.openings_of_blocked hblocked, ?_⟩
      intro other
      rw [h.mem_reported reportsItself_agentAttempt hblocked, failsIn]
      omega

theorem Chained.facts (h : Chained policy entry chain) {link : ChainLink} (hm : link ∈ chain) :
    CallFacts policy link := by
  rw [h.eq_runCall hm]
  exact callFacts_runCall link.call

theorem Chained.blocks_before (h : Chained policy entry chain) {before after : List ChainLink} {link : ChainLink}
    (hsplit : chain = before ++ link :: after) {earlier : ChainLink} (hm : earlier ∈ before) : blocks earlier := by
  induction h generalizing before with
  | nil => simp at hsplit
  | last =>
    cases before with
    | nil => simp at hm
    | cons => simp at hsplit
  | answered hnext hrest ih =>
    cases before with
    | nil => simp at hm
    | cons head before =>
      rw [List.cons_append, List.cons.injEq] at hsplit
      obtain ⟨rfl, hsplit⟩ := hsplit
      obtain rfl | hm := List.mem_cons.mp hm
      · obtain ⟨_, _, _, _, _, hending, -⟩ := continuation_eq_some hnext
        exact ⟨_, _, _, _, _, hending⟩
      · exact ih hsplit hm

theorem sum_opens {before : List ChainLink} (h : ∀ link ∈ before, opensIn link = failsIn link + 1) :
    (before.map (fun link => opensIn link - 1)).sum = (before.map failsIn).sum := by
  congr 1
  apply List.map_congr_left
  intro link hm
  rw [h link hm, Nat.add_sub_cancel]

theorem attemptsOpened_append {before : List ChainLink} (h : ∀ link ∈ before, opensIn link = failsIn link + 1)
    (link : ChainLink) :
    attemptsOpened (before ++ [link]) ≤ (before.map failsIn).sum + max 1 (opensIn link) ∧
      (0 < opensIn link → attemptsOpened (before ++ [link]) = (before.map failsIn).sum + opensIn link) := by
  cases before with
  | nil =>
    simp only [List.nil_append, attemptsOpened, List.map_nil, List.sum_nil]
    omega
  | cons first before =>
    have hfirst := h first List.mem_cons_self
    have hrest := sum_opens (fun link hm => h link (List.mem_cons_of_mem _ hm))
    simp only [List.cons_append, attemptsOpened, List.map_append, List.map_cons, List.map_nil, List.sum_append,
      List.sum_cons, List.sum_nil, hrest]
    omega

theorem opensIn_upTo {link : ChainLink} {front : List LoopMove} {number : Nat} {run : AttemptRun} :
    opensIn (link.upTo (front ++ [.opened number run])) = (openings front).length + 1 := by
  have hopenings : ∀ moves back, openings (moves ++ back) = openings moves ++ openings back := by
    intro moves back
    induction moves with
    | nil => rfl
    | cons move moves ih =>
      cases move with
      | opened number run => simp [openings, ih]
      | retried => simp [openings, ih]
  simp [opensIn, ChainLink.upTo, hopenings, openings]

theorem attempts_upTo (hchain : Chained policy entry chain) {before after : List ChainLink} {front back : List LoopMove}
    {link : ChainLink} {number : Nat} {run : AttemptRun} (hsplit : chain = before ++ link :: after)
    (hmoves : link.execution.moves = front ++ .opened number run :: back) (hfails : run.fails = true) :
    attemptsOpened (before ++ [link.upTo (front ++ [.opened number run])]) = (before.map failsIn).sum + number := by
  have hlink : link ∈ chain := by simp [hsplit]
  obtain ⟨hnumber, -⟩ := (hchain.facts hlink).split front number run back hmoves hfails
  have hbefore : ∀ earlier ∈ before, opensIn earlier = failsIn earlier + 1 := fun earlier hm =>
    ((hchain.facts (by simp [hsplit, hm])).blocked (hchain.blocks_before hsplit hm)).1
  have hopens : opensIn (link.upTo (front ++ [.opened number run])) = number := by rw [opensIn_upTo, hnumber]
  rw [(attemptsOpened_append hbefore _).2 (by omega), hopens]

theorem reported_le_of_sorted {before rest : List ChainLink} {link later : ChainLink}
    (h : ((before ++ link :: rest).flatMap (fun link => reported link.execution.moves)).Pairwise (· ≤ ·))
    (hlater : later ∈ rest) {one other : Nat} (hone : one ∈ reported link.execution.moves)
    (hother : other ∈ reported later.execution.moves) : one ≤ other := by
  have hpairs := (List.pairwise_flatMap.mp h).2
  have hlink := (List.pairwise_append.mp hpairs).2.1
  exact (List.pairwise_cons.mp hlink).1 later hlater one hone other hother

theorem few_of_spans (hchain : Chained policy entry chain) (h : SpansContinuations policy chain) :
    FewFailures policy chain := by
  constructor
  · intro before link between later after hsplit hfirst
    by_contra hmany
    have hlink : link ∈ chain := by simp [hsplit]
    have hlater : later ∈ chain := by simp [hsplit]
    have hblocks : blocks link := by
      have hprefix : chain = (before ++ link :: between) ++ later :: after := by simp [hsplit]
      exact hchain.blocks_before hprefix (by simp)
    have htwo : 2 ∈ reported link.execution.moves := (((hchain.facts hlink).blocked hblocks).2 2).mpr (by omega)
    have hone := (hchain.facts hlater).reports.2 hfirst
    have hsorted := h.numbers
    rw [hsplit] at hsorted
    have := reported_le_of_sorted hsorted (by simp) htwo hone
    omega
  · intro before link after hsplit hpos
    by_contra hmany
    have hlink : link ∈ chain := by simp [hsplit]
    have hfacts := hchain.facts hlink
    generalize hspent : (before.map failsIn).sum = spent at hmany
    -- the attempt at which the budget of the chain is used up is not the last one allowed in its call
    obtain ⟨front, run, back, hmoves, hfails⟩ := hfacts.failed (max 1 (maxRetries policy.retry + 1 - spent) - 1)
      (by omega)
    have hattempts := attempts_upTo hchain hsplit hmoves hfails
    obtain ⟨-, -, hle, hlast⟩ := hfacts.split _ _ _ _ hmoves hfails
    have hnumber := hlast.mp (h.settles before link after _ _ _ _ hsplit hmoves hfails (by omega))
    have hretries : 0 < maxRetries policy.retry := by
      by_contra hzero
      obtain ⟨count, hcount, hfailed⟩ := List.sum_pos_iff_exists_pos_nat.mp (show 0 < (before.map failsIn).sum by omega)
      obtain ⟨earlier, hm, rfl⟩ := List.mem_map.mp hcount
      have hearlier := hchain.facts (show earlier ∈ chain by simp [hsplit, hm])
      have := (hearlier.blocked (hchain.blocks_before hsplit hm)).1
      have := hearlier.opens_le
      omega
    omega

theorem spent_le (hchain : Chained policy entry chain) (h : FewFailures policy chain) {before after : List ChainLink}
    {link : ChainLink} (hsplit : chain = before ++ link :: after) :
    (before.map failsIn).sum ≤ maxRetries policy.retry := by
  induction before using List.reverseRecOn generalizing link after with
  | nil => exact Nat.zero_le _
  | append_singleton before last ih =>
    have hearlier : chain = before ++ last :: (link :: after) := by simp [hsplit]
    have hlast : last ∈ chain := by simp [hearlier]
    have hblocked := ((hchain.facts hlast).blocked (hchain.blocks_before hsplit (by simp))).1
    have hopens := (hchain.facts hlast).opens_le
    have hbefore := ih hearlier
    simp only [List.map_append, List.map_cons, List.map_nil, List.sum_append, List.sum_cons, List.sum_nil]
    by_cases hpos : 0 < failsIn last
    · obtain hzero | hfew := h.spent before last (link :: after) hearlier hpos
      · omega
      · omega
    · omega

theorem pairwise_of_splits {α : Type} {R : α → α → Prop} {list : List α}
    (h : ∀ before one between other after, list = before ++ one :: (between ++ other :: after) → R one other) :
    list.Pairwise R := by
  induction list with
  | nil => exact .nil
  | cons head rest ih =>
    refine .cons ?_ (ih ?_)
    · intro other hm
      obtain ⟨between, after, rfl⟩ := List.append_of_mem hm
      exact h [] head between other after rfl
    · intro before one between other after hsplit
      exact h (head :: before) one between other after (by rw [hsplit]; rfl)

theorem spans_of_few (hchain : Chained policy entry chain) (h : FewFailures policy chain) :
    SpansContinuations policy chain := by
  constructor
  · induction chain using List.reverseRecOn with
    | nil => exact Nat.zero_le _
    | append_singleton before last _ =>
      have hspent := spent_le hchain h rfl
      have hbefore : ∀ earlier ∈ before, opensIn earlier = failsIn earlier + 1 := fun earlier hm =>
        ((hchain.facts (by simp [hm])).blocked (hchain.blocks_before rfl hm)).1
      have hattempts := (attemptsOpened_append hbefore last).1
      have hfacts : CallFacts policy last := hchain.facts (by simp)
      have := hfacts.opens_le
      have := hfacts.opens_le_fails
      by_cases hpos : 0 < failsIn last
      · obtain hzero | hfew := h.spent before last [] rfl hpos
        · omega
        · omega
      · omega
  · rw [List.pairwise_flatMap]
    refine ⟨fun link hm => (hchain.facts hm).sorted.1, pairwise_of_splits ?_⟩
    intro before link between later after hsplit one hone other hother
    have hlater : later ∈ chain := by simp [hsplit]
    have hfirst := (hchain.facts hlater).reports.1 (List.ne_nil_of_mem hother)
    have hfew := h.reported before link between later after hsplit hfirst
    have hblocks : blocks link := by
      have hprefix : chain = (before ++ link :: between) ++ later :: after := by simp [hsplit]
      exact hchain.blocks_before hprefix (by simp)
    have hlink : link ∈ chain := by simp [hsplit]
    have := (((hchain.facts hlink).blocked hblocks).2 one).mp hone
    have := (hchain.facts hlater).sorted.2 other hother
    omega
  · intro before link after front number run back hsplit hmoves hfails hspent
    have hlink : link ∈ chain := by simp [hsplit]
    have hfacts := hchain.facts hlink
    obtain ⟨hnumber, hcount, hle, hlast⟩ := hfacts.split front number run back hmoves hfails
    rw [attempts_upTo hchain hsplit hmoves hfails] at hspent
    apply hlast.mpr
    obtain hzero | hfew := h.spent before link after hsplit (by omega)
    · omega
    · omega

/-- A chain keeps to one retry budget exactly if few enough of its attempts fail. -/
theorem spansContinuations_iff (policy : AgentPolicy) (calls : List EngineCall) :
    SpansContinuations policy (runChain policy calls .fresh) ↔ FewFailures policy (runChain policy calls .fresh) :=
  ⟨few_of_spans chained_runChain, spans_of_few chained_runChain⟩

def flakyPolicy : AgentPolicy := { surveyPolicy with retry := some { maxRetry := 2 }, maxTokens := none }

def askingAfter (failed : Nat) : EngineCall where
  host := { session := fun number => { prompt := .ok "ask", turn := fun _ =>
    if number ≤ failed then { takes := 1, reply := .error "connection lost" }
    else { takes := 1, reply := .ok { text := "", submitted := some ⟨submitQuestionsTool, []⟩ } } } }
  budget := .ok none
  startedAt := 0

/-- The continuation gets the whole retry budget again and starts to count at one. -/
theorem continuation_restarts_count :
    ¬SpansContinuations flakyPolicy (runChain flakyPolicy [askingAfter 2, askingAfter 1] .fresh) ∧
    attemptsOpened (runChain flakyPolicy [askingAfter 2, askingAfter 1] .fresh) = 4 ∧
    (runChain flakyPolicy [askingAfter 2, askingAfter 1] .fresh).flatMap
      (fun link => reported link.execution.moves) = [1, 2, 1] := by
  have hattempts : attemptsOpened (runChain flakyPolicy [askingAfter 2, askingAfter 1] .fresh) = 4 := by
    decide +kernel
  refine ⟨?_, hattempts, by decide +kernel⟩
  intro h
  have := h.attempts
  rw [hattempts] at this
  simp [flakyPolicy, maxRetries] at this

end KimchiWorkflows.Engine.StepRunner
