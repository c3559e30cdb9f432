import KimchiWorkflows.Engine.SessionTurns
import Mathlib.Algebra.GroupWithZero.Nat

/-!
What the turns of a session are billed, counted from the tokens it starts with.
-/

namespace KimchiWorkflows.Engine.StepRunner

open KimchiWorkflows.Flow KimchiWorkflows.Engine

def usageOf : StepNote → Option Nat
  | .usage tokens => some tokens
  | _ => none

def usages (notes : Notes) : List Nat := notes.filterMap (fun note => usageOf note.2)

/-- The books of a session: the total of a block, and the first usage that takes the total over the budget. -/
structure Billed (policy : AgentPolicy) (start : Nat) (conversation : Conversation) (result : AttemptResult)
    (notes : Notes) : Prop where
  asked : ∀ questionnaire recorded elapsedMs tokensUsed,
    result = .blocked questionnaire recorded elapsedMs tokensUsed →
      recorded = conversation ∧ elapsedMs = none ∧ tokensUsed = some (start + (usages notes).sum)
  stopped : ∀ budget before at_ tokens after, policy.maxTokens = some budget →
    notes = before ++ (at_, .usage tokens) :: after → budget < start + (usages before).sum + tokens →
      after = [] ∧ result =
        .retryable .budgetExceeded (tokenError policy budget (start + (usages before).sum + tokens))
  exceeded : ∀ error, result = .retryable .budgetExceeded error →
    ∃ budget, policy.maxTokens = some budget ∧ budget < start + (usages notes).sum

variable {policy : AgentPolicy} {attempt repairs repair now total start : Nat} {resumeKey : Option String}
  {signal : Option Nat} {seed conversation : Conversation} {turn : Nat → TurnFate} {message : Message}
  {result : AttemptResult} {notes : Notes}

/-- A turn that goes on to be corrected has at most billed its own usage, and is within the budget. -/
structure Corrected (policy : AgentPolicy) (total : Nat) (notes : Notes) (after : Nat) : Prop where
  billed : (notes = [] ∧ after = total) ∨ ∃ at_ tokens, notes = [(at_, .usage tokens)] ∧ after = total + tokens
  within : ∀ budget, policy.maxTokens = some budget → after ≤ budget

theorem billed_unrecorded (h : ∀ questionnaire recorded elapsedMs tokensUsed,
      result ≠ .blocked questionnaire recorded elapsedMs tokensUsed)
    (hr : ∀ error, result ≠ .retryable .budgetExceeded error) (hn : ∀ note ∈ notes, usageOf note.2 = none) :
    Billed policy start conversation result notes where
  asked questionnaire recorded elapsedMs tokensUsed he := absurd he (h questionnaire recorded elapsedMs tokensUsed)
  stopped budget before at_ tokens after _ hsplit _ := by
    have := hn (at_, .usage tokens) (by simp [hsplit])
    simp [usageOf] at this
  exceeded error he := absurd he (hr error)

def BilledStep (policy : AgentPolicy) (start : Nat) (conversation : Conversation) : TurnStep → Prop
  | .ended _ result notes => Billed policy start conversation result notes
  | .violated _ notes total _ _ => Corrected policy start notes total

theorem billedStep_judgeReply {agentTurn : AgentTurn} {recordedAt after : Nat}
    (h : (notes = [] ∧ after = total) ∨ ∃ at_ tokens, notes = [(at_, .usage tokens)] ∧ after = total + tokens) :
    BilledStep policy total conversation (judgeReply policy agentTurn conversation recordedAt notes after) := by
  have hsum : after = total + (usages notes).sum := by
    obtain ⟨rfl, rfl⟩ | ⟨at_, tokens, rfl, rfl⟩ := h
    · simp [usages]
    · simp [usages, usageOf]
  have hlast : ∀ before at_ tokens rest, notes = before ++ (at_, StepNote.usage tokens) :: rest →
      before = [] ∧ rest = [] ∧ after = total + tokens := by
    intro before at_ tokens rest hsplit
    obtain ⟨rfl, rfl⟩ | ⟨at', tokens', rfl, rfl⟩ := h
    · simp at hsplit
    · cases before with
      | nil =>
        simp only [List.nil_append, List.cons.injEq, Prod.mk.injEq, StepNote.usage.injEq] at hsplit
        exact ⟨rfl, hsplit.2.symm, by rw [hsplit.1.2]⟩
      | cons head before => simp at hsplit
  unfold judgeReply
  split
  · rename_i budget hbudget
    rw [Option.filter_eq_some_iff] at hbudget
    obtain ⟨hmax, hbudget⟩ := hbudget
    refine ⟨by simp, ?_, ?_⟩
    · intro budget' before at_ tokens rest hmax' hsplit hover
      obtain ⟨rfl, rfl, rfl⟩ := hlast before at_ tokens rest hsplit
      rw [hmax, Option.some_inj] at hmax'
      subst hmax'
      simp [usages]
    · rintro error -
      refine ⟨budget, hmax, ?_⟩
      rw [← hsum]
      simpa using hbudget
  · rename_i hwithin
    have hwithin : ∀ budget, policy.maxTokens = some budget → after ≤ budget := by
      intro budget hmax
      simpa [hmax] using hwithin
    have hstopped : ∀ budget before at_ tokens rest, policy.maxTokens = some budget →
        notes = before ++ (at_, StepNote.usage tokens) :: rest → ¬budget < total + (usages before).sum + tokens := by
      intro budget before at_ tokens rest hmax hsplit
      obtain ⟨rfl, rfl, hafter⟩ := hlast before at_ tokens rest hsplit
      have := hwithin budget hmax
      simp only [usages, List.filterMap_nil, List.sum_nil]
      omega
    split
    · exact ⟨by simp, fun budget before at_ tokens rest hmax hsplit hover =>
        absurd hover (hstopped budget before at_ tokens rest hmax hsplit), by simp⟩
    · refine ⟨?_, fun budget before at_ tokens rest hmax hsplit hover =>
        absurd hover (hstopped budget before at_ tokens rest hmax hsplit), by simp⟩
      intro questionnaire recorded elapsedMs tokensUsed he
      rw [AttemptResult.blocked.injEq] at he
      exact ⟨he.2.1.symm, he.2.2.1.symm, by rw [← he.2.2.2, hsum]⟩
    · exact ⟨h, hwithin⟩

theorem billedStep_settleTurn {fate : TurnFate} {sentAt : Nat} :
    BilledStep policy total conversation (settleTurn policy attempt resumeKey signal fate conversation sentAt total) := by
  unfold settleTurn
  simp only
  split
  · split_ifs
    · exact billed_unrecorded (by simp) (by simp) (by simp)
    · exact billed_unrecorded (by simp) (by simp) (by simp)
  · split_ifs
    · exact billed_unrecorded (by simp) (by simp) (by simp)
    · exact billed_unrecorded (by simp) (by simp) (by simp)
    · split
      · unfold recordError
        simp only
        split
        · exact billed_unrecorded (by simp) (by simp) (by simp)
        · refine billed_unrecorded ?_ ?_ (by simp [usageOf])
          · intro questionnaire recorded elapsedMs tokensUsed
            split_ifs
            · simp
            · simp
          · intro error
            split_ifs
            · simp
            · simp
      · split
        · exact billedStep_judgeReply (.inl ⟨rfl, rfl⟩)
        · split
          · exact billed_unrecorded (by simp) (by simp) (by simp)
          · exact billedStep_judgeReply (.inr ⟨_, _, rfl, rfl⟩)

theorem billed_violated {after : Nat} (hc : Corrected policy total notes after)
    (h : ∀ questionnaire recorded elapsedMs tokensUsed,
      result ≠ .blocked questionnaire recorded elapsedMs tokensUsed)
    (hr : ∀ error, result ≠ .retryable .budgetExceeded error) : Billed policy total conversation result notes := by
  refine ⟨fun questionnaire recorded elapsedMs tokensUsed he =>
    absurd he (h questionnaire recorded elapsedMs tokensUsed), ?_, fun error he => absurd he (hr error)⟩
  intro budget before at_ tokens later hmax hsplit hover
  have hwithin := hc.within budget hmax
  obtain ⟨rfl, -⟩ | ⟨at', tokens', rfl, rfl⟩ := hc.billed
  · simp at hsplit
  · cases before with
    | nil =>
      simp only [List.nil_append, List.cons.injEq, Prod.mk.injEq, StepNote.usage.injEq] at hsplit
      simp only [usages, List.filterMap_nil, List.sum_nil] at hover
      omega
    | cons head before => simp at hsplit

theorem billed_corrected {recordedAt after : Nat} {rest : Notes} {correction : StepNote}
    (hc : Corrected policy total notes after) (hcorrection : usageOf correction = none)
    (h : Billed policy after conversation result rest) :
    Billed policy total conversation result (notes ++ (recordedAt, correction) :: rest) := by
  have hsum : total + (usages notes).sum = after := by
    obtain ⟨rfl, rfl⟩ | ⟨at_, tokens, rfl, rfl⟩ := hc.billed
    · simp [usages]
    · simp [usages, usageOf]
  have hall : ∀ later, total + (usages (notes ++ (recordedAt, correction) :: later)).sum =
      after + (usages later).sum := by
    intro later
    rw [← hsum]
    simp [usages, hcorrection]
    omega
  refine ⟨?_, ?_, ?_⟩
  · intro questionnaire recorded elapsedMs tokensUsed he
    rw [hall]
    exact h.asked questionnaire recorded elapsedMs tokensUsed he
  · intro budget before at_ tokens later hmax hsplit hover
    rw [List.append_eq_append_iff] at hsplit
    obtain ⟨between, rfl, hrest⟩ | ⟨between, hnotes, hrest⟩ := hsplit
    · cases between with
      | nil =>
        rw [List.nil_append, List.cons.injEq, Prod.mk.injEq] at hrest
        rw [hrest.1.2] at hcorrection
        simp [usageOf] at hcorrection
      | cons head between =>
        rw [List.cons_append, List.cons.injEq] at hrest
        obtain ⟨rfl, rfl⟩ := hrest
        rw [hall between] at hover ⊢
        exact h.stopped budget between at_ tokens later hmax rfl hover
    · -- a usage among the notes of the turn itself would have ended it
      have hwithin := hc.within budget hmax
      obtain ⟨rfl, -⟩ | ⟨at', tokens', rfl, rfl⟩ := hc.billed
      · have := congrArg List.length hnotes
        cases between with
        | nil =>
          rw [List.nil_append, List.cons.injEq, Prod.mk.injEq] at hrest
          rw [← hrest.1.2] at hcorrection
          simp [usageOf] at hcorrection
        | cons => simp at this
      · cases before with
        | nil =>
          rw [List.nil_append] at hnotes
          rw [← hnotes] at hrest
          simp only [List.cons_append, List.cons.injEq, Prod.mk.injEq, StepNote.usage.injEq] at hrest
          simp only [usages, List.filterMap_nil, List.sum_nil] at hover
          omega
        | cons head before =>
          simp only [List.cons_append, List.cons.injEq, List.nil_eq, List.append_eq_nil_iff] at hnotes
          obtain ⟨-, rfl, rfl⟩ := hnotes
          rw [List.nil_append, List.cons.injEq, Prod.mk.injEq] at hrest
          rw [← hrest.1.2] at hcorrection
          simp [usageOf] at hcorrection
  · intro error he
    rw [hall]
    exact h.exceeded error he

theorem billed_turn {sentAt : Nat} {step : TurnStep} {fate : TurnFate}
    (h : settleTurn policy attempt resumeKey signal fate conversation sentAt total = step) :
    BilledStep policy total conversation step := by
  rw [← h]
  exact billedStep_settleTurn

theorem Turned.billed {run : SessionRun} (h : Turned policy attempt resumeKey signal seed turn repairs repair now
      total conversation message run) :
    Billed policy total (seed ++ run.messages) run.result run.notes := by
  induction h with
  | aborted => exact billed_unrecorded (by simp) (by simp) (by simp)
  | ended hturn => exact billed_turn hturn
  | failed hturn => exact billed_violated (billed_turn hturn) (by simp) (by simp)
  | unsteered hturn hsteered => exact billed_violated (billed_turn hturn) (by simp) (by simp)
  | steered hturn hsteered hrest ih => exact billed_corrected (billed_turn hturn) rfl ih

theorem billed_runAgentSession {entry : AgentEntry} {fate : SessionFate} {run : SessionRun}
    (h : runAgentSession policy entry attempt start signal fate now = run) :
    Billed policy start (AgentEntry.seed entry ++ run.messages) run.result run.notes := by
  rw [← h]
  refine runAgentSession_cases (P := fun run =>
    Billed policy start (AgentEntry.seed entry ++ run.messages) run.result run.notes) ?_ ?_ ?_
  · intro error
    exact billed_unrecorded (by simp) (by simp) (by simp)
  · intro error
    exact billed_unrecorded (by simp) (by simp) (by simp)
  · intro resumeKey message
    exact turned_runTurns.billed

end KimchiWorkflows.Engine.StepRunner
