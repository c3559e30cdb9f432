import KimchiWorkflows.Engine.RetryLoop
import KimchiWorkflows.Engine.SessionTurns

namespace KimchiWorkflows.Engine.StepRunner

open KimchiWorkflows.Flow KimchiWorkflows.Engine

/-- The notes about the course of an attempt; what the author's function logs is not one of them. -/
def counts : StepNote → Bool
  | .log _ _ => false
  | _ => true

variable {policy : AgentPolicy} {entry : AgentEntry} {number startingTokens repairs repair total now : Nat}
  {resumeKey : Option String} {signal : Option Nat} {seed conversation : Conversation}
  {turn : Nat → TurnFate} {message : Message}

def TurnStep.notes : TurnStep → Notes
  | .ended _ _ notes => notes
  | .violated _ notes _ _ _ => notes

def TurnStep.time : TurnStep → Nat
  | .ended endedAt _ _ => endedAt
  | .violated recordedAt _ _ _ _ => recordedAt

theorem judgeReply_frame (agentTurn : AgentTurn) (recordedAt : Nat) (notes : Notes) :
    (judgeReply policy agentTurn conversation recordedAt notes total).notes = notes ∧
      (judgeReply policy agentTurn conversation recordedAt notes total).time = recordedAt := by
  unfold judgeReply
  split
  · exact ⟨rfl, rfl⟩
  · split
    · exact ⟨rfl, rfl⟩
    · exact ⟨rfl, rfl⟩
    · exact ⟨rfl, rfl⟩

theorem notes_settleTurn {fate : TurnFate} {sentAt : Nat} {note : Nat × StepNote}
    (hm : note ∈ (settleTurn policy number resumeKey signal fate conversation sentAt total).notes) :
    note.1 = sentAt + fate.takes ∧ ¬aborted signal (sentAt + fate.takes) = true ∧ counts note.2 = true := by
  unfold settleTurn at hm
  simp only at hm
  split at hm
  · split_ifs at hm
    · simp [TurnStep.notes] at hm
    · simp [TurnStep.notes] at hm
  · split_ifs at hm with ha hc
    · simp [TurnStep.notes] at hm
    · simp [TurnStep.notes] at hm
    · split at hm
      · unfold recordError at hm
        simp only at hm
        split at hm
        · simp [TurnStep.notes] at hm
        · rw [TurnStep.notes, List.mem_singleton] at hm
          rw [hm]
          exact ⟨rfl, ha, rfl⟩
      · split at hm
        · rw [(judgeReply_frame _ _ _).1] at hm
          simp at hm
        · split at hm
          · simp [TurnStep.notes] at hm
          · rw [(judgeReply_frame _ _ _).1, List.mem_singleton] at hm
            rw [hm]
            exact ⟨rfl, ha, rfl⟩

theorem time_settleTurn {fate : TurnFate} {sentAt : Nat} {step : TurnStep}
    (h : settleTurn policy number resumeKey signal fate conversation sentAt total = step) :
    sentAt + fate.takes ≤ step.time := by
  subst h
  unfold settleTurn
  simp only
  split
  · split_ifs
    · exact Nat.le_refl _
    · exact Nat.le_refl _
  · split_ifs
    · exact Nat.le_refl _
    · exact Nat.le_refl _
    · split
      · unfold recordError
        simp only
        split
        · exact Nat.le_add_right _ _
        · exact Nat.le_add_right _ _
      · split
        · rw [(judgeReply_frame _ _ _).2]
        · split
          · exact Nat.le_add_right _ _
          · rw [(judgeReply_frame _ _ _).2]
            exact Nat.le_add_right _ _

theorem frame_settleTurn {fate : TurnFate} {sentAt : Nat} {step : TurnStep}
    (h : settleTurn policy number resumeKey signal fate conversation sentAt total = step) :
    sentAt ≤ step.time ∧ ∀ note ∈ step.notes, counts note.2 = true ∧ note.1 ≤ step.time := by
  have htime := time_settleTurn h
  subst h
  refine ⟨by omega, ?_⟩
  intro note hm
  obtain ⟨hat, -, hcounts⟩ := notes_settleTurn hm
  refine ⟨hcounts, ?_⟩
  rw [hat]
  exact htime

/-- Everything a session records, it records before its end, and all of it counts. -/
theorem Turned.frame {run : SessionRun} (h : Turned policy number resumeKey signal seed turn repairs repair now total
      conversation message run) :
    now ≤ run.endedAt ∧ ∀ note ∈ run.notes, counts note.2 = true ∧ note.1 ≤ run.endedAt := by
  induction h with
  | aborted => exact ⟨Nat.le_refl _, by simp⟩
  | ended hturn => exact frame_settleTurn hturn
  | failed hturn => exact frame_settleTurn hturn
  | unsteered hturn hsteered =>
    obtain ⟨hsent, hnotes⟩ := frame_settleTurn hturn
    simp only [TurnStep.time, TurnStep.notes] at hsent hnotes
    refine ⟨by simp only; omega, ?_⟩
    intro note hm
    obtain ⟨hcounts, hle⟩ := hnotes note hm
    exact ⟨hcounts, by simp only; omega⟩
  | steered hturn hsteered hrest ih =>
    obtain ⟨hsent, hnotes⟩ := frame_settleTurn hturn
    obtain ⟨hlater, hlaterNotes⟩ := ih
    simp only [TurnStep.time, TurnStep.notes] at hsent hnotes
    refine ⟨by simp only; omega, ?_⟩
    simp only [List.mem_append, List.mem_cons]
    rintro note (hm | rfl | hm)
    · obtain ⟨hcounts, hle⟩ := hnotes note hm
      exact ⟨hcounts, by omega⟩
    · exact ⟨rfl, by simp only; omega⟩
    · exact hlaterNotes note hm

theorem frame_runAgentSession {fate : SessionFate} :
    now ≤ (runAgentSession policy entry number startingTokens signal fate now).endedAt ∧
      ∀ note ∈ (runAgentSession policy entry number startingTokens signal fate now).notes, counts note.2 = true ∧
        note.1 ≤ (runAgentSession policy entry number startingTokens signal fate now).endedAt := by
  refine runAgentSession_cases (P := fun run => now ≤ run.endedAt ∧ ∀ note ∈ run.notes, counts note.2 = true ∧
    note.1 ≤ run.endedAt) ?_ ?_ ?_
  · intro error
    exact ⟨Nat.le_refl _, by simp⟩
  · intro error
    exact ⟨Nat.le_refl _, by simp⟩
  · intro resumeKey message
    exact turned_runTurns.frame

end KimchiWorkflows.Engine.StepRunner
