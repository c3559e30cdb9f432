import Mathlib.Data.List.Induction
import KimchiWorkflows.Engine.Recovery
import KimchiWorkflows.Engine.PendingHistory

/-!
How an arm of a parallel stands after a round, read off the last event that settled it or asked there.
-/

namespace KimchiWorkflows.Engine

open KimchiWorkflows.Flow

variable {log : List RunEvent} {event : RunEvent} {key target : NodePath} {output : Value}

inductive ArmState where
  | completed (output : Value)
  | failed
  | waiting

def ArmState.output? : ArmState → Option Value
  | .completed output => some output
  | .failed => some .undefined
  | .waiting => none

def RunEvent.armState (key : NodePath) : RunEvent → Option ArmState
  | .stepCompleted path output => if staticKeyOf path = key then some (.completed output) else none
  | .nodeCompleted path output => if staticKeyOf path = key then some (.completed output) else none
  | .stepFailed path _ => if staticKeyOf path = key then some .failed else none
  | .questionnaireAsked path _ _ _ _ _ => if staticKeyOf path = key then some .waiting else none
  | .interactionRequested path _ _ => if staticKeyOf path = key then some .waiting else none
  | _ => none

def roundState (log : List RunEvent) (key : NodePath) : Option ArmState :=
  (log.filterMap (RunEvent.armState key)).getLast?

/-- The arm settled in the round, or it waits for a human. -/
def Stands (log : List RunEvent) (key : NodePath) : Prop :=
  ∃ state, roundState log key = some state ∧ (state = .waiting → IsWaiting log key)

/-- The completions on record do not speak for an arm that failed or waits. -/
def Recoverable (log : List RunEvent) (key : NodePath) : Prop :=
  match roundState log key with
  | some .failed => lastCompletion log key = some .undefined
  | some .waiting => lastCompletion log key = none
  | _ => True

theorem roundState_concat :
    roundState (log ++ [event]) key = (event.armState key).or (roundState log key) := by
  rw [roundState, List.filterMap_append, List.getLast?_append]
  cases h : event.armState key <;> simp [h, roundState]

theorem completes_eq_none (h : ∀ output, event.armState key ≠ some (.completed output)) :
    event.completes key = none := by
  cases event with
  | stepCompleted path output =>
    by_cases hk : staticKeyOf path = key
    · exact absurd (if_pos hk) (h output)
    · exact if_neg hk
  | nodeCompleted path output =>
    by_cases hk : staticKeyOf path = key
    · exact absurd (if_pos hk) (h output)
    · exact if_neg hk
  | _ => rfl

theorem completes_of_armState (h : event.armState key = some (.completed output)) :
    event.completes key = some output := by
  cases event with
  | stepCompleted path result =>
    obtain ⟨hk, he⟩ := Option.ite_none_right_eq_some.mp h
    cases he
    exact if_pos hk
  | nodeCompleted path result =>
    obtain ⟨hk, he⟩ := Option.ite_none_right_eq_some.mp h
    cases he
    exact if_pos hk
  | stepFailed path error => cases (Option.ite_none_right_eq_some.mp h).2
  | questionnaireAsked path _ _ _ _ _ => cases (Option.ite_none_right_eq_some.mp h).2
  | interactionRequested path _ _ => cases (Option.ite_none_right_eq_some.mp h).2
  | _ => cases h

theorem lastCompletion_of_completed (h : roundState log key = some (.completed output)) :
    lastCompletion log key = some output := by
  induction log using List.reverseRecOn with
  | nil => cases h
  | append_singleton log event ih =>
    rw [roundState_concat] at h
    rw [lastCompletion_append]
    have hone : lastCompletion [event] key = event.completes key := by
      cases hc : event.completes key <;> simp [lastCompletion, hc]
    rw [hone]
    cases hs : event.armState key with
    | none =>
      rw [hs] at h
      rw [completes_eq_none (by simp [hs]), Option.none_or]
      exact ih h
    | some state =>
      rw [hs] at h
      cases h
      rw [completes_of_armState hs, Option.some_or]

theorem recoverable_iff {state : ArmState} (hs : roundState log key = some state) :
    Recoverable log key ↔ lastCompletion log key = state.output? := by
  unfold Recoverable
  rw [hs]
  cases state with
  | completed output => simp [lastCompletion_of_completed hs, ArmState.output?]
  | failed => exact Iff.rfl
  | waiting => exact Iff.rfl

theorem exists_askedInput {path : NodePath} (h : ∃ event ∈ log, ∃ block, event.block? = some block ∧ block.path = path) :
    ∃ asked ∈ askedInputs log, asked.path = path := by
  obtain ⟨event, hm, block, hb, rfl⟩ := h
  obtain ⟨index, hi⟩ := List.mem_iff_getElem?.mp hm
  have hzip : (event, index) ∈ log.zipIdx := List.mem_zipIdx_iff_getElem?.mpr hi
  have hmem : ∀ asked, askedBy event index = some asked → asked ∈ askedInputs log :=
    fun asked ha => List.mem_filterMap.mpr ⟨_, hzip, ha⟩
  cases event <;> simp only [RunEvent.block?, reduceCtorEq, Option.some.injEq] at hb
  · subst hb
    exact ⟨_, hmem _ rfl, rfl⟩
  · subst hb
    exact ⟨_, hmem _ rfl, rfl⟩

theorem get_setAsked_isSome {ν : Type} (f : Asked → ν) {asks : List Asked} {d : List (NodePath × ν)}
    (h : (∃ asked ∈ asks, staticKeyOf asked.path = key) ∨ (Dict.get d key).isSome) :
    (Dict.get (asks.foldl (fun d asked => Dict.set d (staticKeyOf asked.path) (f asked)) d) key).isSome := by
  induction asks generalizing d with
  | nil =>
    rcases h with ⟨asked, hm, -⟩ | h
    · cases hm
    · exact h
  | cons first rest ih =>
    apply ih
    rw [Dict.get_set]
    by_cases hk : key = staticKeyOf first.path
    · exact .inr (by simp [hk])
    · rcases h with ⟨asked, hm, hasked⟩ | h
      · rcases List.mem_cons.mp hm with rfl | hm
        · exact absurd hasked.symm hk
        · exact .inl ⟨asked, hm, hasked⟩
      · exact .inr (by simpa [hk] using h)

theorem exists_pending (h : IsWaiting log key) :
    ∃ asked ∈ pendingHumanInputs log, staticKeyOf asked.path = key := by
  have hentry := Dict.mem_of_get h
  rw [isWaiting_iff] at h
  obtain ⟨event, hm, block, hb, hkey⟩ := exists_asked (v := {}) (by simp) h
  obtain ⟨asked, hasked, hpath⟩ := exists_askedInput ⟨event, hm, block, hb, rfl⟩
  have hsome : (Dict.get (latestByKey log) key).isSome :=
    get_setAsked_isSome id (.inl ⟨asked, hasked, by rw [hpath, hkey]⟩)
  obtain ⟨latest, hl⟩ := Option.isSome_iff_exists.mp hsome
  refine ⟨latest, ?_, (get_latestByKey hl).2⟩
  refine (List.mem_insertionSort _).mpr (List.mem_filterMap.mpr ⟨_, hentry, ?_⟩)
  simpa using hl

theorem pendingBlocksExcept_isSome (h : IsWaiting log key) (hne : key ≠ staticKeyOf target) :
    (Dict.get (pendingBlocksExcept log target) key).isSome := by
  obtain ⟨asked, hm, hk⟩ := exists_pending h
  refine get_setAsked_isSome pendingBlockFromEvent (.inl ⟨asked, List.mem_filter.mpr ⟨hm, ?_⟩, hk⟩)
  have hpath : asked.path ≠ target := by
    rintro rfl
    exact hne hk.symm
  simpa using hpath

end KimchiWorkflows.Engine
