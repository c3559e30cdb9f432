import Mathlib.Data.List.Induction
import KimchiWorkflows.Engine.KeyHistory

/-!
The state of a key, read off the one event of the log that has the last word on it.
-/

namespace KimchiWorkflows.Engine

variable {log : List RunEvent} {key : NodePath} {event : RunEvent}

/-- The event sets a step to work, or takes a branch arm. -/
def RunEvent.begins : RunEvent → Bool
  | .stepStarted _ _ => true
  | .stepRetry _ _ _ _ => true
  | .agentSteer _ _ _ _ _ => true
  | .answersProvided _ _ => true
  | .interactionProvided _ _ => true
  | .branchArm _ taken => taken
  | _ => false

def RunEvent.failsStep : RunEvent → Bool
  | .stepFailed _ _ => true
  | _ => false

def isArm (log : List RunEvent) (key : NodePath) : Bool :=
  log.any (fun event => touchOf key event = some .take)

def speaksOf (key : NodePath) (arm : Bool) (event : RunEvent) : Bool :=
  match touchOf key event with
  | none => false
  | some .close => arm
  | some _ => true

def lastWord (log : List RunEvent) (key : NodePath) : Option RunEvent :=
  (log.filter (speaksOf key (isArm log key))).getLast?

theorem isArm_append : isArm (log ++ [event]) key = (isArm log key || decide (touchOf key event = some .take)) := by
  simp [isArm]

theorem taken_viewOf (log : List RunEvent) (key : NodePath) : (viewOf key log).taken = isArm log key := by
  induction log using List.reverseRecOn with
  | nil => rfl
  | append_singleton log event ih =>
    rw [isArm_append, ← ih, viewOf_append]
    show ((viewOf key log).next key event).taken = _
    cases ht : touchOf key event with
    | none => simp [KeyView.next, ht]
    | some touch =>
      cases touch with
      | put state => simp [KeyView.next, ht, KeyView.touch]
      | take => simp [KeyView.next, ht, KeyView.touch]
      | close => by_cases hk : (viewOf key log).taken = true <;> simp [KeyView.next, ht, KeyView.touch, hk]
      | closeOpen state =>
        by_cases ho : (viewOf key log).isOpen = true <;> simp [KeyView.next, ht, KeyView.touch, ho]

theorem lastWord_append : lastWord (log ++ [event]) key =
    if speaksOf key (isArm (log ++ [event]) key) event then some event else lastWord log key := by
  unfold lastWord
  rw [List.filter_append]
  split_ifs with hs
  · rw [List.filter_cons_of_pos hs]
    simp
  · have hsame : isArm (log ++ [event]) key = isArm log key := by
      rw [isArm_append]
      by_cases ht : touchOf key event = some .take
      · simp [speaksOf, ht] at hs
      · simp [ht]
    rw [List.filter_cons_of_neg hs, List.filter_nil, List.append_nil, hsame]

theorem begins_of_touch (h : touchOf key event ≠ none) :
    event.begins = true ↔ touchOf key event = some (.put .inProgress) ∨ touchOf key event = some .take := by
  cases event with
  | branchArm path taken =>
    have hk := touchAt_key h
    cases taken <;> simp [RunEvent.begins, touchOf, touchAt, hk]
  | runCrashed path error =>
    cases path with
    | none => simp [RunEvent.begins, touchOf]
    | some path => by_cases hk : staticKeyOf path = key <;> simp [RunEvent.begins, touchOf, touchAt, hk]
  | runCancelled path source =>
    cases path with
    | none => simp [RunEvent.begins, touchOf]
    | some path => by_cases hk : staticKeyOf path = key <;> simp [RunEvent.begins, touchOf, touchAt, hk]
  | _ => first
    | exact absurd rfl h
    | (have hk := touchAt_key h; simp [RunEvent.begins, touchOf, touchAt, hk])

theorem failsStep_of_touch (h : touchOf key event ≠ none) (ht : event.terminal = none) :
    event.failsStep = true ↔ touchOf key event = some (.put .crashed) := by
  cases event with
  | branchArm path taken =>
    have hk := touchAt_key h
    cases taken <;> simp [RunEvent.failsStep, touchOf, touchAt, hk]
  | runCrashed path error => simp [RunEvent.terminal] at ht
  | runCancelled path source => simp [RunEvent.terminal] at ht
  | _ => first
    | exact absurd rfl h
    | (have hk := touchAt_key h; simp [RunEvent.failsStep, touchOf, touchAt, hk])

theorem touch_closeOpen {state : StepState} (h : touchOf key event = some (.closeOpen state)) :
    state.isOpen = false ∧ event.terminal ≠ none := by
  cases event with
  | branchArm path taken => cases taken <;> simp [touchOf, touchAt] at h
  | runCrashed path error =>
    refine ⟨?_, by simp [RunEvent.terminal]⟩
    cases path with
    | none => simp [touchOf] at h; rw [← h]; rfl
    | some path => by_cases hk : staticKeyOf path = key <;> simp [touchOf, touchAt, hk] at h; rw [← h]; rfl
  | runCancelled path source =>
    refine ⟨?_, by simp [RunEvent.terminal]⟩
    cases path with
    | none => simp [touchOf] at h; rw [← h]; rfl
    | some path => by_cases hk : staticKeyOf path = key <;> simp [touchOf, touchAt, hk] at h; rw [← h]; rfl
  | _ => simp [touchOf, touchAt] at h

theorem viewOf_concat : viewOf key (log ++ [event]) = (viewOf key log).next key event := by
  rw [viewOf_append]
  rfl

/-- A key is in progress exactly when the last word on it set it to work. -/
theorem inProgress_iff (log : List RunEvent) (key : NodePath) :
    (viewOf key log).state = some .inProgress ↔ (lastWord log key).any RunEvent.begins = true := by
  induction log using List.reverseRecOn with
  | nil => simp [viewOf, lastWord]
  | append_singleton log event ih =>
    rw [viewOf_concat, lastWord_append]
    cases ht : touchOf key event with
    | none => simpa [KeyView.next, ht, speaksOf] using ih
    | some touch =>
      have hb := begins_of_touch (by rw [ht]; simp : touchOf key event ≠ none)
      rw [ht] at hb
      cases touch with
      | put state => simp [KeyView.next, ht, speaksOf, KeyView.touch, hb]
      | take => simp [KeyView.next, ht, speaksOf, KeyView.touch, hb]
      | close =>
        have harm : isArm (log ++ [event]) key = (viewOf key log).taken := by
          rw [isArm_append, taken_viewOf, ht]
          simp
        by_cases hk : (viewOf key log).taken = true
        · simp [KeyView.next, ht, speaksOf, KeyView.touch, harm, hk, hb]
        · simpa [KeyView.next, ht, speaksOf, KeyView.touch, harm, hk] using ih
      | closeOpen state =>
        have hs := (touch_closeOpen ht).1
        have hne : (viewOf key log).isOpen = false → (viewOf key log).state ≠ some .inProgress := by
          intro ho he
          rw [KeyView.isOpen, he] at ho
          cases ho
        have hstate : state ≠ .inProgress := by
          rintro rfl
          cases hs
        by_cases ho : (viewOf key log).isOpen = true
        · simp [KeyView.next, ht, speaksOf, KeyView.touch, ho, hb, hstate]
        · have := hne (by simpa using ho)
          simp [KeyView.next, ht, speaksOf, KeyView.touch, ho, hb, this]

theorem crashed_iff (hlog : ∀ e ∈ log, e.terminal = none) (key : NodePath) :
    (viewOf key log).state = some .crashed ↔ (lastWord log key).any RunEvent.failsStep = true := by
  induction log using List.reverseRecOn with
  | nil => simp [viewOf, lastWord]
  | append_singleton log event ih =>
    have hterm := hlog event (List.mem_append_right _ (List.mem_singleton_self _))
    have ih := ih (fun e he => hlog e (List.mem_append_left _ he))
    rw [viewOf_concat, lastWord_append]
    cases ht : touchOf key event with
    | none => simpa [KeyView.next, ht, speaksOf] using ih
    | some touch =>
      have hf := failsStep_of_touch (by rw [ht]; simp : touchOf key event ≠ none) hterm
      rw [ht] at hf
      cases touch with
      | put state => simp [KeyView.next, ht, speaksOf, KeyView.touch, hf]
      | take => simp [KeyView.next, ht, speaksOf, KeyView.touch, hf]
      | close =>
        have harm : isArm (log ++ [event]) key = (viewOf key log).taken := by
          rw [isArm_append, taken_viewOf, ht]
          simp
        by_cases hk : (viewOf key log).taken = true
        · simp [KeyView.next, ht, speaksOf, KeyView.touch, harm, hk, hf]
        · simpa [KeyView.next, ht, speaksOf, KeyView.touch, harm, hk] using ih
      | closeOpen state => exact absurd hterm (touch_closeOpen ht).2

end KimchiWorkflows.Engine
