import KimchiWorkflows.Engine.Recovery

/-!
What a resume that the drift check lets through knows of the outputs on record.
-/

namespace KimchiWorkflows.Engine

open KimchiWorkflows.Flow

variable {log : List RunEvent} {event : RunEvent} {key : NodePath} {value : Value}
  {workflow : WorkflowDefinition} {runId : String} {outputs : StepOutputs}

def RunEvent.standing (key : NodePath) : RunEvent → Option Bool
  | .stepCompleted path _ => if staticKeyOf path = key then some true else none
  | .stepStarted path _ => if staticKeyOf path = key then some false else none
  | .questionnaireAsked path _ _ _ _ _ => if staticKeyOf path = key then some false else none
  | .interactionRequested path _ _ => if staticKeyOf path = key then some false else none
  | _ => none

def standing (log : List RunEvent) (key : NodePath) : Bool :=
  ((log.filterMap (RunEvent.standing key)).getLast?).getD false

theorem standing_concat (log : List RunEvent) (event : RunEvent) (key : NodePath) :
    standing (log ++ [event]) key = (event.standing key).getD (standing log key) := by
  rw [standing, List.filterMap_append, List.getLast?_append]
  cases h : event.standing key <;> simp [standing, h]

def keysOf (log : List RunEvent) : CompletedKeys := log.foldl CompletedKeys.next {}

theorem keysOf_concat (log : List RunEvent) (event : RunEvent) :
    keysOf (log ++ [event]) = (keysOf log).next event := by
  simp [keysOf]

theorem mem_reopened {keys : List NodePath} {path : NodePath} {before : Bool}
    (h : key ∈ keys ↔ before = true) :
    key ∈ keys.filter (· ≠ staticKeyOf path) ↔
      (if staticKeyOf path = key then some false else none).getD before = true := by
  rw [List.mem_filter, h, decide_eq_true_iff]
  by_cases hk : staticKeyOf path = key
  · simp [hk]
  · simp [hk, Ne.symm hk]

theorem mem_completed_next {keys : CompletedKeys} {before : Bool} (h : key ∈ keys.completed ↔ before = true) :
    key ∈ (keys.next event).completed ↔ (event.standing key).getD before = true := by
  cases event with
  | stepCompleted path output =>
    rw [CompletedKeys.next, List.mem_insert_iff, h, RunEvent.standing]
    by_cases hk : staticKeyOf path = key
    · simp [hk]
    · simp [hk, Ne.symm hk]
  | stepStarted path input => exact mem_reopened h
  | questionnaireAsked path questionnaire conversation violation elapsedMs tokensUsed => exact mem_reopened h
  | interactionRequested path request violation => exact mem_reopened h
  | _ => exact h

theorem mem_completed_keysOf : key ∈ (keysOf log).completed ↔ standing log key = true := by
  induction log using List.reverseRecOn with
  | nil => simp [keysOf, standing]
  | append_singleton log event ih =>
    rw [keysOf_concat, standing_concat]
    exact mem_completed_next ih

theorem completed_subset_ordered_next {keys : CompletedKeys} (h : keys.completed ⊆ keys.ordered) :
    (keys.next event).completed ⊆ (keys.next event).ordered := by
  have hreopen : ∀ path, keys.completed.filter (· ≠ staticKeyOf path) ⊆ keys.ordered :=
    fun path => List.Subset.trans (List.filter_subset_self _) h
  cases event with
  | stepCompleted path output =>
    intro key hkey
    rw [CompletedKeys.next] at hkey ⊢
    obtain rfl | hkey := List.mem_insert_iff.mp hkey
    · split
      · exact h ‹_›
      · exact List.mem_append_right _ List.mem_cons_self
    · split
      · exact h hkey
      · exact List.mem_append_left _ (h hkey)
  | stepStarted path input => exact hreopen path
  | questionnaireAsked path questionnaire conversation violation elapsedMs tokensUsed => exact hreopen path
  | interactionRequested path request violation => exact hreopen path
  | _ => exact h

theorem completed_subset_ordered (log : List RunEvent) : (keysOf log).completed ⊆ (keysOf log).ordered := by
  induction log using List.reverseRecOn with
  | nil => exact List.Subset.refl _
  | append_singleton log event ih =>
    rw [keysOf_concat]
    exact completed_subset_ordered_next ih

/-- The keys that are checked are those of the steps whose completion still stands. -/
theorem mem_completedStepKeys : key ∈ completedStepKeys log ↔ standing log key = true := by
  rw [completedStepKeys, List.mem_filter, decide_eq_true_iff, ← mem_completed_keysOf]
  exact ⟨fun h => h.2, fun h => ⟨completed_subset_ordered log h, h⟩⟩

/-- The workflow still has a step at the static path, and its output schema accepts the value. -/
def Fits (workflow : WorkflowDefinition) (key : NodePath) (value : Value) : Prop :=
  ∃ step, resolveStepAtStaticPath workflow.nodes (key.map PathSegment.name) = some step ∧
    violationOf step.outputSchema value = none

theorem driftAt_eq_none_iff :
    driftAt workflow runId outputs key = none ↔
      Fits workflow key ((Dict.get outputs key).getD .undefined) := by
  rw [driftAt, Fits]
  cases h : resolveStepAtStaticPath workflow.nodes (key.map PathSegment.name) with
  | none => simp
  | some step => simp

/-- A resume that is not refused has checked the last completion of every key that stands. -/
theorem checkDrift_eq_none_iff : checkDrift workflow log (rebuildStepOutputs log) runId = none ↔
    ∀ key, standing log key = true → Fits workflow key ((lastCompletion log key).getD .undefined) := by
  rw [checkDrift, List.findSome?_eq_none_iff]
  constructor
  · intro h key hkey
    have hfit := driftAt_eq_none_iff.mp (h key (mem_completedStepKeys.mpr hkey))
    rwa [get_rebuildStepOutputs] at hfit
  · intro h key hkey
    rw [driftAt_eq_none_iff, get_rebuildStepOutputs]
    exact h key (mem_completedStepKeys.mp hkey)

end KimchiWorkflows.Engine
