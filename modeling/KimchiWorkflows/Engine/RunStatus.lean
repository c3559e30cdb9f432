import KimchiWorkflows.Engine.StepState

namespace KimchiWorkflows.Engine

def hasState (states : StepStates) (target : StepState) : Bool :=
  states.any (fun entry => entry.2 = target)

/-- The last terminal event of the run decides, whenever it was recorded. -/
def lastTerminal (events : List RunEvent) : Option RunStatus :=
  events.foldl (fun terminal event => event.terminal.or terminal) none

def deriveRunStatus (events : List RunEvent) : Option RunStatus :=
  if events.any RunEvent.isRunStarted then
    let states := deriveStepStates events
    if hasState states .inProgress then some .inProgress
    else if hasState states .blocked then some .blocked
    else match lastTerminal events with
      | some terminal => some terminal
      | none => if hasState states .crashed then some .crashed else some .inProgress
  else none

theorem nodup_set (d : Derivation) (path : NodePath) (state : StepState)
    (h : (d.states.map Prod.fst).Nodup) : ((d.set path state).states.map Prod.fst).Nodup :=
  Dict.nodup_set h _ _

theorem nodup_closeOpen (d : Derivation) (state : StepState) (h : (d.states.map Prod.fst).Nodup) :
    ((d.closeOpen state).states.map Prod.fst).Nodup := by
  simp only [Derivation.closeOpen]
  generalize d.states = states at h
  induction d.openKeys generalizing states with
  | nil => exact h
  | cons key rest ih => exact ih _ (Dict.nodup_set h _ _)

theorem nodup_next (d : Derivation) (event : RunEvent) (h : (d.states.map Prod.fst).Nodup) :
    ((d.next event).states.map Prod.fst).Nodup := by
  cases event with
  | branchArm path taken => cases taken <;> exact nodup_set _ _ _ h
  | nodeCompleted path output =>
    simp only [Derivation.next]
    split_ifs
    · exact nodup_set _ _ _ h
    · exact h
  | runCrashed path error => cases path <;> exact nodup_closeOpen _ _ (by first | exact h | exact nodup_set _ _ _ h)
  | runCancelled path source => cases path <;> exact nodup_closeOpen _ _ (by first | exact h | exact nodup_set _ _ _ h)
  | _ => first | exact h | exact nodup_set _ _ _ h

theorem nodup_deriveStepStates (events : List RunEvent) :
    ((deriveStepStates events).map Prod.fst).Nodup := by
  suffices ∀ d : Derivation, (d.states.map Prod.fst).Nodup →
      ((events.foldl Derivation.next d).states.map Prod.fst).Nodup from this {} (by simp)
  induction events with
  | nil => exact fun d h => h
  | cons event rest ih => exact fun d h => ih _ (nodup_next d event h)

theorem mem_deriveStepStates {events : List RunEvent} {key : NodePath} {state : StepState} :
    (key, state) ∈ deriveStepStates events ↔ (viewOf key events).state = some state := by
  rw [← get_deriveStepStates]
  exact ⟨Dict.get_of_mem (nodup_deriveStepStates events), Dict.mem_of_get⟩

theorem hasState_iff {events : List RunEvent} {state : StepState} :
    hasState (deriveStepStates events) state = true ↔ ∃ key, (viewOf key events).state = some state := by
  simp only [hasState, List.any_eq_true, decide_eq_true_eq]
  constructor
  · rintro ⟨⟨key, s⟩, hm, rfl⟩
    exact ⟨key, mem_deriveStepStates.mp hm⟩
  · rintro ⟨key, hv⟩
    exact ⟨(key, state), mem_deriveStepStates.mpr hv, rfl⟩

end KimchiWorkflows.Engine
