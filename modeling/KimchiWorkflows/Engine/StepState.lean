import KimchiWorkflows.Engine.Events

namespace KimchiWorkflows.Engine

open KimchiWorkflows.Flow

inductive StepState where
  | inProgress | blocked | completed | skipped | cancelled | crashed
  deriving DecidableEq

def StepState.isOpen : StepState → Bool
  | .inProgress => true
  | .blocked => true
  | _ => false

abbrev StepStates := List (NodePath × StepState)

structure Derivation where
  states : StepStates := []
  openKeys : List NodePath := []
  takenArms : List NodePath := []

def Derivation.set (d : Derivation) (path : NodePath) (state : StepState) : Derivation :=
  let key := staticKeyOf path
  { d with
    states := Dict.set d.states key state
    openKeys := if state.isOpen then d.openKeys.insert key else d.openKeys.filter (· ≠ key) }

def Derivation.closeOpen (d : Derivation) (state : StepState) : Derivation :=
  { d with
    states := d.openKeys.foldl (fun states key => Dict.set states key state) d.states
    openKeys := [] }

def Derivation.next (d : Derivation) : RunEvent → Derivation
  | .stepStarted path _ => d.set path .inProgress
  | .stepRetry path _ _ _ => d.set path .inProgress
  | .agentSteer path _ _ _ _ => d.set path .inProgress
  | .answersProvided path _ => d.set path .inProgress
  | .interactionProvided path _ => d.set path .inProgress
  | .stepCompleted path _ => d.set path .completed
  | .stepFailed path _ => d.set path .crashed
  | .questionnaireAsked path _ _ _ _ _ => d.set path .blocked
  | .interactionRequested path _ _ => d.set path .blocked
  | .branchArm path taken =>
    if taken then
      ({ d with takenArms := d.takenArms.insert (staticKeyOf path) } : Derivation).set path .inProgress
    else d.set path .skipped
  | .nodeCompleted path _ => if staticKeyOf path ∈ d.takenArms then d.set path .completed else d
  | .stepCancelled path => d.set path .cancelled
  | .runCrashed path _ => ((path.elim d (d.set · .crashed))).closeOpen .crashed
  | .runCancelled path _ => ((path.elim d (d.set · .cancelled))).closeOpen .cancelled
  | _ => d

/-- Every step's current state: a pure fold over the run's event log. -/
def deriveStepStates (events : List RunEvent) : StepStates := (events.foldl Derivation.next {}).states

inductive Touch where
  | put (state : StepState)
  | take
  | close
  | closeOpen (state : StepState)
  deriving DecidableEq

def touchAt (key : NodePath) (path : NodePath) (touch : Touch) : Option Touch :=
  if staticKeyOf path = key then some touch else none

def touchOf (key : NodePath) : RunEvent → Option Touch
  | .stepStarted path _ => touchAt key path (.put .inProgress)
  | .stepRetry path _ _ _ => touchAt key path (.put .inProgress)
  | .agentSteer path _ _ _ _ => touchAt key path (.put .inProgress)
  | .answersProvided path _ => touchAt key path (.put .inProgress)
  | .interactionProvided path _ => touchAt key path (.put .inProgress)
  | .stepCompleted path _ => touchAt key path (.put .completed)
  | .stepFailed path _ => touchAt key path (.put .crashed)
  | .questionnaireAsked path _ _ _ _ _ => touchAt key path (.put .blocked)
  | .interactionRequested path _ _ => touchAt key path (.put .blocked)
  | .branchArm path taken => touchAt key path (if taken then .take else .put .skipped)
  | .nodeCompleted path _ => touchAt key path .close
  | .stepCancelled path => touchAt key path (.put .cancelled)
  | .runCrashed path _ => some ((path.bind (touchAt key · (.put .crashed))).getD (.closeOpen .crashed))
  | .runCancelled path _ =>
    some ((path.bind (touchAt key · (.put .cancelled))).getD (.closeOpen .cancelled))
  | _ => none

structure KeyView where
  state : Option StepState := none
  taken : Bool := false
  deriving DecidableEq

def KeyView.isOpen (v : KeyView) : Bool := v.state.any StepState.isOpen

def KeyView.touch (v : KeyView) : Touch → KeyView
  | .put state => { v with state := some state }
  | .take => { state := some .inProgress, taken := true }
  | .close => if v.taken then { v with state := some .completed } else v
  | .closeOpen state => if v.isOpen then { v with state := some state } else v

def KeyView.next (key : NodePath) (v : KeyView) (event : RunEvent) : KeyView :=
  (touchOf key event).elim v v.touch

def viewOf (key : NodePath) (events : List RunEvent) : KeyView := events.foldl (KeyView.next key) {}

structure Derivation.Shows (d : Derivation) (key : NodePath) (v : KeyView) : Prop where
  state : Dict.get d.states key = v.state
  isOpen : key ∈ d.openKeys ↔ v.isOpen = true
  taken : key ∈ d.takenArms ↔ v.taken = true

theorem Derivation.shows_set {d : Derivation} {key : NodePath} {v : KeyView} (h : d.Shows key v)
    (path : NodePath) (state : StepState) :
    (d.set path state).Shows key ((touchAt key path (.put state)).elim v v.touch) := by
  by_cases hk : staticKeyOf path = key
  · subst hk
    refine ⟨by simp [set, touchAt, KeyView.touch], ?_, by simpa [set, touchAt, KeyView.touch] using h.taken⟩
    cases hs : state.isOpen <;> simp [set, touchAt, KeyView.touch, KeyView.isOpen, hs]
  · have hne : ¬ key = staticKeyOf path := fun he => hk he.symm
    refine ⟨by simpa [set, touchAt, hk, Dict.get_set, hne] using h.state, ?_,
      by simpa [set, touchAt, hk] using h.taken⟩
    have ho := h.isOpen
    cases hs : state.isOpen <;> simp [set, touchAt, hk, hs, hne, ho]

theorem get_foldl_set (states : StepStates) (keys : List NodePath) (state : StepState) (key : NodePath) :
    Dict.get (keys.foldl (fun states key => Dict.set states key state) states) key =
      if key ∈ keys then some state else Dict.get states key := by
  induction keys generalizing states with
  | nil => simp
  | cons k rest ih =>
    rw [List.foldl_cons, ih]
    by_cases hr : key ∈ rest
    · simp [hr]
    · by_cases hk : key = k <;> simp [hr, hk, Dict.get_set]

theorem Derivation.shows_closeOpen {d : Derivation} {key : NodePath} {v : KeyView}
    (h : d.Shows key v) (state : StepState) (hs : state.isOpen = false) :
    (d.closeOpen state).Shows key (v.touch (.closeOpen state)) := by
  have hg := get_foldl_set d.states d.openKeys state key
  cases ho : v.isOpen with
  | true =>
    have hm := h.isOpen.mpr ho
    have hc : ({ v with state := some state } : KeyView).isOpen = false := hs
    exact ⟨by simpa [closeOpen, KeyView.touch, ho, hm] using hg,
      by simp [closeOpen, KeyView.touch, ho, hc],
      by simpa [closeOpen, KeyView.touch, ho] using h.taken⟩
  | false =>
    have hm : key ∉ d.openKeys := fun hm => by simp [h.isOpen.mp hm] at ho
    exact ⟨by simpa [closeOpen, KeyView.touch, ho, hm, h.state] using hg,
      by simp [closeOpen, KeyView.touch, ho], by simpa [closeOpen, KeyView.touch, ho] using h.taken⟩

/-- The fold over the map and its two sets is, key by key, the automaton of that key. -/
theorem Derivation.shows_next {d : Derivation} {key : NodePath} {v : KeyView} (h : d.Shows key v)
    (event : RunEvent) : (d.next event).Shows key (v.next key event) := by
  cases event with
  | branchArm path taken =>
    cases taken with
    | false => exact shows_set h path .skipped
    | true =>
      by_cases hk : staticKeyOf path = key
      · subst hk
        refine ⟨by simp [next, set, KeyView.next, touchOf, touchAt, KeyView.touch], ?_, ?_⟩
        · simp [next, set, KeyView.next, touchOf, touchAt, KeyView.touch, KeyView.isOpen,
            StepState.isOpen]
        · simp [next, set, KeyView.next, touchOf, touchAt, KeyView.touch]
      · have hne : ¬ key = staticKeyOf path := fun he => hk he.symm
        have ho := h.isOpen
        have ht := h.taken
        refine ⟨by simpa [next, set, KeyView.next, touchOf, touchAt, hk, Dict.get_set, hne] using h.state,
          ?_, ?_⟩
        · simp [next, set, KeyView.next, touchOf, touchAt, hk, StepState.isOpen, hne, ho]
        · simp [next, set, KeyView.next, touchOf, touchAt, hk, hne, ht]
  | nodeCompleted path output =>
    by_cases hk : staticKeyOf path = key
    · subst hk
      by_cases ht : staticKeyOf path ∈ d.takenArms
      · have hv := h.taken.mp ht
        simpa [next, ht, KeyView.next, touchOf, touchAt, KeyView.touch, hv] using
          shows_set h path .completed
      · have hv : v.taken = false := by
          cases hv : v.taken with
          | false => rfl
          | true => exact absurd (h.taken.mpr hv) ht
        simpa [next, ht, KeyView.next, touchOf, touchAt, KeyView.touch, hv] using h
    · by_cases ht : staticKeyOf path ∈ d.takenArms
      · simpa [next, ht, KeyView.next, touchOf, touchAt, hk] using shows_set h path .completed
      · simpa [next, ht, KeyView.next, touchOf, touchAt, hk] using h
  | runCrashed path error =>
    cases path with
    | none => exact shows_closeOpen h _ rfl
    | some path =>
      have hc := shows_closeOpen (shows_set h path .crashed) .crashed rfl
      by_cases hk : staticKeyOf path = key
      · simpa [next, KeyView.next, touchOf, touchAt, hk, KeyView.touch, KeyView.isOpen,
          StepState.isOpen] using hc
      · simp only [touchAt, if_neg hk, Option.elim_none] at hc
        simpa only [next, KeyView.next, touchOf, touchAt, if_neg hk, Option.bind_some, Option.getD_none,
          Option.elim_some] using hc
  | runCancelled path source =>
    cases path with
    | none => exact shows_closeOpen h _ rfl
    | some path =>
      have hc := shows_closeOpen (shows_set h path .cancelled) .cancelled rfl
      by_cases hk : staticKeyOf path = key
      · simpa [next, KeyView.next, touchOf, touchAt, hk, KeyView.touch, KeyView.isOpen,
          StepState.isOpen] using hc
      · simp only [touchAt, if_neg hk, Option.elim_none] at hc
        simpa only [next, KeyView.next, touchOf, touchAt, if_neg hk, Option.bind_some, Option.getD_none,
          Option.elim_some] using hc
  | _ => first | exact h | exact shows_set h _ _

theorem derivation_shows (events : List RunEvent) (key : NodePath) :
    (events.foldl Derivation.next {}).Shows key (viewOf key events) := by
  suffices ∀ (d : Derivation) (v : KeyView), d.Shows key v →
      (events.foldl Derivation.next d).Shows key (events.foldl (KeyView.next key) v) from
    this {} {} ⟨rfl, by simp [KeyView.isOpen], by simp⟩
  induction events with
  | nil => exact fun d v h => h
  | cons event rest ih => exact fun d v h => ih _ _ (Derivation.shows_next h event)

theorem get_deriveStepStates (events : List RunEvent) (key : NodePath) :
    Dict.get (deriveStepStates events) key = (viewOf key events).state :=
  (derivation_shows events key).state

end KimchiWorkflows.Engine
