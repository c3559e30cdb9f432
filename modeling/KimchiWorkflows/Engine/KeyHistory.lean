import KimchiWorkflows.Lib.Interleaving
import KimchiWorkflows.Engine.RunContext
import KimchiWorkflows.Engine.StepState

/-!
What a stretch of events does to the state of one key, whatever the state was before it.
-/

namespace KimchiWorkflows.Engine

open Interleaving

def Below (scope key : NodePath) : Prop := scope <+: key ∧ scope.length < key.length

theorem Below.trans {p q r : NodePath} (h : Below p q) (h' : Below q r) : Below p r :=
  ⟨h.1.trans h'.1, h.2.trans h'.2⟩

theorem below_append (scope : NodePath) (segment : PathSegment) : Below scope (scope ++ [segment]) :=
  ⟨List.prefix_append _ _, by simp⟩

theorem eq_of_below {p q key : NodePath} (hp : Below p key) (hq : Below q key)
    (hl : p.length = q.length) : p = q := by
  rcases List.prefix_or_prefix_of_prefix hp.1 hq.1 with h | h
  · exact h.eq_of_length hl
  · exact (h.eq_of_length hl.symm).symm

def after (key : NodePath) (v : KeyView) (events : List RunEvent) : KeyView :=
  events.foldl (KeyView.next key) v

variable {key : NodePath} {events first last : List RunEvent}

theorem after_append (v : KeyView) : after key v (first ++ last) = after key (after key v first) last :=
  List.foldl_append

theorem after_cons (v : KeyView) (event : RunEvent) :
    after key v (event :: events) = after key (v.next key event) events := rfl

theorem viewOf_append : viewOf key (first ++ last) = after key (viewOf key first) last :=
  List.foldl_append

def Untouched (key : NodePath) (events : List RunEvent) : Prop := ∀ e ∈ events, touchOf key e = none

/-- The events neither open, settle nor close the key as a step; at most they complete it as an arm. -/
def Idle (key : NodePath) (events : List RunEvent) : Prop :=
  ∀ e ∈ events, touchOf key e = none ∨ touchOf key e = some .close

/-- Afterwards the key is closed, if the events concerned it at all. -/
def Closes (key : NodePath) (events : List RunEvent) : Prop :=
  Idle key events ∨ ∀ v, ∃ s, (after key v events).state = some s ∧ s.isOpen = false

/-- Afterwards the key is closed or waits, if the events concerned it at all. -/
def Rests (key : NodePath) (events : List RunEvent) : Prop :=
  Idle key events ∨ ∀ v, ∃ s, (after key v events).state = some s ∧ s ≠ .inProgress

def Asks (key : NodePath) (events : List RunEvent) : Prop :=
  ∀ v, (after key v events).state = some .blocked

theorem Untouched.idle (h : Untouched key events) : Idle key events := fun e he => .inl (h e he)

theorem untouched_append : Untouched key (first ++ last) ↔ Untouched key first ∧ Untouched key last := by
  simp [Untouched, or_imp, forall_and]

theorem idle_append : Idle key (first ++ last) ↔ Idle key first ∧ Idle key last := by
  simp only [Idle, List.mem_append]
  exact ⟨fun h => ⟨fun e he => h e (.inl he), fun e he => h e (.inr he)⟩,
    fun h e he => he.elim (h.1 e) (h.2 e)⟩

theorem after_untouched (h : Untouched key events) (v : KeyView) : after key v events = v := by
  induction events generalizing v with
  | nil => rfl
  | cons event rest ih =>
    have he := h event List.mem_cons_self
    rw [after_cons, ih (fun e hm => h e (List.mem_cons_of_mem _ hm))]
    simp [KeyView.next, he]

theorem after_idle (h : Idle key events) (v : KeyView) :
    (after key v events).state = v.state ∨ (after key v events).state = some .completed := by
  induction events generalizing v with
  | nil => exact .inl rfl
  | cons event rest ih =>
    have hr := ih (fun e hm => h e (List.mem_cons_of_mem _ hm)) (v.next key event)
    rw [after_cons]
    rcases h event List.mem_cons_self with he | he
    · simpa [KeyView.next, he] using hr
    · cases ht : v.taken with
      | false => simpa [KeyView.next, he, KeyView.touch, ht] using hr
      | true =>
        have hc : (v.next key event).state = some .completed := by simp [KeyView.next, he, KeyView.touch, ht]
        rcases hr with hr | hr
        · exact .inr (hr.trans hc)
        · exact .inr hr

theorem closes_append (h : Closes key first) (h' : Closes key last) : Closes key (first ++ last) := by
  rcases h' with hi' | hc'
  · rcases h with hi | hc
    · exact .inl (idle_append.mpr ⟨hi, hi'⟩)
    · refine .inr ?_
      intro v
      obtain ⟨s, hs, ho⟩ := hc v
      rw [after_append]
      rcases after_idle hi' (after key v first) with he | he
      · exact ⟨s, he.trans hs, ho⟩
      · exact ⟨_, he, rfl⟩
  · refine .inr ?_
    intro v
    rw [after_append]
    exact hc' _

theorem Closes.rests (h : Closes key events) : Rests key events := by
  rcases h with hi | hc
  · exact .inl hi
  · refine .inr ?_
    intro v
    obtain ⟨s, hs, ho⟩ := hc v
    exact ⟨s, hs, by rintro rfl; simp [StepState.isOpen] at ho⟩

theorem rests_append (h : Rests key first) (h' : Rests key last) : Rests key (first ++ last) := by
  rcases h' with hi' | hr'
  · rcases h with hi | hr
    · exact .inl (idle_append.mpr ⟨hi, hi'⟩)
    · refine .inr ?_
      intro v
      obtain ⟨s, hs, hne⟩ := hr v
      rw [after_append]
      rcases after_idle hi' (after key v first) with he | he
      · exact ⟨s, he.trans hs, hne⟩
      · exact ⟨_, he, by simp⟩
  · refine .inr ?_
    intro v
    rw [after_append]
    exact hr' _

theorem asks_append (h : Asks key last) : Asks key (first ++ last) := by
  intro v
  rw [after_append]
  exact h _

theorem Asks.append_untouched (h : Asks key first) (h' : Untouched key last) :
    Asks key (first ++ last) := by
  intro v
  rw [after_append, after_untouched h']
  exact h v

theorem exists_touch {s : StepState} (h : ∀ v, (after key v events).state = some s) :
    ∃ e ∈ events, touchOf key e ≠ none := by
  by_contra hn
  have hu : Untouched key events := by
    intro e he
    by_contra ht
    exact hn ⟨e, he, ht⟩
  have := h {}
  rw [after_untouched hu] at this
  cases this

theorem touchAt_key {path : NodePath} {touch : Touch} (h : touchAt key path touch ≠ none) :
    staticKeyOf path = key := by
  by_contra hne
  exact h (if_neg hne)

theorem key_of_touch {event : RunEvent} (ht : event.terminal = none) (h : touchOf key event ≠ none) :
    ∃ path, event.subject = some path ∧ staticKeyOf path = key := by
  cases event with
  | runCrashed path error => simp [RunEvent.terminal] at ht
  | runCancelled path source => simp [RunEvent.terminal] at ht
  | _ => first | exact absurd rfl h | exact ⟨_, rfl, touchAt_key h⟩

theorem asked_of_blocked {v : KeyView} {event : RunEvent} (hv : v.state ≠ some .blocked)
    (h : (v.next key event).state = some .blocked) :
    ∃ block, event.block? = some block ∧ staticKeyOf block.path = key := by
  have hput : ∀ (path : NodePath) (state : StepState), state ≠ .blocked →
      ((touchAt key path (.put state)).elim v v.touch).state ≠ some .blocked := by
    intro path state hs
    by_cases hk : staticKeyOf path = key <;> simp [touchAt, hk, KeyView.touch, hs, hv]
  have hclose : ∀ state : StepState, state ≠ .blocked → (v.touch (.closeOpen state)).state ≠ some .blocked := by
    intro state hs
    by_cases ho : v.isOpen = true <;> simp [KeyView.touch, ho, hs, hv]
  cases event with
  | questionnaireAsked path questionnaire conversation violation elapsedMs tokensUsed =>
    refine ⟨_, rfl, ?_⟩
    by_contra hk
    simp [KeyView.next, touchOf, touchAt, hk, hv] at h
  | interactionRequested path request violation =>
    refine ⟨_, rfl, ?_⟩
    by_contra hk
    simp [KeyView.next, touchOf, touchAt, hk, hv] at h
  | branchArm path taken =>
    by_cases hk : staticKeyOf path = key <;> cases taken <;>
      simp [KeyView.next, touchOf, touchAt, hk, KeyView.touch, hv] at h
  | nodeCompleted path output =>
    by_cases hk : staticKeyOf path = key <;> by_cases ht : v.taken = true <;>
      simp [KeyView.next, touchOf, touchAt, hk, KeyView.touch, ht, hv] at h
  | runCrashed path error =>
    cases path with
    | none => exact absurd h (hclose .crashed (by simp))
    | some path =>
      by_cases hk : staticKeyOf path = key
      · simp [KeyView.next, touchOf, touchAt, hk, KeyView.touch] at h
      · refine absurd ?_ (hclose .crashed (by simp))
        simpa [KeyView.next, touchOf, touchAt, hk] using h
  | runCancelled path source =>
    cases path with
    | none => exact absurd h (hclose .cancelled (by simp))
    | some path =>
      by_cases hk : staticKeyOf path = key
      · simp [KeyView.next, touchOf, touchAt, hk, KeyView.touch] at h
      · refine absurd ?_ (hclose .cancelled (by simp))
        simpa [KeyView.next, touchOf, touchAt, hk] using h
  | _ => first | exact absurd h hv | exact absurd h (hput _ _ (by simp))

theorem exists_asked {v : KeyView} (hv : v.state ≠ some .blocked)
    (h : (after key v events).state = some .blocked) :
    ∃ event ∈ events, ∃ block, event.block? = some block ∧ staticKeyOf block.path = key := by
  induction events generalizing v with
  | nil => exact absurd h hv
  | cons event rest ih =>
    by_cases hb : (v.next key event).state = some .blocked
    · exact ⟨event, List.mem_cons_self, asked_of_blocked hv hb⟩
    · obtain ⟨e, he, hk⟩ := ih hb h
      exact ⟨e, List.mem_cons_of_mem _ he, hk⟩

def Inside (scope : NodePath) (events : List RunEvent) : Prop :=
  ∀ e ∈ events, e.terminal = none ∧ ∃ path, e.subject = some path ∧ Below scope (staticKeyOf path)

theorem Inside.mono {scope scope' : NodePath} (h : Inside scope' events) (hb : scope <+: scope') :
    Inside scope events := by
  intro e he
  obtain ⟨ht, path, hs, hp⟩ := h e he
  exact ⟨ht, path, hs, hb.trans hp.1, lt_of_le_of_lt hb.length_le hp.2⟩

theorem inside_append {scope : NodePath} :
    Inside scope (first ++ last) ↔ Inside scope first ∧ Inside scope last := by
  simp only [Inside, List.mem_append]
  exact ⟨fun h => ⟨fun e he => h e (.inl he), fun e he => h e (.inr he)⟩,
    fun h e he => he.elim (h.1 e) (h.2 e)⟩

theorem Inside.below {scope : NodePath} (h : Inside scope events)
    (ht : ∃ e ∈ events, touchOf key e ≠ none) : Below scope key := by
  obtain ⟨e, he, hk⟩ := ht
  obtain ⟨hterm, path, hs, hb⟩ := h e he
  obtain ⟨path', hs', rfl⟩ := key_of_touch hterm hk
  cases hs.symm.trans hs'
  exact hb

theorem Inside.untouched {scope : NodePath} (h : Inside scope events) (hk : ¬ Below scope key) :
    Untouched key events := by
  intro e he
  by_contra ht
  exact hk (h.below ⟨e, he, ht⟩)

def Alike (key : NodePath) (events events' : List RunEvent) : Prop :=
  events.filter (fun e => (touchOf key e).isSome) = events'.filter (fun e => (touchOf key e).isSome)

theorem after_filter (events : List RunEvent) (v : KeyView) :
    after key v (events.filter (fun e => (touchOf key e).isSome)) = after key v events := by
  induction events generalizing v with
  | nil => rfl
  | cons event rest ih =>
    cases ht : touchOf key event with
    | none =>
      have hv : v.next key event = v := by simp [KeyView.next, ht]
      rw [List.filter_cons_of_neg (by simp [ht]), ih, after_cons, hv]
    | some touch => rw [List.filter_cons_of_pos (by simp [ht]), after_cons, after_cons, ih]

theorem idle_filter (events : List RunEvent) : Idle key (events.filter (fun e => (touchOf key e).isSome)) ↔ Idle key events := by
  constructor
  · intro h e he
    by_cases ht : touchOf key e = none
    · exact .inl ht
    · exact h e (List.mem_filter.mpr ⟨he, Option.isSome_iff_ne_none.mpr ht⟩)
  · intro h e he
    exact h e (List.mem_filter.mp he).1

theorem Alike.after {events' : List RunEvent} (h : Alike key events events') (v : KeyView) :
    after key v events = after key v events' := by
  rw [← after_filter events, h, after_filter]

theorem Alike.idle {events' : List RunEvent} (h : Alike key events events') :
    Idle key events ↔ Idle key events' := by
  rw [← idle_filter events, h, idle_filter]

theorem Alike.closes {events' : List RunEvent} (h : Alike key events events') (hc : Closes key events') :
    Closes key events := by
  rcases hc with hi | hc
  · exact .inl (h.idle.mpr hi)
  · refine .inr ?_
    intro v
    rw [h.after]
    exact hc v

theorem Alike.rests {events' : List RunEvent} (h : Alike key events events') (hr : Rests key events') :
    Rests key events := by
  rcases hr with hi | hr
  · exact .inl (h.idle.mpr hi)
  · refine .inr ?_
    intro v
    rw [h.after]
    exact hr v

theorem Alike.asks {events' : List RunEvent} (h : Alike key events events') (ha : Asks key events') :
    Asks key events := by
  intro v
  rw [h.after]
  exact ha v

theorem alike_own {tagged : List (Nat × RunEvent)} {i : Nat}
    (h : ∀ j e, (j, e) ∈ tagged → touchOf key e ≠ none → j = i) :
    Alike key (tagged.map Prod.snd) (own i tagged) :=
  filter_own (fun j e hm hk => h j e hm (Option.isSome_iff_ne_none.mp hk))

end KimchiWorkflows.Engine
