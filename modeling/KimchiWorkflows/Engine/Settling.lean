import KimchiWorkflows.Engine.FanOutEffects
import KimchiWorkflows.Engine.KeyHistory

/-!
What the events of a construct leave open: nothing when it settles with an output; when it blocks, the
steps that wait and, around one that asks inside it, a branch arm.
-/

namespace KimchiWorkflows.Engine

open KimchiWorkflows.Flow Interleaving

variable {env : RunEnv} {reentered : Bool} {scope key : NodePath} {events first last : List RunEvent}
  {outcome : ExecOutcome}

/-- A step that already waited, inside the scope, and that the events leave alone. -/
def LeftWaiting (env : RunEnv) (scope key : NodePath) (events : List RunEvent) : Prop :=
  (Dict.get env.pendingBlocks key).isSome ∧ Below scope key ∧ Untouched key events

def Waits (env : RunEnv) (reentered : Bool) (scope key : NodePath) (events : List RunEvent) : Prop :=
  Asks key events ∨ (reentered = true ∧ LeftWaiting env scope key events)

/-- A human is asked inside an arm that the same events take. -/
def AsksInArm (events : List RunEvent) : Prop :=
  ∃ arm event block, RunEvent.branchArm arm true ∈ events ∧ event ∈ events ∧
    event.block? = some block ∧ Below (staticKeyOf arm) (staticKeyOf block.path)

structure Settles (env : RunEnv) (reentered : Bool) (scope : NodePath) (events : List RunEvent)
    (outcome : ExecOutcome) : Prop where
  inside : Inside scope events
  closes : ∀ output, outcome = .ok output → ∀ key, Closes key events
  waits : ∀ block, outcome = .blocked block → Waits env reentered scope (staticKeyOf block.path) events
  rests : ∀ block, outcome = .blocked block → (∀ key, Rests key events) ∨ AsksInArm events

def Quiet (events : List RunEvent) : Prop := ∀ key, Untouched key events

theorem AsksInArm.mono {events' : List RunEvent} (h : AsksInArm events) (hs : events ⊆ events') :
    AsksInArm events' := by
  obtain ⟨arm, event, block, ha, he, hb, hk⟩ := h
  exact ⟨arm, event, block, hs ha, hs he, hb, hk⟩

theorem Asks.asked (h : Asks key events) :
    ∃ event ∈ events, ∃ block, event.block? = some block ∧ staticKeyOf block.path = key :=
  exists_asked (v := {}) (by simp) (h {})

theorem LeftWaiting.mono {scope' : NodePath} (h : LeftWaiting env scope' key events)
    (hs : scope <+: scope') : LeftWaiting env scope key events :=
  ⟨h.1, ⟨hs.trans h.2.1.1, lt_of_le_of_lt hs.length_le h.2.1.2⟩, h.2.2⟩

theorem Waits.mono {scope' : NodePath} (h : Waits env reentered scope' key events)
    (hs : scope <+: scope') : Waits env reentered scope key events :=
  h.imp_right (fun hl => ⟨hl.1, hl.2.mono hs⟩)

theorem Waits.asks (h : Waits env false scope key events) : Asks key events := by
  rcases h with ha | ⟨hr, -⟩
  · exact ha
  · cases hr

theorem Waits.below (h : Waits env reentered scope key events) (hi : Inside scope events) :
    Below scope key := by
  rcases h with ha | ⟨-, hl⟩
  · exact hi.below (exists_touch ha)
  · exact hl.2.1

theorem Waits.after_quiet (h : Waits env reentered scope key events) (hq : Quiet first) :
    Waits env reentered scope key (first ++ events) := by
  rcases h with ha | ⟨hr, hp, hb, hu⟩
  · exact .inl (asks_append ha)
  · exact .inr ⟨hr, hp, hb, untouched_append.mpr ⟨hq key, hu⟩⟩

theorem Settles.widen {scope' : NodePath} (h : Settles env reentered scope' events outcome)
    (hs : scope <+: scope') : Settles env reentered scope events outcome :=
  ⟨h.inside.mono hs, h.closes, fun block hb => (h.waits block hb).mono hs, h.rests⟩

theorem rests_after_closed (hc : ∀ key, Closes key first)
    (h : (∀ key, Rests key last) ∨ AsksInArm last) :
    (∀ key, Rests key (first ++ last)) ∨ AsksInArm (first ++ last) := by
  rcases h with hr | ha
  · exact .inl (fun key => rests_append (hc key).rests (hr key))
  · exact .inr (ha.mono (List.subset_append_right _ _))

theorem Settles.after_quiet (h : Settles env reentered scope events outcome) (hq : Quiet first)
    (hi : Inside scope first) : Settles env reentered scope (first ++ events) outcome := by
  have hc : ∀ key, Closes key first := fun key => .inl (hq key).idle
  refine ⟨inside_append.mpr ⟨hi, h.inside⟩, ?_, ?_, ?_⟩
  · intro output ho key
    exact closes_append (hc key) (h.closes output ho key)
  · intro block hb
    exact (h.waits block hb).after_quiet hq
  · intro block hb
    exact rests_after_closed hc (h.rests block hb)

theorem Settles.after_closed (h : Settles env false scope events outcome)
    (hc : ∀ key, Closes key first) (hi : Inside scope first) :
    Settles env reentered scope (first ++ events) outcome := by
  refine ⟨inside_append.mpr ⟨hi, h.inside⟩, ?_, ?_, ?_⟩
  · intro output ho key
    exact closes_append (hc key) (h.closes output ho key)
  · intro block hb
    exact .inl (asks_append (h.waits block hb).asks)
  · intro block hb
    exact rests_after_closed hc (h.rests block hb)

theorem settles_closed {output : Value} (hi : Inside scope events) (hc : ∀ key, Closes key events) :
    Settles env reentered scope events (.ok output) :=
  ⟨hi, fun _ _ => hc, by simp, by simp⟩

theorem settles_stopped (hi : Inside scope events) (ho : outcome.held = false) :
    Settles env reentered scope events outcome := by
  refine ⟨hi, ?_, ?_, ?_⟩ <;> · rintro _ rfl; cases ho

theorem inside_nil : Inside scope [] := by simp [Inside]

theorem closes_nil : Closes key [] := .inl (by simp [Idle])

theorem closes_nodeCompleted (path : NodePath) (output : Value) : Closes key [.nodeCompleted path output] := by
  refine .inl ?_
  intro e he
  rw [List.mem_singleton.mp he]
  by_cases hk : staticKeyOf path = key
  · exact .inr (if_pos hk)
  · exact .inl (if_neg hk)

theorem inside_singleton {event : RunEvent} {path : NodePath} (ht : event.terminal = none)
    (hs : event.subject = some path) (hb : Below scope (staticKeyOf path)) : Inside scope [event] := by
  intro e he
  rw [List.mem_singleton.mp he]
  exact ⟨ht, path, hs, hb⟩

theorem below_appendSegment (parent : NodePath) (name : String) :
    Below (staticPathOf parent) (staticKeyOf (appendSegment parent name)) := by
  rw [staticKeyOf_appendSegment]
  exact below_append _ _

theorem below_appendLoopIteration (parent : NodePath) (name : String) (iteration : Nat) :
    Below (staticPathOf parent) (staticKeyOf (appendLoopIteration parent name iteration)) := by
  rw [staticKeyOf, staticPathOf_appendLoopIteration]
  exact below_append _ _

theorem below_appendForeachItem (parent : NodePath) (name : String) (index : Nat) :
    Below (staticPathOf parent) (staticKeyOf (appendForeachItem parent name index)) := by
  rw [staticKeyOf, staticPathOf_appendForeachItem]
  exact below_append _ _

section Step

variable {path : NodePath}

theorem subject_of_work {event : RunEvent} (h : event.work = some path) :
    event.terminal = none ∧ event.subject = some path := by
  cases event <;> simp_all [RunEvent.work, RunEvent.terminal, RunEvent.subject]

theorem subject_of_block {event : RunEvent} {block : PendingBlock} (h : event.block? = some block) :
    event.terminal = none ∧ event.subject = some block.path ∧
      ∀ key, touchOf key event = touchAt key block.path (.put .blocked) := by
  cases event <;> simp_all [RunEvent.block?, RunEvent.terminal, RunEvent.subject, touchOf] <;>
    exact ⟨by rw [← h], fun _ => by rw [← h]⟩

theorem inside_work {work : List RunEvent} (hw : ∀ e ∈ work, e.work = some path)
    (hb : Below scope (staticKeyOf path)) : Inside scope work :=
  fun e he => ⟨(subject_of_work (hw e he)).1, path, (subject_of_work (hw e he)).2, hb⟩

theorem StepRun.inside (h : StepRun path events outcome) (hb : Below scope (staticKeyOf path)) :
    Inside scope events := by
  cases h with
  | completed work output hw => exact inside_append.mpr ⟨inside_work hw hb, inside_singleton rfl rfl hb⟩
  | failed work error hw => exact inside_append.mpr ⟨inside_work hw hb, inside_singleton rfl rfl hb⟩
  | asked work event block hw he hp =>
    subst hp
    obtain ⟨ht, hs, -⟩ := subject_of_block he
    exact inside_append.mpr ⟨inside_work hw hb, inside_singleton ht hs hb⟩
  | crashed work error hw => exact inside_work hw hb
  | cancelled work source hw => exact inside_work hw hb

theorem StepRun.untouched (h : StepRun path events outcome) (hk : staticKeyOf path ≠ key) :
    Untouched key events := by
  have hall : ∀ e ∈ events, e.terminal = none ∧ e.subject = some path := by
    cases h with
    | completed work output hw =>
      intro e he
      rcases List.mem_append.mp he with he | he
      · exact subject_of_work (hw e he)
      · rw [List.mem_singleton.mp he]
        exact ⟨rfl, rfl⟩
    | failed work error hw =>
      intro e he
      rcases List.mem_append.mp he with he | he
      · exact subject_of_work (hw e he)
      · rw [List.mem_singleton.mp he]
        exact ⟨rfl, rfl⟩
    | asked work event block hw hb hp =>
      subst hp
      intro e he
      rcases List.mem_append.mp he with he | he
      · exact subject_of_work (hw e he)
      · rw [List.mem_singleton.mp he]
        exact ⟨(subject_of_block hb).1, (subject_of_block hb).2.1⟩
    | crashed work error hw => exact fun e he => subject_of_work (hw e he)
    | cancelled work source hw => exact fun e he => subject_of_work (hw e he)
  intro e he
  by_contra ht
  obtain ⟨hterm, hs⟩ := hall e he
  obtain ⟨path', hs', hk'⟩ := key_of_touch hterm ht
  cases hs.symm.trans hs'
  exact hk hk'

theorem after_settled {event : RunEvent} {state : StepState}
    (he : touchOf (staticKeyOf path) event = some (.put state)) (v : KeyView) :
    (after (staticKeyOf path) v (first ++ [event])).state = some state := by
  rw [after_append]
  simp [after, KeyView.next, he, KeyView.touch]

theorem StepRun.settles (h : StepRun path events outcome) (hb : Below scope (staticKeyOf path)) :
    Settles env reentered scope events outcome := by
  have hi := h.inside hb
  have closed : ∀ (event : RunEvent) (state : StepState), state.isOpen = false →
      touchOf (staticKeyOf path) event = some (.put state) →
      ∀ work, events = work ++ [event] → ∀ key, Closes key events := by
    intro event state hs he work hw key
    by_cases hk : staticKeyOf path = key
    · subst hk hw
      exact .inr (fun v => ⟨state, after_settled he v, hs⟩)
    · exact .inl (h.untouched hk).idle
  cases h with
  | completed work output hw =>
    exact settles_closed hi (closed (.stepCompleted path output) .completed rfl (if_pos rfl) work rfl)
  | failed work error hw =>
    exact settles_closed hi (closed (.stepFailed path error) .crashed rfl (if_pos rfl) work rfl)
  | asked work event block hw he hp =>
    have hasked := StepRun.asked work event block hw he hp
    have hput : touchOf (staticKeyOf path) event = some (.put .blocked) := by
      rw [(subject_of_block he).2.2, hp]
      exact if_pos rfl
    refine ⟨hi, by simp, ?_, ?_⟩
    · rintro b hb'
      cases hb'
      rw [hp]
      exact .inl (after_settled hput)
    · intro b hb'
      refine .inl ?_
      intro key
      by_cases hk : staticKeyOf path = key
      · subst hk
        exact .inr (fun v => ⟨.blocked, after_settled hput v, by simp⟩)
      · exact .inl (hasked.untouched hk).idle
  | crashed work error hw => exact settles_stopped hi rfl
  | cancelled work source hw => exact settles_stopped hi rfl

end Step

end KimchiWorkflows.Engine
