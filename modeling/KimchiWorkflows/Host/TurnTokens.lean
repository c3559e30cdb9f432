import KimchiWorkflows.Host.PiBridge
import KimchiWorkflows.Lib.Stepping

/-!
What the tokens of the bridge do guard: a call settles once, and the slot holds one that has not.
-/

namespace KimchiWorkflows.Host.PiBridge

open Stepping KimchiWorkflows.Engine.StepRunner

def Unsettled (b : Bridge) (call : Nat) : Prop := call ∉ b.settled.map Prod.fst

/-- The turn in the slot is that of a call that has not settled, under its own session. -/
structure Flying (b : Bridge) (turn : InFlight) : Prop where
  unsettled : Unsettled b turn.turn
  called : b.calls turn.turn = some turn.session
  begun : b.parked turn.turn = none
  named : ∃ request, b.requests turn.session = some request ∧ turn.identity = request.identity

structure Waiting (b : Bridge) (call session : Nat) : Prop where
  unsettled : Unsettled b call
  called : b.calls call = some session
  unsent : b.sent call = false

structure Sound (b : Bridge) : Prop where
  once : (b.settled.map Prod.fst).Nodup
  flying : ∀ turn, b.inFlight = some turn → Flying b turn
  waiting : ∀ call parked, b.parked call = some parked → Waiting b call parked.session
  fresh : ∀ call, b.calls call = none → Unsettled b call ∧ b.sent call = false ∧ b.parked call = none
  heard : ∀ said ∈ b.delivered, b.sent said.1 = true

variable {b b' : Bridge} {call session loop : Nat} {outcome : TurnOutcome} {turn : InFlight} {request : SessionRequest}
  {watchesUsage : Bool} {sends : Except String Unit}

theorem sound_empty : Sound {} where
  once := List.nodup_nil
  flying := by simp
  waiting := by simp
  fresh := by simp [Unsettled]
  heard := by simp

theorem unsettled_settle {other : Nat} (h : Unsettled b other) (hne : other ≠ call) :
    Unsettled (settle b call outcome) other := by
  unfold Unsettled settle
  rw [List.map_append, List.mem_append, not_or]
  exact ⟨h, by simpa using hne⟩

theorem Sound.settle (h : Sound b) (hcall : Unsettled b call) (hcalled : b.calls call ≠ none)
    (hparked : b.parked call = none) (hslot : ∀ turn, b.inFlight = some turn → turn.turn ≠ call) :
    Sound (settle b call outcome) where
  once := by
    show ((b.settled ++ [(call, outcome)]).map Prod.fst).Nodup
    rw [List.map_append, List.nodup_append]
    refine ⟨h.once, by simp, ?_⟩
    intro other hm last hl
    obtain rfl : last = call := by simpa using hl
    rintro rfl
    exact hcall hm
  flying turn ht :=
    { unsettled := unsettled_settle (h.flying turn ht).unsettled (hslot turn ht)
      called := (h.flying turn ht).called
      begun := (h.flying turn ht).begun
      named := (h.flying turn ht).named }
  waiting other parked hp := by
    obtain ⟨hunsettled, hother, hunsent⟩ := h.waiting other parked hp
    refine ⟨unsettled_settle hunsettled ?_, hother, hunsent⟩
    rintro rfl
    exact absurd (hp.symm.trans hparked) (by simp)
  fresh other ho := by
    obtain ⟨hunsettled, hrest⟩ := h.fresh other ho
    refine ⟨unsettled_settle hunsettled ?_, hrest⟩
    rintro rfl
    exact hcalled ho
  heard := h.heard

theorem Sound.empty (h : Sound b) : Sound { b with inFlight := none } where
  once := h.once
  flying := by simp
  waiting call parked hp := ⟨(h.waiting call parked hp).unsettled, (h.waiting call parked hp).called,
    (h.waiting call parked hp).unsent⟩
  fresh := h.fresh
  heard := h.heard

theorem Sound.retouch (h : Sound b) {touched : Option InFlight}
    (ht : ∀ new, touched = some new → ∃ turn, b.inFlight = some turn ∧ new.turn = turn.turn ∧
      new.session = turn.session ∧ new.identity = turn.identity)
    (conversations : Nat → AgentMessages) (aborted : Nat → Bool) (reported : List (Nat × Nat)) :
    Sound { b with inFlight := touched, conversations := conversations, aborted := aborted, reported := reported } where
  once := h.once
  flying new hn := by
    obtain ⟨turn, hturn, htoken, hsession, hidentity⟩ := ht new hn
    obtain ⟨hunsettled, hcalled, hbegun, hnamed⟩ := h.flying turn hturn
    refine ⟨?_, ?_, ?_, ?_⟩
    · rw [htoken]
      exact hunsettled
    · rw [htoken, hsession]
      exact hcalled
    · rw [htoken]
      exact hbegun
    · rw [hsession, hidentity]
      exact hnamed
  waiting call parked hp := ⟨(h.waiting call parked hp).unsettled, (h.waiting call parked hp).called,
    (h.waiting call parked hp).unsent⟩
  fresh := h.fresh
  heard := h.heard

theorem Sound.take (h : Sound b) (hcall : Unsettled b call) (hcalled : b.calls call = some session)
    (hparked : b.parked call = none) (hrequest : b.requests session = some request) :
    Sound { b with inFlight := some (startedTurn b session call request watchesUsage)
                   sent := Function.update b.sent call true } where
  once := h.once
  flying turn ht := by
    cases ht
    exact ⟨hcall, hcalled, hparked, request, hrequest, rfl⟩
  waiting other parked hp := by
    obtain ⟨hunsettled, hother, hunsent⟩ := h.waiting other parked hp
    have hne : other ≠ call := by
      rintro rfl
      exact absurd (hp.symm.trans hparked) (by simp)
    exact ⟨hunsettled, hother, (Function.update_of_ne hne _ _).trans hunsent⟩
  fresh other ho := by
    obtain ⟨hunsettled, hunsent, hnone⟩ := h.fresh other ho
    have hne : other ≠ call := by
      rintro rfl
      exact absurd (ho.symm.trans hcalled) (by simp)
    exact ⟨hunsettled, (Function.update_of_ne hne _ _).trans hunsent, hnone⟩
  heard said hm := by
    show Function.update b.sent call true said.1 = true
    by_cases hsaid : said.1 = call
    · rw [hsaid, Function.update_self]
    · rw [Function.update_of_ne hsaid]
      exact h.heard said hm

theorem Sound.beginTurn (h : Sound b) (hcall : Unsettled b call) (hcalled : b.calls call = some session)
    (hparked : b.parked call = none) (hrequest : b.requests session = some request)
    (hslot : ∀ turn, b.inFlight = some turn → turn.turn ≠ call) :
    Sound (beginTurn b session call request watchesUsage sends) := by
  have hknown : b.calls call ≠ none := by simp [hcalled]
  unfold PiBridge.beginTurn
  split_ifs with haborted
  · exact h.settle hcall hknown hparked hslot
  · cases sends with
    | error error => exact h.empty.settle hcall hknown hparked (by simp)
    | ok done =>
      cases done
      exact h.take hcall hcalled hparked hrequest

theorem Sound.called (h : Sound b) (hfresh : b.calls call = none) : Sound (called b session call) where
  once := h.once
  flying turn ht := by
    obtain ⟨hturn, hsession, hbegun, hnamed⟩ := h.flying turn ht
    have hne : turn.turn ≠ call := by
      rintro rfl
      exact absurd (hsession.symm.trans hfresh) (by simp)
    exact ⟨hturn, (Function.update_of_ne hne _ _).trans hsession, hbegun, hnamed⟩
  waiting other parked hp := by
    obtain ⟨hother, hsession, hrest⟩ := h.waiting other parked hp
    have hne : other ≠ call := by
      rintro rfl
      exact absurd (hsession.symm.trans hfresh) (by simp)
    exact ⟨hother, (Function.update_of_ne hne _ _).trans hsession, hrest⟩
  fresh other ho := by
    apply h.fresh
    by_cases he : other = call
    · simp [PiBridge.called, he] at ho
    · exact (Function.update_of_ne he _ _).symm.trans ho
  heard := h.heard

theorem Sound.park (h : Sound b) (hcall : Unsettled b call) (hcalled : b.calls call = some session)
    (hunsent : b.sent call = false) (hslot : ∀ turn, b.inFlight = some turn → turn.turn ≠ call)
    {waiting : Option Parked} (hwaiting : ∀ parked, waiting = some parked → parked.session = session) :
    Sound (park b call waiting) where
  once := h.once
  flying turn ht := by
    obtain ⟨hturn, hsession, hbegun, hnamed⟩ := h.flying turn ht
    exact ⟨hturn, hsession, (Function.update_of_ne (hslot turn ht) _ _).trans hbegun, hnamed⟩
  waiting other parked hp := by
    by_cases he : other = call
    · subst he
      have hpark : (PiBridge.park b other waiting).parked other = waiting := Function.update_self ..
      have hs : parked.session = session := hwaiting parked (hpark.symm.trans hp)
      exact ⟨hcall, hs ▸ hcalled, hunsent⟩
    · obtain ⟨hother, hsession, hnever⟩ := h.waiting other parked ((Function.update_of_ne he _ _).symm.trans hp)
      exact ⟨hother, hsession, hnever⟩
  fresh other ho := by
    obtain ⟨hother, hnever, hnone⟩ := h.fresh other ho
    have hne : other ≠ call := by
      rintro rfl
      exact absurd (hcalled.symm.trans ho) (by simp)
    exact ⟨hother, hnever, (Function.update_of_ne hne _ _).trans hnone⟩
  heard := h.heard

theorem sendAndAwaitEnd_cases (b : Bridge) (session call : Nat) (request : SessionRequest) (watchesUsage : Bool)
    (sends : Except String Unit) :
    (∃ error, sendAndAwaitEnd b session call request watchesUsage sends = reject (called b session call) call error) ∨
    sendAndAwaitEnd b session call request watchesUsage sends =
      beginTurn (called b session call) session call request watchesUsage sends ∨
    sendAndAwaitEnd b session call request watchesUsage sends =
      park (called b session call) call (some ⟨session, watchesUsage⟩) := by
  unfold sendAndAwaitEnd
  split
  · exact .inl ⟨_, rfl⟩
  · split
    · exact .inr (.inl rfl)
    · split_ifs
      · exact .inr (.inr rfl)
      · exact .inl ⟨_, rfl⟩

theorem modelSet_cases (b : Bridge) (call : Nat) (waiting : Parked) (request : SessionRequest)
    (result : Except String Bool) (sends : Except String Unit) :
    (∃ error, modelSet b call waiting request result sends = reject (park b call none) call error) ∨
    modelSet b call waiting request result sends =
      beginTurn (park b call none) waiting.session call request waiting.watchesUsage sends := by
  unfold modelSet
  split
  · exact .inl ⟨_, rfl⟩
  · exact .inl ⟨_, rfl⟩
  · exact .inr rfl

theorem Sound.send (h : Sound b) (hfresh : b.calls call = none) (hrequest : b.requests session = some request) :
    Sound (sendAndAwaitEnd b session call request watchesUsage sends) := by
  obtain ⟨hunsettled, hunsent, hparked⟩ := h.fresh call hfresh
  have hslot : ∀ turn, (PiBridge.called b session call).inFlight = some turn → turn.turn ≠ call := by
    rintro turn ht rfl
    exact absurd ((h.flying turn ht).called.symm.trans hfresh) (by simp)
  have hcalled : Sound (PiBridge.called b session call) := h.called hfresh
  have hown : (PiBridge.called b session call).calls call = some session := Function.update_self ..
  obtain ⟨error, hs⟩ | hs | hs := sendAndAwaitEnd_cases b session call request watchesUsage sends
  · rw [hs]
    exact hcalled.settle hunsettled (by simp [hown]) hparked hslot
  · rw [hs]
    exact hcalled.beginTurn hunsettled hown hparked hrequest hslot
  · rw [hs]
    refine hcalled.park hunsettled hown hunsent hslot ?_
    rintro parked hp
    cases hp
    rfl

theorem Sound.back (h : Sound b) {waiting : Parked} (hwaits : b.parked call = some waiting) :
    Sound (PiBridge.park b call none) := by
  obtain ⟨hunsettled, hcalled, hunsent⟩ := h.waiting call waiting hwaits
  refine h.park hunsettled hcalled hunsent ?_ (by simp)
  rintro turn ht rfl
  exact absurd (hwaits.symm.trans (h.flying turn ht).begun) (by simp)

theorem Sound.modelSet (h : Sound b) {waiting : Parked} (hwaits : b.parked call = some waiting)
    (hrequest : b.requests waiting.session = some request) (result : Except String Bool) :
    Sound (modelSet b call waiting request result sends) := by
  obtain ⟨hunsettled, hcalled, -⟩ := h.waiting call waiting hwaits
  have hslot : ∀ turn, b.inFlight = some turn → turn.turn ≠ call := by
    rintro turn ht rfl
    exact absurd (hwaits.symm.trans (h.flying turn ht).begun) (by simp)
  have hback : Sound (PiBridge.park b call none) := h.back hwaits
  have hown : (PiBridge.park b call none).calls call = some waiting.session := hcalled
  have hnone : (PiBridge.park b call none).parked call = none := Function.update_self ..
  obtain ⟨error, hs⟩ | hs := modelSet_cases b call waiting request result sends
  · rw [hs]
    exact hback.settle hunsettled (by simp [hown]) hnone hslot
  · rw [hs]
    exact hback.beginTurn hunsettled hown hnone hrequest hslot

theorem Sound.messageUpdate (h : Sound b) (ht : b.inFlight = some turn) (message : AgentMessage) :
    Sound (onMessageUpdate b turn message) := by
  unfold onMessageUpdate
  split
  · exact h
  · refine h.retouch ?_ b.conversations b.aborted _
    intro new hn
    cases hn
    exact ⟨turn, ht, rfl, rfl, rfl⟩

theorem Sound.event (h : Sound b) (hslot : b.inFlight = some turn) (event : LifecycleEvent) :
    Sound (onEvent b turn event) := by
  cases event with
  | agentStart =>
    refine h.retouch ?_ b.conversations b.aborted b.reported
    intro new hn
    cases hn
    exact ⟨turn, hslot, rfl, rfl, rfl⟩
  | messageUpdate message => exact h.messageUpdate hslot message
  | agentEnd messages =>
    refine h.retouch ?_ _ b.aborted b.reported
    intro new hn
    cases hn
    exact ⟨turn, hslot, rfl, rfl, rfl⟩
  | agentSettled =>
    obtain ⟨hunsettled, hcalled, hbegun, -⟩ := h.flying turn hslot
    exact h.empty.settle hunsettled (by simp [hcalled]) hbegun (by simp)

theorem onLifecycle_of_slot (hslot : b.inFlight = some turn) (event : LifecycleEvent) :
    onLifecycle b event = onEvent b turn event := by
  rw [onLifecycle, hslot, Option.elim_some]

theorem onLifecycle_of_empty (hslot : b.inFlight = none) (event : LifecycleEvent) : onLifecycle b event = b := by
  rw [onLifecycle, hslot, Option.elim_none]

theorem Sound.lifecycle (h : Sound b) (event : LifecycleEvent) : Sound (onLifecycle b event) := by
  cases hslot : b.inFlight with
  | none => rwa [onLifecycle_of_empty hslot]
  | some turn =>
    rw [onLifecycle_of_slot hslot]
    exact h.event hslot event

structure Alike (b b' : Bridge) : Prop where
  sent : b'.sent = b.sent
  delivered : b'.delivered = b.delivered
  branch : b'.branch = b.branch
  writers : b'.writers = b.writers
  calls : b'.calls = b.calls
  requests : b'.requests = b.requests

theorem alike_onLifecycle (event : LifecycleEvent) : Alike b (onLifecycle b event) := by
  cases hslot : b.inFlight with
  | none =>
    rw [onLifecycle_of_empty hslot]
    exact ⟨rfl, rfl, rfl, rfl, rfl, rfl⟩
  | some turn =>
    rw [onLifecycle_of_slot hslot]
    cases event with
    | agentStart => exact ⟨rfl, rfl, rfl, rfl, rfl, rfl⟩
    | messageUpdate message =>
      simp only [onEvent, onMessageUpdate]
      split
      · exact ⟨rfl, rfl, rfl, rfl, rfl, rfl⟩
      · exact ⟨rfl, rfl, rfl, rfl, rfl, rfl⟩
    | agentEnd messages => exact ⟨rfl, rfl, rfl, rfl, rfl, rfl⟩
    | agentSettled => exact ⟨rfl, rfl, rfl, rfl, rfl, rfl⟩

theorem Sound.deliver (h : Sound b) (hsent : b.sent loop = true) (event : LifecycleEvent) :
    Sound (deliver b loop event) := by
  have hafter := h.lifecycle event
  refine ⟨hafter.once, ?_, ?_, hafter.fresh, ?_⟩
  · intro turn ht
    exact ⟨(hafter.flying turn ht).unsettled, (hafter.flying turn ht).called, (hafter.flying turn ht).begun,
      (hafter.flying turn ht).named⟩
  · intro call parked hp
    exact ⟨(hafter.waiting call parked hp).unsettled, (hafter.waiting call parked hp).called,
      (hafter.waiting call parked hp).unsent⟩
  · intro said hm
    show (onLifecycle b event).sent said.1 = true
    rw [(alike_onLifecycle event).sent]
    obtain hbefore | hnew := List.mem_append.mp hm
    · exact h.heard said hbefore
    · cases event <;> simp [endedWith] at hnew
      rw [hnew]
      exact hsent

theorem Sound.idle (h : Sound b) (call : Nat) (failure : Option String) : Sound (onIdle b call failure) := by
  unfold onIdle
  split
  · exact h
  · rename_i turn hslot
    split_ifs with hown
    · obtain ⟨rfl, -⟩ := hown
      obtain ⟨hunsettled, hcalled, hbegun, -⟩ := h.flying turn hslot
      exact h.empty.settle hunsettled (by simp [hcalled]) hbegun (by simp)
    · exact h

theorem Sound.step (h : Sound b) {action : BridgeAct} (hs : bridgeStep b action = some b') : Sound b' := by
  cases action with
  | start session request =>
    simp only [bridgeStep] at hs
    split_ifs at hs with hnew
    cases hs
    refine ⟨h.once, ?_, ?_, h.fresh, h.heard⟩
    · intro turn ht
      obtain ⟨hunsettled, hcalled, hbegun, known, hknown, hidentity⟩ := h.flying turn ht
      have hne : turn.session ≠ session := by
        rintro rfl
        simp [hknown] at hnew
      exact ⟨hunsettled, hcalled, hbegun, known, (Function.update_of_ne hne _ _).trans hknown, hidentity⟩
    · intro call parked hp
      exact ⟨(h.waiting call parked hp).unsettled, (h.waiting call parked hp).called,
        (h.waiting call parked hp).unsent⟩
  | send session call watchesUsage sends =>
    simp only [bridgeStep] at hs
    split_ifs at hs with hfresh
    obtain ⟨request, hrequest, rfl⟩ := Option.map_eq_some_iff.mp hs
    exact h.send (Option.isNone_iff_eq_none.mp hfresh) hrequest
  | modelSet call result sends =>
    obtain ⟨waiting, hwaits, hr⟩ := Option.bind_eq_some_iff.mp hs
    obtain ⟨request, hrequest, rfl⟩ := Option.map_eq_some_iff.mp hr
    exact h.modelSet hwaits hrequest result
  | lifecycle loop event =>
    simp only [bridgeStep] at hs
    split_ifs at hs with hsent
    cases hs
    exact h.deliver hsent event
  | wrote loop entry =>
    simp only [bridgeStep] at hs
    split_ifs at hs
    cases hs
    refine ⟨h.once, ?_, ?_, h.fresh, h.heard⟩
    · intro turn ht
      exact ⟨(h.flying turn ht).unsettled, (h.flying turn ht).called, (h.flying turn ht).begun,
        (h.flying turn ht).named⟩
    · intro call parked hp
      exact ⟨(h.waiting call parked hp).unsettled, (h.waiting call parked hp).called,
        (h.waiting call parked hp).unsent⟩
  | abort signal =>
    cases hs
    refine h.retouch ?_ b.conversations _ b.reported
    intro new hn
    obtain ⟨turn, hslot, rfl⟩ := Option.map_eq_some_iff.mp hn
    refine ⟨turn, hslot, ?_⟩
    split_ifs
    · exact ⟨rfl, rfl, rfl⟩
    · exact ⟨rfl, rfl, rfl⟩
  | interrupt =>
    cases hs
    refine h.retouch ?_ b.conversations b.aborted b.reported
    intro new hn
    obtain ⟨turn, hslot, rfl⟩ := Option.map_eq_some_iff.mp hn
    refine ⟨turn, hslot, ?_⟩
    split_ifs
    · exact ⟨rfl, rfl, rfl⟩
    · exact ⟨rfl, rfl, rfl⟩
  | idle call failure =>
    cases hs
    exact h.idle call failure
  | dispose session =>
    cases hs
    refine h.retouch ?_ b.conversations b.aborted b.reported
    intro new hn
    exact ⟨new, (Option.filter_eq_some_iff.mp hn).1, rfl, rfl, rfl⟩

/-- No run of the bridge settles a call twice, whatever arrives when. -/
theorem sound_of_run {Meets : Bridge → BridgeAct → Prop} {actions : List BridgeAct}
    (h : Run bridgeStep Meets {} actions b) : Sound b :=
  h.keeps sound_empty (fun _ _ _ hsound _ hs => hsound.step hs)

end KimchiWorkflows.Host.PiBridge
