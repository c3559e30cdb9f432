import KimchiWorkflows.Host.IsolatedTurns

/-!
Turns do not cross-talk exactly while no event of an earlier loop meets a later turn.
-/

namespace KimchiWorkflows.Host.PiBridge

open Stepping KimchiWorkflows.Engine.StepRunner

variable {b b' : Bridge} {loop : Nat} {action : BridgeAct} {actions : List BridgeAct}

theorem Own.deliver_within {turn : InFlight} {event : LifecycleEvent} (h : Own b) (hslot : b.inFlight = some turn)
    (hsent : b.sent turn.turn = true) (hends : endedWith turn.turn event = []) (hevent : event ≠ .agentSettled) :
    Own (deliver b turn.turn event) := by
  have hafter : onLifecycle b event = onEvent b turn event := onLifecycle_of_slot hslot event
  have hsame : (∀ new, (onEvent b turn event).inFlight = some new → new.turn = turn.turn ∧
      new.terminal = turn.terminal) ∧ (onEvent b turn event).settled = b.settled ∧
      (onEvent b turn event).conversations = b.conversations := by
    cases event with
    | agentStart =>
      refine ⟨?_, rfl, rfl⟩
      intro new hn
      cases hn
      exact ⟨rfl, rfl⟩
    | messageUpdate message =>
      simp only [onEvent, onMessageUpdate]
      split
      · refine ⟨?_, rfl, rfl⟩
        intro new hn
        obtain rfl : turn = new := Option.some.inj (hslot.symm.trans hn)
        exact ⟨rfl, rfl⟩
      · refine ⟨?_, rfl, rfl⟩
        intro new hn
        cases hn
        exact ⟨rfl, rfl⟩
    | agentEnd messages => cases hends
    | agentSettled => exact absurd rfl hevent
  obtain ⟨hturn, hsettled, hconversations⟩ := hsame
  rw [← hafter] at hturn hsettled hconversations
  refine h.quiet (h.sound.deliver hsent event) (extends_deliver b _ event) ?_ ?_ hconversations
  · intro new hn
    obtain ⟨htoken, hterminal⟩ := hturn new hn
    rw [ownEnds_deliver, hends, htoken, hterminal]
    simpa using h.terminal turn hslot
  · intro call reply entry hm
    rwa [← hsettled]

theorem Own.deliver {event : LifecycleEvent} (h : Own b) (hsent : b.sent loop = true)
    (htimely : Timely b (.lifecycle loop event)) : Own (deliver b loop event) := by
  cases hslot : b.inFlight with
  | none => exact h.deliver_ignored hsent (by simp [hslot])
  | some turn =>
    by_cases hown : turn.turn = loop
    · subst hown
      cases event with
      | agentStart => exact h.deliver_within hslot hsent rfl (by simp)
      | messageUpdate message => exact h.deliver_within hslot hsent rfl (by simp)
      | agentEnd messages => exact h.deliver_agentEnd hslot hsent messages
      | agentSettled => exact h.deliver_agentSettled hslot hsent ((htimely turn hslot).2 rfl rfl)
    · refine h.deliver_ignored hsent ?_
      intro other ho
      obtain rfl : turn = other := Option.some.inj (hslot.symm.trans ho)
      exact ⟨hown, (htimely turn hslot).1 hown⟩

theorem Own.step (h : Own b) (htimely : Timely b action) (hs : bridgeStep b action = some b') : Own b' := by
  have hsound : Sound b' := h.sound.step hs
  cases action with
  | start session request =>
    simp only [bridgeStep] at hs
    split_ifs at hs with hnew
    cases hs
    refine h.quiet hsound ⟨⟨[], (List.append_nil _).symm⟩, fun _ _ hc => hc, ?_, fun _ hm => ⟨hm, rfl⟩⟩ h.terminal
      (fun _ _ _ hm => hm) rfl
    intro other known hk
    have hne : other ≠ session := by
      rintro rfl
      simp [hk] at hnew
    exact (Function.update_of_ne hne _ _).trans hk
  | send session call watchesUsage sends =>
    simp only [bridgeStep] at hs
    split_ifs at hs with hfresh
    obtain ⟨request, hrequest, rfl⟩ := Option.map_eq_some_iff.mp hs
    exact h.send (Option.isNone_iff_eq_none.mp hfresh) hrequest
  | modelSet call result sends =>
    obtain ⟨waiting, hwaits, hr⟩ := Option.bind_eq_some_iff.mp hs
    obtain ⟨request, hrequest, rfl⟩ := Option.map_eq_some_iff.mp hr
    exact h.modelSet hwaits hrequest result
  | lifecycle loop event =>
    simp only [bridgeStep] at hs
    split_ifs at hs with hsent
    cases hs
    exact h.deliver hsent htimely
  | wrote loop entry =>
    simp only [bridgeStep] at hs
    split_ifs at hs with hnew
    cases hs
    refine h.quiet hsound ⟨⟨[], (List.append_nil _).symm⟩, fun _ _ hc => hc, fun _ _ hr => hr, ?_⟩ h.terminal
      (fun _ _ _ hm => hm) rfl
    intro other hm
    refine ⟨List.mem_append_left _ hm, Function.update_of_ne ?_ _ _⟩
    intro hid
    exact hnew.2 (List.mem_map.mpr ⟨other, hm, hid⟩)
  | abort signal =>
    cases hs
    refine h.retouch ?_ _ b.reported
    intro new hn
    obtain ⟨turn, hslot, rfl⟩ := Option.map_eq_some_iff.mp hn
    refine ⟨turn, hslot, ?_⟩
    split_ifs
    · exact ⟨rfl, rfl, rfl, rfl⟩
    · exact ⟨rfl, rfl, rfl, rfl⟩
  | interrupt =>
    cases hs
    refine h.retouch ?_ b.aborted b.reported
    intro new hn
    obtain ⟨turn, hslot, rfl⟩ := Option.map_eq_some_iff.mp hn
    refine ⟨turn, hslot, ?_⟩
    split_ifs
    · exact ⟨rfl, rfl, rfl, rfl⟩
    · exact ⟨rfl, rfl, rfl, rfl⟩
  | idle call failure =>
    cases hs
    exact h.idle call failure
  | dispose session =>
    cases hs
    refine h.retouch ?_ b.aborted b.reported
    intro new hn
    exact ⟨new, (Option.filter_eq_some_iff.mp hn).1, rfl, rfl, rfl, rfl⟩

theorem own_empty : Own {} where
  sound := sound_empty
  terminal := by simp
  replies := by simp
  recorded session := ⟨[], List.nil_sublist _, rfl⟩

theorem own_of_run (h : Run bridgeStep Timely {} actions b) : Own b :=
  h.keeps own_empty (fun _ _ _ hown htimely hs => hown.step htimely hs)

theorem isolated_of_timely (h : Own b) (htimely : Timely b action) : Isolated b action := by
  intro b' hs
  refine ⟨?_, (h.step htimely hs).ownReplies⟩
  cases action with
  | lifecycle loop event =>
    intro turn hslot hne
    simp only [bridgeStep] at hs
    split_ifs at hs
    cases hs
    exact (ignores_iff hslot event).mp ((htimely turn hslot).1 hne)
  | _ => trivial

theorem timely_of_isolated (hs : bridgeStep b action = some b') (h : Isolated b action) : Timely b action := by
  obtain ⟨hunmixed, hreplies⟩ := h b' hs
  cases action with
  | lifecycle loop event =>
    intro turn hslot
    simp only [bridgeStep] at hs
    split_ifs at hs
    cases hs
    refine ⟨?_, ?_⟩
    · intro hne
      exact (ignores_iff hslot event).mpr (hunmixed turn hslot hne)
    · rintro rfl rfl entry hentry
      have hafter : onLifecycle b .agentSettled = onAgentSettled b turn := onLifecycle_of_slot hslot _
      have hresolved : (turn.turn, TurnOutcome.resolved (reply b turn) (submittedIn b turn)) ∈
          (deliver b turn.turn .agentSettled).settled := by
        show _ ∈ (onLifecycle b .agentSettled).settled
        rw [hafter]
        exact List.mem_append_right _ (List.mem_singleton_self _)
      have hwritten := ((hreplies.replies _ _ _ hresolved).written entry hentry).2
      rwa [show (deliver b turn.turn .agentSettled).writers = b.writers from (alike_onLifecycle _).writers] at hwritten
  | _ => trivial

/-- In a run of any length the turns are isolated throughout exactly if every event comes in its turn's time. -/
theorem isolated_iff_timely (actions : List BridgeAct) (b : Bridge) :
    Run bridgeStep Isolated {} actions b ↔ Run bridgeStep Timely {} actions b := by
  constructor
  · intro h
    induction h with
    | nil => exact .nil
    | snoc hrun hs hisolated ih => exact .snoc ih hs (timely_of_isolated hs hisolated)
  · intro h
    induction h with
    | nil => exact .nil
    | snoc hrun hs htimely ih => exact .snoc ih hs (isolated_of_timely (own_of_run hrun) htimely)

section Sample

def asking (stepName : String) : SessionRequest := { stepName := stepName, identity := ⟨"run-1", stepName, 1⟩ }

def saying (text : String) : AgentMessages := [.assistant (some [.text text]) (some 1) (some "stop") none]

/-- The first step's session is disposed while its loop still runs; the loop ends after the second step's turn began. -/
def disposedEarly : List BridgeAct :=
  [.start 0 (asking "first"), .send 0 0 false (.ok ()), .lifecycle 0 .agentStart, .dispose 0,
    .start 1 (asking "second"), .send 1 1 false (.ok ()), .lifecycle 0 (.agentEnd (saying "of the first")),
    .lifecycle 0 .agentSettled]

theorem ownReplies_of_run (h : Run bridgeStep Isolated {} actions b) : OwnReplies b := by
  cases h with
  | nil => exact own_empty.ownReplies
  | snoc hrun hs hisolated => exact (hisolated b hs).2

/-- The second call resolves with what the first one's loop said. -/
theorem late_loop_settles_newer_call : ∃ b reply, Run bridgeStep Unconditional {} disposedEarly b ∧
    (1, .resolved reply none) ∈ b.settled ∧ reply.text = "of the first" ∧ ownEnds b 1 = [] ∧
    ¬ Run bridgeStep Isolated {} disposedEarly b := by
  refine ⟨_, _, run_of_steps rfl, List.mem_singleton_self _, rfl, rfl, ?_⟩
  intro h
  obtain ⟨ends, hends, htext, -⟩ := ((ownReplies_of_run h).replies 1 _ none (List.mem_singleton_self _)).said
  have hnone : ends = [] := List.prefix_nil.mp hends
  rw [hnone] at htext
  exact absurd htext (by decide)

end Sample

end KimchiWorkflows.Host.PiBridge
