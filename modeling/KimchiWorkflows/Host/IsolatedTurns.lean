import KimchiWorkflows.Host.TurnIsolation

namespace KimchiWorkflows.Host.PiBridge

open Stepping KimchiWorkflows.Engine.StepRunner

variable {b b' : Bridge} {call session loop : Nat} {turn : InFlight} {request : SessionRequest} {watchesUsage : Bool}
  {sends : Except String Unit}

theorem Own.reject {error : String} (h : Own b) (hsound : Sound (reject b call error)) : Own (reject b call error) :=
  h.quiet hsound (extends_of_eq rfl rfl rfl rfl rfl) h.terminal
    (fun other reply entry hm => resolved_of_reject other reply entry hm) rfl

theorem Own.retouch (h : Own b) {touched : Option InFlight}
    (ht : ∀ new, touched = some new → ∃ turn, b.inFlight = some turn ∧ new.turn = turn.turn ∧
      new.session = turn.session ∧ new.identity = turn.identity ∧ new.terminal = turn.terminal)
    (aborted : Nat → Bool) (reported : List (Nat × Nat)) :
    Own { b with inFlight := touched, aborted := aborted, reported := reported } := by
  refine h.quiet ?_ (extends_of_eq rfl rfl rfl rfl rfl) ?_ (fun _ _ _ hm => hm) rfl
  · refine h.sound.retouch ?_ b.conversations aborted reported
    intro new hn
    obtain ⟨turn, hslot, htoken, hsession, hidentity, -⟩ := ht new hn
    exact ⟨turn, hslot, htoken, hsession, hidentity⟩
  · intro new hn
    obtain ⟨turn, hslot, htoken, -, -, hterminal⟩ := ht new hn
    rw [hterminal, htoken]
    exact h.terminal turn hslot

theorem Own.beginTurn (h : Own b) (hsound : Sound (beginTurn b session call request watchesUsage sends))
    (hunsent : b.sent call = false) : Own (beginTurn b session call request watchesUsage sends) := by
  unfold PiBridge.beginTurn at hsound ⊢
  split_ifs at hsound ⊢
  · exact h.reject hsound
  · cases sends with
    | error error => exact (h.retouch (by simp) b.aborted b.reported).reject hsound
    | ok done =>
      cases done
      refine h.quiet hsound (extends_of_eq rfl rfl rfl rfl rfl) ?_ (fun _ _ _ hm => hm) rfl
      intro new hn
      cases hn
      show _ = latestEnd (ownEnds b call)
      rw [ownEnds_of_unsent h.sound hunsent]
      rfl

theorem Own.called (h : Own b) (hfresh : b.calls call = none) : Own (called b session call) := by
  refine h.quiet (h.sound.called hfresh) ⟨⟨[], (List.append_nil _).symm⟩, ?_, fun _ _ hr => hr, fun _ hm => ⟨hm, rfl⟩⟩
    h.terminal (fun _ _ _ hm => hm) rfl
  intro other known hk
  have hne : other ≠ call := by
    rintro rfl
    exact absurd (hk.symm.trans hfresh) (by simp)
  exact (Function.update_of_ne hne _ _).trans hk

theorem Own.park (h : Own b) {waiting : Option Parked} (hsound : Sound (park b call waiting)) :
    Own (park b call waiting) :=
  h.quiet hsound (extends_of_eq rfl rfl rfl rfl rfl) h.terminal (fun _ _ _ hm => hm) rfl

theorem Own.send (h : Own b) (hfresh : b.calls call = none) (hrequest : b.requests session = some request) :
    Own (sendAndAwaitEnd b session call request watchesUsage sends) := by
  have hcalled : Own (PiBridge.called b session call) := h.called hfresh
  have hsound : Sound (sendAndAwaitEnd b session call request watchesUsage sends) := h.sound.send hfresh hrequest
  obtain ⟨error, hs⟩ | hs | hs := sendAndAwaitEnd_cases b session call request watchesUsage sends
  · rw [hs] at hsound ⊢
    exact hcalled.reject hsound
  · rw [hs] at hsound ⊢
    exact hcalled.beginTurn hsound (h.sound.fresh call hfresh).2.1
  · rw [hs] at hsound ⊢
    exact hcalled.park hsound

theorem Own.modelSet (h : Own b) {waiting : Parked} (hwaits : b.parked call = some waiting)
    (hrequest : b.requests waiting.session = some request) (result : Except String Bool) :
    Own (modelSet b call waiting request result sends) := by
  have hback : Own (PiBridge.park b call none) := h.park (h.sound.back hwaits)
  have hsound : Sound (PiBridge.modelSet b call waiting request result sends) := h.sound.modelSet hwaits hrequest result
  obtain ⟨error, hs⟩ | hs := modelSet_cases b call waiting request result sends
  · rw [hs] at hsound ⊢
    exact hback.reject hsound
  · rw [hs] at hsound ⊢
    exact hback.beginTurn hsound (h.sound.waiting call waiting hwaits).unsent

theorem Own.idle (h : Own b) (call : Nat) (failure : Option String) : Own (onIdle b call failure) := by
  have hsound := h.sound.idle call failure
  unfold onIdle at hsound ⊢
  cases hslot : b.inFlight with
  | none => exact h
  | some turn =>
    simp only [hslot] at hsound ⊢
    split_ifs at hsound ⊢
    · exact (h.retouch (by simp) b.aborted b.reported).reject hsound
    · exact h

theorem ownEnds_deliver (b : Bridge) (loop other : Nat) (event : LifecycleEvent) :
    ownEnds (deliver b loop event) other =
      ownEnds b other ++ ((endedWith loop event).filter (fun said => said.1 = other)).map Prod.snd := by
  unfold ownEnds deliver
  rw [List.filter_append, List.map_append]

theorem ownEnds_deliver_of_ne {other : Nat} (h : other ≠ loop) (event : LifecycleEvent) :
    ownEnds (deliver b loop event) other = ownEnds b other := by
  rw [ownEnds_deliver]
  cases event with
  | agentEnd messages => simp [endedWith, Ne.symm h]
  | _ => simp [endedWith]

theorem extends_deliver (b : Bridge) (loop : Nat) (event : LifecycleEvent) : Extends b (deliver b loop event) := by
  obtain ⟨-, -, hbranch, hwriters, hcalls, hrequests⟩ := alike_onLifecycle (b := b) event
  refine ⟨⟨endedWith loop event, rfl⟩, ?_, ?_, ?_⟩
  · intro call session hc
    exact (congrFun hcalls call).trans hc
  · intro session request hr
    exact (congrFun hrequests session).trans hr
  · intro entry hm
    refine ⟨?_, congrFun hwriters entry.id⟩
    show entry ∈ (onLifecycle b event).branch
    rwa [hbranch]

theorem Own.deliver_ignored (h : Own b) (hsent : b.sent loop = true) {event : LifecycleEvent}
    (hforeign : ∀ turn, b.inFlight = some turn → turn.turn ≠ loop ∧ Ignores turn event) :
    Own (deliver b loop event) := by
  have hsame : (onLifecycle b event).inFlight = b.inFlight ∧ (onLifecycle b event).settled = b.settled ∧
      (onLifecycle b event).conversations = b.conversations := by
    cases hslot : b.inFlight with
    | none =>
      rw [onLifecycle_of_empty hslot]
      exact ⟨hslot, rfl, rfl⟩
    | some turn =>
      obtain ⟨hturn, hsettled, hconversations, -⟩ := (ignores_iff hslot event).mp (hforeign turn hslot).2
      exact ⟨hturn.trans hslot, hsettled, hconversations⟩
  obtain ⟨hslot, hsettled, hconversations⟩ := hsame
  refine h.quiet (h.sound.deliver hsent event) (extends_deliver b loop event) ?_ ?_ hconversations
  · intro turn ht
    have hturn : b.inFlight = some turn := hslot.symm.trans ht
    rw [ownEnds_deliver_of_ne (hforeign turn hturn).1]
    exact h.terminal turn hturn
  · intro call reply entry hm
    rwa [← hsettled]

theorem latestEnd_append (ends : List AgentMessages) (messages : AgentMessages) :
    latestEnd (ends ++ [messages]) = terminalOf messages := by
  rw [latestEnd, List.getLast?_concat]
  rfl

theorem Own.deliver_agentEnd (h : Own b) (hslot : b.inFlight = some turn) (hsent : b.sent turn.turn = true)
    (messages : AgentMessages) : Own (deliver b turn.turn (.agentEnd messages)) := by
  have hextends := extends_deliver b turn.turn (.agentEnd messages)
  have hafter : onLifecycle b (.agentEnd messages) = onAgentEnd b turn messages := onLifecycle_of_slot hslot _
  refine ⟨h.sound.deliver hsent _, ?_, ?_, ?_⟩
  · intro new hn
    have hnew : (onAgentEnd b turn messages).inFlight = some new := by rwa [← hafter]
    cases hnew
    rw [ownEnds_deliver]
    simp only [endedWith, List.filter_cons, decide_true, if_true, List.filter_nil, List.map_cons, List.map_nil]
    rw [latestEnd_append]
  · intro call reply entry hm
    have hbefore : (call, TurnOutcome.resolved reply entry) ∈ (onAgentEnd b turn messages).settled := by rwa [← hafter]
    exact (h.replies call reply entry hbefore).mono hextends
  · intro session
    obtain ⟨ends, hends, hsaid⟩ := h.recorded session
    have hconversations : (deliver b turn.turn (.agentEnd messages)).conversations session =
        Function.update b.conversations turn.session (b.conversations turn.session ++ messages) session := by
      show (onLifecycle b (.agentEnd messages)).conversations session = _
      rw [hafter]
      rfl
    have hcalls : (deliver b turn.turn (.agentEnd messages)).calls = b.calls := (alike_onLifecycle _).calls
    rw [hconversations]
    by_cases hs : session = turn.session
    · subst hs
      refine ⟨ends ++ [(turn.turn, messages)], ?_, ?_⟩
      · rw [hcalls]
        show List.Sublist _ (List.filter _ (b.delivered ++ [(turn.turn, messages)]))
        rw [List.filter_append]
        refine hends.append ?_
        simp [(h.sound.flying turn hslot).called]
      · rw [Function.update_self, List.flatMap_append, hsaid]
        simp
    · rw [Function.update_of_ne hs]
      exact ⟨ends, hends.trans (hextends.of_session session), hsaid⟩

theorem mem_afterCursor {branch : List SessionEntry} {cursor : Option String} {entry : SessionEntry}
    (h : entry ∈ afterCursor branch cursor) : entry ∈ branch := by
  cases cursor with
  | none => exact h
  | some cursor => exact (List.dropWhile_sublist _).mem (List.mem_of_mem_tail h)

theorem Own.deliver_agentSettled (h : Own b) (hslot : b.inFlight = some turn) (hsent : b.sent turn.turn = true)
    (hwritten : ∀ entry, submittedIn b turn = some entry → b.writers entry.id = some turn.turn) :
    Own (deliver b turn.turn .agentSettled) := by
  have hextends := extends_deliver b turn.turn .agentSettled
  have hafter : onLifecycle b .agentSettled = onAgentSettled b turn := onLifecycle_of_slot hslot _
  have hterminal := h.terminal turn hslot
  obtain ⟨-, hcalled, -, request, hrequest, hidentity⟩ := h.sound.flying turn hslot
  have hown : FromLoop b turn.turn (reply b turn) (submittedIn b turn) := by
    refine ⟨⟨_, List.prefix_refl _, ?_, ?_, ?_⟩, ⟨_, request, hcalled, hrequest, ?_⟩, ?_⟩
    · rw [← hterminal]
      rfl
    · rw [← hterminal]
      rfl
    · rw [← hterminal]
      unfold reply
      dsimp only
      split_ifs
      · exact .inl rfl
      · exact .inr rfl
    · rw [← hidentity]
      unfold reply submittedIn
      dsimp only
      split_ifs
      · rfl
      · rfl
    · intro found hf
      refine ⟨?_, hwritten found hf⟩
      unfold submittedIn at hf
      split_ifs at hf
      exact mem_afterCursor (List.mem_reverse.mp (List.mem_of_find?_eq_some hf))
  refine ⟨h.sound.deliver hsent _, ?_, ?_, ?_⟩
  · intro new hn
    have hnone : (onAgentSettled b turn).inFlight = some new := by rwa [← hafter]
    cases hnone
  · intro call other entry hm
    have hsettled : (call, TurnOutcome.resolved other entry) ∈
        b.settled ++ [(turn.turn, .resolved (reply b turn) (submittedIn b turn))] := by
      have hm' : (call, TurnOutcome.resolved other entry) ∈ (onLifecycle b .agentSettled).settled := hm
      rwa [hafter] at hm'
    obtain hbefore | hnew := List.mem_append.mp hsettled
    · exact (h.replies call other entry hbefore).mono hextends
    · simp only [List.mem_singleton, Prod.mk.injEq, TurnOutcome.resolved.injEq] at hnew
      obtain ⟨rfl, rfl, rfl⟩ := hnew
      exact hown.mono hextends
  · intro session
    obtain ⟨ends, hends, hsaid⟩ := h.recorded session
    refine ⟨ends, hends.trans (hextends.of_session session), ?_⟩
    show (onLifecycle b .agentSettled).conversations session = _
    rw [hafter]
    exact hsaid

end KimchiWorkflows.Host.PiBridge
