import KimchiWorkflows.Host.TurnTokens

/-!
When a turn's reply and recorded conversation come from the loop of its own message, and from no other.
-/

namespace KimchiWorkflows.Host.PiBridge

open Stepping KimchiWorkflows.Engine.StepRunner

variable {b b' : Bridge} {call loop : Nat} {turn : InFlight}

def ownEnds (b : Bridge) (loop : Nat) : List AgentMessages :=
  (b.delivered.filter (fun said => said.1 = loop)).map Prod.snd

def latestEnd (ends : List AgentMessages) : AgentTurn := ends.getLast?.elim { text := "" } terminalOf

/-- A reply is what its own loop had last ended with, and its submission is one that its own loop wrote. -/
structure FromLoop (b : Bridge) (call : Nat) (reply : AgentTurn) (entry : Option SessionEntry) : Prop where
  said : ∃ ends, ends <+: ownEnds b call ∧ reply.text = (latestEnd ends).text ∧
    reply.usage = (latestEnd ends).usage ∧ (reply.error = none ∨ reply.error = (latestEnd ends).error)
  submitted : ∃ session request, b.calls call = some session ∧ b.requests session = some request ∧
    reply.submitted = entry.bind (submissionIn request.identity)
  written : ∀ found, entry = some found → found ∈ b.branch ∧ b.writers found.id = some call

structure OwnReplies (b : Bridge) : Prop where
  once : (b.settled.map Prod.fst).Nodup
  replies : ∀ call reply entry, (call, .resolved reply entry) ∈ b.settled → FromLoop b call reply entry
  recorded : ∀ session, ∃ ends : List (Nat × AgentMessages), ends.Sublist (b.delivered.filter (fun said => b.calls said.1 = some session)) ∧
    b.conversations session = ends.flatMap Prod.snd

/-- An event of another loop than the turn's in the slot settles and alters nothing. -/
def Unmixed (b : Bridge) (action : BridgeAct) (b' : Bridge) : Prop :=
  match action with
  | .lifecycle loop _ => ∀ turn, b.inFlight = some turn → turn.turn ≠ loop → b'.inFlight = b.inFlight ∧
      b'.settled = b.settled ∧ b'.conversations = b.conversations ∧ b'.reported = b.reported
  | _ => True

def Isolated (b : Bridge) (action : BridgeAct) : Prop :=
  ∀ b', bridgeStep b action = some b' → Unmixed b action b' ∧ OwnReplies b'

/-- The event would tell the turn nothing that it does not have already. -/
def Ignores (turn : InFlight) : LifecycleEvent → Prop
  | .agentStart => turn.cursorCaptured = true ∧ turn.awaitingRetry = false ∧ turn.retryInterrupted = false
  | .messageUpdate message => newUsage turn message = none
  | .agentEnd messages => messages = [] ∧ turn.terminal = terminalOf [] ∧ turn.awaitingRetry = false
  | .agentSettled => False

/-- While a turn is in the slot, events of other loops are none to it; and when its own loop settles, no other has
written the newest submission in its name. -/
def Timely (b : Bridge) (action : BridgeAct) : Prop :=
  match action with
  | .lifecycle loop event => ∀ turn, b.inFlight = some turn →
      (turn.turn ≠ loop → Ignores turn event) ∧
      (turn.turn = loop → event = .agentSettled → ∀ entry, submittedIn b turn = some entry →
        b.writers entry.id = some loop)
  | _ => True

/-- An event is none to a turn exactly if the listeners leave the turn, and what it has told, as they are. -/
theorem ignores_iff (hslot : b.inFlight = some turn) (event : LifecycleEvent) : Ignores turn event ↔
    (onLifecycle b event).inFlight = b.inFlight ∧ (onLifecycle b event).settled = b.settled ∧
      (onLifecycle b event).conversations = b.conversations ∧ (onLifecycle b event).reported = b.reported := by
  rw [onLifecycle_of_slot hslot, hslot]
  cases event with
  | agentStart =>
    constructor
    · rintro ⟨hcaptured, hretry, hinterrupted⟩
      refine ⟨?_, rfl, rfl, rfl⟩
      obtain ⟨⟩ := turn
      cases hcaptured
      cases hretry
      cases hinterrupted
      rfl
    · rintro ⟨hturn, -⟩
      have hsame := Option.some.inj hturn
      exact ⟨(congrArg InFlight.cursorCaptured hsame).symm, (congrArg InFlight.awaitingRetry hsame).symm,
        (congrArg InFlight.retryInterrupted hsame).symm⟩
  | messageUpdate message =>
    show newUsage turn message = none ↔ _
    simp only [onEvent, onMessageUpdate]
    cases hnew : newUsage turn message with
    | none => simp [hslot]
    | some total => simp
  | agentEnd messages =>
    constructor
    · rintro ⟨rfl, hterminal, hretry⟩
      refine ⟨?_, rfl, ?_, rfl⟩
      · obtain ⟨⟩ := turn
        cases hterminal
        cases hretry
        rfl
      · simp [onEvent, onAgentEnd]
    · rintro ⟨hturn, -, hconversations, -⟩
      have hsame := Option.some.inj hturn
      have hnone : messages = [] := by
        have := congrFun hconversations turn.session
        simpa [onEvent, onAgentEnd] using this
      subst hnone
      exact ⟨rfl, (congrArg InFlight.terminal hsame).symm, (congrArg InFlight.awaitingRetry hsame).symm⟩
  | agentSettled =>
    refine ⟨False.elim, ?_⟩
    rintro ⟨hturn, -⟩
    cases hturn

/-- What is known of calls, sessions, entries and ended loops stays known. -/
structure Extends (b b' : Bridge) : Prop where
  delivered : ∃ new, b'.delivered = b.delivered ++ new
  calls : ∀ call session, b.calls call = some session → b'.calls call = some session
  requests : ∀ session request, b.requests session = some request → b'.requests session = some request
  entries : ∀ entry ∈ b.branch, entry ∈ b'.branch ∧ b'.writers entry.id = b.writers entry.id

theorem extends_of_eq (hdelivered : b'.delivered = b.delivered) (hcalls : b'.calls = b.calls)
    (hrequests : b'.requests = b.requests) (hbranch : b'.branch = b.branch) (hwriters : b'.writers = b.writers) :
    Extends b b' where
  delivered := ⟨[], by simpa using hdelivered⟩
  calls := by simp [hcalls]
  requests := by simp [hrequests]
  entries := by
    rw [hbranch, hwriters]
    exact fun entry hm => ⟨hm, rfl⟩

theorem Extends.ends (h : Extends b b') (loop : Nat) : ownEnds b loop <+: ownEnds b' loop := by
  obtain ⟨new, hnew⟩ := h.delivered
  unfold ownEnds
  rw [hnew, List.filter_append, List.map_append]
  exact List.prefix_append _ _

theorem Extends.of_session (h : Extends b b') (session : Nat) :
    (b.delivered.filter (fun said => b.calls said.1 = some session)).Sublist
      (b'.delivered.filter (fun said => b'.calls said.1 = some session)) := by
  obtain ⟨new, hnew⟩ := h.delivered
  rw [hnew, List.filter_append]
  refine List.Sublist.trans ?_ (List.sublist_append_left _ _)
  refine List.monotone_filter_right _ ?_
  intro said hsaid
  simp only [decide_eq_true_eq] at hsaid ⊢
  exact h.calls _ _ hsaid

theorem FromLoop.mono {reply : AgentTurn} {entry : Option SessionEntry} (h : FromLoop b call reply entry)
    (he : Extends b b') : FromLoop b' call reply entry where
  said := by
    obtain ⟨ends, hends, hreply⟩ := h.said
    exact ⟨ends, hends.trans (he.ends call), hreply⟩
  submitted := by
    obtain ⟨session, request, hcall, hrequest, hreply⟩ := h.submitted
    exact ⟨session, request, he.calls _ _ hcall, he.requests _ _ hrequest, hreply⟩
  written found hf := by
    obtain ⟨hm, hw⟩ := h.written found hf
    exact ⟨(he.entries found hm).1, (he.entries found hm).2.trans hw⟩

/-- What isolates the turns: the slot's turn has what its own loop last ended with. -/
structure Own (b : Bridge) : Prop where
  sound : Sound b
  terminal : ∀ turn, b.inFlight = some turn → turn.terminal = latestEnd (ownEnds b turn.turn)
  replies : ∀ call reply entry, (call, .resolved reply entry) ∈ b.settled → FromLoop b call reply entry
  recorded : ∀ session, ∃ ends : List (Nat × AgentMessages),
    ends.Sublist (b.delivered.filter (fun said => b.calls said.1 = some session)) ∧
      b.conversations session = ends.flatMap Prod.snd

theorem Own.ownReplies (h : Own b) : OwnReplies b := ⟨h.sound.once, h.replies, h.recorded⟩

theorem Own.quiet (h : Own b) (hsound : Sound b') (he : Extends b b')
    (hterminal : ∀ new, b'.inFlight = some new → new.terminal = latestEnd (ownEnds b' new.turn))
    (hsettled : ∀ call reply entry, (call, .resolved reply entry) ∈ b'.settled → (call, .resolved reply entry) ∈ b.settled)
    (hconversations : b'.conversations = b.conversations) : Own b' where
  sound := hsound
  terminal := hterminal
  replies call reply entry hm := (h.replies call reply entry (hsettled call reply entry hm)).mono he
  recorded session := by
    obtain ⟨ends, hends, hsaid⟩ := h.recorded session
    rw [hconversations]
    exact ⟨ends, hends.trans (he.of_session session), hsaid⟩

theorem resolved_of_reject {settled : List (Nat × TurnOutcome)} {other : Nat} {error : String} (call : Nat)
    (reply : AgentTurn) (entry : Option SessionEntry)
    (hm : (call, .resolved reply entry) ∈ settled ++ [(other, .rejected error)]) :
    (call, .resolved reply entry) ∈ settled := by
  obtain hm | hm := List.mem_append.mp hm
  · exact hm
  · simp at hm

theorem ownEnds_of_unsent (h : Sound b) (hunsent : b.sent call = false) : ownEnds b call = [] := by
  unfold ownEnds
  rw [List.map_eq_nil_iff, List.filter_eq_nil_iff]
  intro said hm hsaid
  have hsent := h.heard said hm
  rw [of_decide_eq_true hsaid, hunsent] at hsent
  cases hsent

end KimchiWorkflows.Host.PiBridge
