import KimchiWorkflows.Engine.CallStatus
import KimchiWorkflows.Host.Execution
import KimchiWorkflows.Lib.Stepping

/-!
What the queue and the log of an execution hold together, by the state of the gate.
-/

namespace KimchiWorkflows.Host

open KimchiWorkflows.Engine Stepping

/-- Nothing comes after a cancellation, and no second terminal event after a first one. -/
def Precedes (e f : RunEvent) : Prop :=
  e.terminal ≠ some .cancelled ∧ (e.terminal ≠ none → f.terminal = none)

def Phase.answers : Phase → Bool
  | .unwinding result => result.isSome
  | .waiting result => result.isSome
  | .releasing result => result.isSome
  | .released result => result.isSome
  | _ => true

namespace Execution

def trail (s : Execution) : List RunEvent := s.log ++ s.queue.map Append.event

/-- No cancellation is admitted once the engine's own terminal event is, the engine emits nothing after
its own cancellation, and no cancellation fails that kept the engine's own one out of the log. -/
def EndsOnce (s : Execution) : Act → Prop
  | .emit _ => s.run.state = .running → ∀ e ∈ s.trail, e.terminal ≠ some .cancelled
  | .cancel _ => s.run.state = .running → ∀ e ∈ s.trail, e.terminal = none
  | .fail => s.run.state = .persistingCancellation → ∀ append ∈ s.queue.head?, append.origin = .cancel →
      ∀ e ∈ s.turnedAway, e.terminal ≠ some .cancelled
  | _ => True

/-- What the queue and the log hold, by the state of the gate. -/
structure Ledger (s : Execution) : Prop where
  flag : s.run.cancellation = true ↔
    s.run.state = .persistingCancellation ∨ s.run.state = .cancelled
  ordered : s.trail.Pairwise Precedes
  plain : s.run.state = .running ∨ s.run.state = .settling → ∀ append ∈ s.queue, append.origin ≠ .cancel
  closing : s.run.state = .persistingCancellation → ∃ ahead last, s.queue = ahead ++ [last] ∧
    last.origin = .cancel ∧ last.event.terminal = some .cancelled ∧
    (∀ append ∈ ahead, append.origin ≠ .cancel) ∧
    ∀ e ∈ s.log ++ ahead.map Append.event, e.terminal = none
  closed : s.run.state = .cancelled → s.queue = [] ∧ ∃ e ∈ s.log, e.terminal = some .cancelled
  bound : s.run.state = .running ∨ s.run.state = .settling → ∀ e ∈ s.trail, e.terminal ≠ none →
    ∃ outcome, s.concluded = some outcome ∧ e.terminal = some (resultOf outcome).status
  kept : s.run.state = .running ∨ s.run.state = .settling → s.phase.answers = true →
    ∀ outcome, s.concluded = some outcome → (resultOf outcome).status = .cancelled →
      ∃ e ∈ s.trail, e.terminal = some .cancelled
  gone : s.run.state = .persistingCancellation → s.phase.answers = true →
    ∀ outcome, s.concluded = some outcome → (resultOf outcome).status = .cancelled →
      ∃ e ∈ s.turnedAway, e.terminal = some .cancelled

/-- No terminal event waits to be written, other than a cancellation. -/
def Written (s : Execution) : Prop :=
  ∀ append ∈ s.queue, append.origin ≠ .cancel → append.event.terminal = none

/-- Where the call stands, by what the engine has concluded and by the state of the gate. -/
def Stands (s : Execution) : Prop :=
  match s.phase with
  | .starting => s.run.state ≠ .settling ∧ s.concluded = none
  | .executing => s.run.state ≠ .settling
  | .returned outcome => s.run.state ≠ .settling ∧ s.concluded = some outcome ∧ s.Written
  | .settling outcome => s.run.state = .persistingCancellation ∧ s.concluded = some outcome ∧ s.Written
  | .waiting result => s.run.state = .persistingCancellation ∧ result = none
  | .unwinding result | .releasing result | .released result => ∀ r, result = some r →
      (s.run.state = .settling ∧ s.Written ∧ ∃ outcome, s.concluded = some outcome ∧ r = resultOf outcome) ∨
        (s.run.state = .cancelled ∧ r.status = .cancelled)

/-- The tracker's own event is the first one requested, and the call waits for it before anything else. -/
def Tracked (s : Execution) : Prop :=
  (∀ append ∈ s.queue.head?, append.origin = .tracker → s.phase = .starting) ∧
    (∀ append ∈ s.queue.tail, append.origin ≠ .tracker) ∧ ∀ append ∈ s.queue, append.origin = .tracker →
      append.event.terminal = none

def Sound (s : Execution) : Prop := Ledger s ∧ Stands s ∧ Tracked s

variable {s s' : Execution} {event : RunEvent} {outcome : ExecOutcome}

theorem of_no_result {P : RunResult → Prop} : ∀ r, none = some r → P r :=
  fun r h => absurd h.symm (Option.some_ne_none r)

theorem closingEvents_cases (outcome : ExecOutcome) :
    (closingEvents outcome = [] ∧ (resultOf outcome).status = .blocked) ∨
      ∃ e, closingEvents outcome = [e] ∧ e.terminal = some (resultOf outcome).status := by
  cases outcome with
  | blocked block => exact .inl ⟨rfl, status_blocked block⟩
  | _ => exact .inr ⟨_, rfl, rfl⟩

theorem ordered_snoc {events : List RunEvent} (h : events.Pairwise Precedes)
    (hc : ∀ e ∈ events, e.terminal ≠ some .cancelled)
    (hn : event.terminal = none ∨ ∀ e ∈ events, e.terminal = none) :
    (events ++ [event]).Pairwise Precedes := by
  rw [List.pairwise_append]
  refine ⟨h, by simp, ?_⟩
  intro e he f hf
  obtain rfl := List.mem_singleton.mp hf
  refine ⟨hc e he, fun hne => ?_⟩
  rcases hn with hn | hn
  · exact hn
  · exact absurd (hn e he) hne

theorem offer_running (hr : s.run.state = .running) (event : RunEvent) :
    s.offer event = { s with emitted := s.emitted ++ [event], queue := s.queue ++ [⟨.engine, event⟩] } := by
  simp [offer, ActiveRun.acceptsEvents, hr, request]

theorem offer_closed (hr : s.run.state ≠ .running) (event : RunEvent) :
    s.offer event = { s with emitted := s.emitted ++ [event], turnedAway := s.turnedAway ++ [event] } := by
  simp [offer, ActiveRun.acceptsEvents, hr]

theorem trail_snoc (log : List RunEvent) (queue : List Append) (append : Append) :
    log ++ (queue ++ [append]).map Append.event = (log ++ queue.map Append.event) ++ [append.event] := by
  simp

theorem tracked_snoc (append : Append) (h : s.Tracked) (ho : append.origin ≠ .tracker)
    (hq : s'.queue = s.queue ++ [append]) (hp : s'.phase = s.phase) : s'.Tracked := by
  obtain ⟨hhead, htail, hall⟩ := h
  unfold Tracked
  rw [hq, hp]
  cases hs : s.queue with
  | nil => simp [ho]
  | cons first rest =>
    rw [hs] at hhead htail hall
    refine ⟨by simpa using hhead, ?_, ?_⟩
    · simp only [List.cons_append, List.tail_cons] at htail ⊢
      grind
    · grind

theorem tracked_tail {append : Append} {rest : List Append} (h : s.Tracked)
    (hq : s.queue = append :: rest) (hq' : s'.queue = rest) : s'.Tracked := by
  obtain ⟨-, htail, hall⟩ := h
  rw [hq] at htail hall
  simp only [List.tail_cons] at htail
  unfold Tracked
  rw [hq']
  refine ⟨?_, ?_, ?_⟩
  · intro a ha ht
    exact absurd ht (htail a (List.mem_of_mem_head? ha))
  · intro a ha
    exact htail a (List.mem_of_mem_tail ha)
  · intro a ha ht
    exact absurd ht (htail a ha)

theorem tracked_same (h : s.Tracked) (hq : s'.queue = s.queue)
    (hp : s.phase = .starting → s'.phase = .starting) : s'.Tracked := by
  obtain ⟨hhead, htail, hall⟩ := h
  unfold Tracked
  rw [hq]
  exact ⟨fun a ha ht => hp (hhead a ha ht), htail, hall⟩

theorem sound_emit (h : s.Sound) (ht : event.terminal = none) (hl : live s.phase = true)
    (hm : s.EndsOnce (.emit event)) : (s.offer event).Sound := by
  obtain ⟨hledger, hstands, htracked⟩ := h
  have hstart : s.phase ≠ .starting := by
    intro hp
    rw [hp] at hl
    cases hl
  obtain ⟨hflag, hordered, hplain, hclosing, hclosed, hbound, hkept, hgone⟩ := hledger
  by_cases hr : s.run.state = .running
  · rw [offer_running hr]
    refine ⟨⟨hflag, ?_, ?_, ?_, ?_, ?_, ?_, ?_⟩, ?_, ?_⟩
    · simp only [trail, trail_snoc]
      exact ordered_snoc hordered (hm hr) (.inl ht)
    · grind
    · grind
    · grind
    · simp only [trail, trail_snoc] at hbound ⊢
      grind
    · simp only [trail, trail_snoc] at hkept ⊢
      grind
    · grind
    · simp only [Stands, Written] at hstands ⊢
      grind
    · exact tracked_snoc ⟨.engine, event⟩ htracked Origin.noConfusion rfl rfl
  · rw [offer_closed hr]
    refine ⟨⟨hflag, hordered, hplain, hclosing, hclosed, hbound, hkept, ?_⟩, hstands, htracked⟩
    grind

theorem sound_conclude (h : s.Sound) (hp : s.phase = .executing) (hc : s.concluded = none) :
    Sound { (closingEvents outcome).foldl offer s with concluded := some outcome } := by
  obtain ⟨hledger, hstands, htracked⟩ := h
  obtain ⟨hflag, hordered, hplain, hclosing, hclosed, hbound, hkept, hgone⟩ := hledger
  have hclean : s.run.state = .running ∨ s.run.state = .settling → ∀ e ∈ s.trail, e.terminal = none := by
    intro hs e he
    by_contra hne
    obtain ⟨o, ho, -⟩ := hbound hs e he hne
    rw [hc] at ho
    cases ho
  rcases closingEvents_cases outcome with ⟨hnil, hb⟩ | ⟨event, hone, ht⟩
  · rw [hnil]
    simp only [List.foldl_nil]
    refine ⟨⟨hflag, hordered, hplain, hclosing, hclosed, ?_, ?_, ?_⟩, ?_, htracked⟩
    · intro hs e he hne
      exact absurd (hclean hs e he) hne
    · grind
    · grind
    · simp only [Stands, hp] at hstands ⊢
      exact hstands
  · rw [hone]
    simp only [List.foldl_cons, List.foldl_nil]
    by_cases hr : s.run.state = .running
    · have hclean := hclean (.inl hr)
      rw [offer_running hr]
      refine ⟨⟨hflag, ?_, ?_, ?_, ?_, ?_, ?_, ?_⟩, ?_, ?_⟩
      · simp only [trail, trail_snoc]
        exact ordered_snoc hordered (fun e he => by rw [hclean e he]; simp) (.inr hclean)
      · grind
      · grind
      · grind
      · simp only [trail, trail_snoc] at hclean ⊢
        grind
      · simp only [trail, trail_snoc]
        grind
      · grind
      · simp only [Stands, hp] at hstands ⊢
        exact hstands
      · exact tracked_snoc ⟨.engine, event⟩ htracked Origin.noConfusion rfl rfl
    · rw [offer_closed hr]
      refine ⟨⟨hflag, hordered, hplain, hclosing, hclosed, ?_, ?_, ?_⟩, ?_, htracked⟩
      · intro hs e he hne
        exact absurd (hclean hs e he) hne
      · intro hs
        rcases hs with hs | hs
        · exact absurd hs hr
        · simp only [Stands, hp] at hstands
          exact absurd hs hstands
      · grind
      · simp only [Stands, hp] at hstands ⊢
        exact hstands

theorem closing_tail {append : Append} {rest : List Append} {log : List RunEvent}
    (h : ∃ (ahead : List Append) (last : Append), append :: rest = ahead ++ [last] ∧ last.origin = .cancel ∧
      last.event.terminal = some RunStatus.cancelled ∧ (∀ a ∈ ahead, a.origin ≠ .cancel) ∧
      ∀ e ∈ log ++ ahead.map Append.event, e.terminal = none)
    (ho : append.origin ≠ .cancel) :
    ∃ (ahead : List Append) (last : Append), rest = ahead ++ [last] ∧ last.origin = .cancel ∧
      last.event.terminal = some RunStatus.cancelled ∧ (∀ a ∈ ahead, a.origin ≠ .cancel) ∧
      ∀ e ∈ log ++ append.event :: ahead.map Append.event, e.terminal = none := by
  obtain ⟨ahead, last, hq, hl, ht, ha, hc⟩ := h
  cases ahead with
  | nil =>
    obtain ⟨rfl, -⟩ := List.cons.inj hq
    exact absurd hl ho
  | cons first ahead =>
    obtain ⟨rfl, rfl⟩ := List.cons.inj hq
    exact ⟨ahead, last, rfl, hl, ht, fun a h => ha a (List.mem_cons_of_mem _ h), by simpa using hc⟩

theorem closing_head {append : Append} {rest : List Append} (h : s.Ledger)
    (hq : s.queue = append :: rest) (ho : append.origin = .cancel) :
    s.run.state = .persistingCancellation ∧ rest = [] ∧ append.event.terminal = some .cancelled ∧
      ∀ e ∈ s.log, e.terminal = none := by
  have hs : s.run.state = .persistingCancellation := by
    cases hstate : s.run.state with
    | running => exact absurd ho (h.plain (.inl hstate) append (by simp [hq]))
    | settling => exact absurd ho (h.plain (.inr hstate) append (by simp [hq]))
    | cancelled =>
      have := (h.closed hstate).1
      rw [hq] at this
      cases this
    | persistingCancellation => rfl
  obtain ⟨ahead, last, hl, -, ht, ha, hc⟩ := h.closing hs
  rw [hq] at hl
  cases ahead with
  | nil =>
    obtain ⟨rfl, rfl⟩ := List.cons.inj hl
    exact ⟨hs, rfl, ht, by simpa using hc⟩
  | cons first ahead =>
    obtain ⟨rfl, -⟩ := List.cons.inj hl
    exact absurd ho (ha _ (by simp))

theorem sound_land_cancel {append : Append} {rest : List Append} (h : s.Sound) (hq : s.queue = append :: rest)
    (ho : append.origin = .cancel) : (s.landed append rest).Sound := by
  obtain ⟨hledger, hstands, htracked⟩ := h
  have hhead := closing_head hledger hq
  obtain ⟨hflag, hordered, hplain, hclosing, hclosed, hbound, hkept, hgone⟩ := hledger
  have htrail : (s.log ++ [append.event]) ++ rest.map Append.event = s.trail := by
    simp [trail, hq]
  obtain ⟨hs, rfl, ht, hclean⟩ := hhead ho
  have hlog : ∃ e ∈ s.log ++ [append.event], e.terminal = some .cancelled := ⟨append.event, by simp, ht⟩
  have hledger' : ∀ phase, Ledger { s with
      queue := [], log := s.log ++ [append.event], run := s.run.persisted, phase := phase } := by
    intro phase
    have hflag' := hflag.mpr (.inl hs)
    refine ⟨?_, ?_, ?_, ?_, ?_, ?_, ?_, ?_⟩ <;> simp only [ActiveRun.persisted, trail]
    · grind
    · simpa [← htrail] using hordered
    all_goals grind
  have htracked' : ∀ phase, Tracked { s with
      queue := [], log := s.log ++ [append.event], run := s.run.persisted, phase := phase } :=
    fun phase => tracked_tail htracked hq rfl
  simp only [landed, ho]
  cases hp : s.phase with
  | settling outcome =>
    refine ⟨hledger' _, ?_, htracked' _⟩
    intro r hr
    obtain rfl := Option.some.inj hr
    exact .inr ⟨rfl, rfl⟩
  | waiting result =>
    refine ⟨hledger' _, ?_, htracked' _⟩
    simp only [Stands, hp] at hstands
    intro r hr
    rw [hstands.2] at hr
    cases hr
  | _ =>
    refine ⟨by simpa [hp] using hledger' s.phase, ?_, by simpa [hp] using htracked' s.phase⟩
    simp only [Stands, hp, Written, ActiveRun.persisted] at hstands ⊢
    grind

theorem sound_land {append : Append} {rest : List Append} (h : s.Sound) (hq : s.queue = append :: rest) :
    (s.landed append rest).Sound := by
  by_cases ho : append.origin = .cancel
  · exact sound_land_cancel h hq ho
  obtain ⟨hledger, hstands, htracked⟩ := h
  obtain ⟨hflag, hordered, hplain, hclosing, hclosed, hbound, hkept, hgone⟩ := hledger
  have htrail : (s.log ++ [append.event]) ++ rest.map Append.event = s.trail := by
    simp [trail, hq]
  have hclosing' : s.run.state = .persistingCancellation → _ := fun hs =>
    closing_tail (hq ▸ hclosing hs) ho
  have hledger' : ∀ phase : Phase, phase.answers = s.phase.answers → Ledger { s with
      queue := rest, log := s.log ++ [append.event], phase := phase } := by
    intro phase hphase
    refine ⟨hflag, ?_, ?_, ?_, ?_, ?_, ?_, ?_⟩
    · simp only [trail, htrail]
      exact hordered
    · grind
    · intro hs
      obtain ⟨ahead, last, h1, h2, h3, h4, h5⟩ := hclosing' hs
      exact ⟨ahead, last, h1, h2, h3, h4, by simpa using h5⟩
    · grind
    · simp only [trail, htrail]
      exact hbound
    · simp only [trail, htrail, hphase]
      exact hkept
    · rw [hphase]
      exact hgone
  cases horigin : append.origin with
  | cancel => exact absurd horigin ho
  | engine =>
    simp only [landed, horigin]
    refine ⟨hledger' s.phase rfl, ?_, tracked_tail htracked hq rfl⟩
    simp only [Stands, Written] at hstands ⊢
    grind
  | tracker =>
    simp only [landed, horigin, enter]
    have hp : s.phase = .starting := htracked.1 append (by simp [hq]) horigin
    refine ⟨hledger' _ (by rw [hp]; rfl), ?_, tracked_tail htracked hq rfl⟩
    simp only [Stands, hp] at hstands
    exact hstands.1

theorem sound_fail_cancel {append : Append} {rest : List Append} (h : s.Sound)
    (hq : s.queue = append :: rest) (ho : append.origin = .cancel) (hm : s.EndsOnce .fail) :
    (s.failed append rest).Sound := by
  obtain ⟨hledger, hstands, htracked⟩ := h
  obtain ⟨hs, rfl, -, hclean⟩ := closing_head hledger hq ho
  have hlog : s.log.Pairwise Precedes := hledger.ordered.sublist (by simp [trail])
  have hledger' : ∀ phase : Phase, (phase.answers = true → s.phase.answers = true) → Ledger { s with
      queue := [], run := s.run.rejected, phase := phase } := by
    intro phase hphase
    refine ⟨?_, by simpa [trail] using hlog, ?_, ?_, ?_, ?_, ?_, ?_⟩
    · simp [ActiveRun.rejected]
    · simp
    · simp [ActiveRun.rejected]
    · simp [ActiveRun.rejected]
    · intro _ e he hne
      simp only [trail, List.map_nil, List.append_nil] at he
      exact absurd (hclean e he) hne
    · intro _ ha o hc hstatus
      obtain ⟨e, he, hcancelled⟩ := hledger.gone hs (hphase ha) o hc hstatus
      exact absurd hcancelled (hm hs append (by simp [hq]) ho e he)
    · simp [ActiveRun.rejected]
  have htracked' : ∀ phase, Tracked { s with queue := [], run := s.run.rejected, phase := phase } :=
    fun phase => tracked_tail htracked hq rfl
  simp only [failed, ho]
  cases hp : s.phase with
  | settling outcome => exact ⟨hledger' _ (by simp [Phase.answers]), of_no_result, htracked' _⟩
  | waiting result => exact ⟨hledger' _ (by simp [Phase.answers]), of_no_result, htracked' _⟩
  | _ =>
    refine ⟨by simpa [hp] using hledger' s.phase, ?_, by simpa [hp] using htracked' s.phase⟩
    simp only [Stands, hp, hs, Written, ActiveRun.rejected] at hstands ⊢
    first
    | simp [hstands]; done
    | simpa using hstands

theorem ledger_lost {append : Append} {rest : List Append} {phase : Phase} (h : s.Ledger)
    (hq : s.queue = append :: rest) (ho : append.origin ≠ .cancel) (lost : List RunEvent)
    (hphase : phase.answers = true → s.phase.answers = true ∧
      (s.run.state = .running ∨ s.run.state = .settling → append.event.terminal = none)) :
    Ledger { s with queue := rest, lost := lost, phase := phase } := by
  obtain ⟨hflag, hordered, hplain, hclosing, hclosed, hbound, hkept, hgone⟩ := h
  have hsub : (s.log ++ rest.map Append.event).Sublist s.trail := by
    simp [trail, hq]
  refine ⟨hflag, hordered.sublist hsub, ?_, ?_, ?_, ?_, ?_, ?_⟩
  · intro hs a ha
    exact hplain hs a (by rw [hq]; exact List.mem_cons_of_mem _ ha)
  · intro hs
    obtain ⟨ahead, last, h1, h2, h3, h4, h5⟩ := closing_tail (hq ▸ hclosing hs) ho
    refine ⟨ahead, last, h1, h2, h3, h4, ?_⟩
    intro e he
    rcases List.mem_append.mp he with he | he
    · exact h5 e (List.mem_append_left _ he)
    · exact h5 e (List.mem_append_right _ (List.mem_cons_of_mem _ he))
  · intro hs
    have := (hclosed hs).1
    rw [hq] at this
    cases this
  · exact fun hs e he hne => hbound hs e (hsub.subset he) hne
  · intro hs ha o hc hstatus
    obtain ⟨hanswers, hnone⟩ := hphase ha
    obtain ⟨e, he, hcancelled⟩ := hkept hs hanswers o hc hstatus
    refine ⟨e, ?_, hcancelled⟩
    have hne : e ≠ append.event := by
      rintro rfl
      rw [hnone hs] at hcancelled
      cases hcancelled
    simpa [trail, hq, hne] using he
  · exact fun hs ha => hgone hs (hphase ha).1

theorem sound_fail_tracker {append : Append} {rest : List Append} (h : s.Sound)
    (hq : s.queue = append :: rest) (ho : append.origin = .tracker) : (s.failed append rest).Sound := by
  obtain ⟨hledger, -, htracked⟩ := h
  simp only [failed, ho, enter]
  refine ⟨ledger_lost hledger hq (by simp [ho]) _ ?_, of_no_result, tracked_tail htracked hq rfl⟩
  exact fun ha => absurd ha (by simp [Phase.answers])

/-- Once its result is settled, the call has no terminal event of the engine left to lose. -/
theorem terminal_of_answers {append : Append} (h : s.Sound) (hmem : append ∈ s.queue)
    (ho : append.origin = .engine) (hne : s.phase ≠ .executing) (ha : s.phase.answers = true)
    (hs : s.run.state = .running ∨ s.run.state = .settling) : append.event.terminal = none := by
  obtain ⟨hledger, hstands, -⟩ := h
  by_contra hn
  obtain ⟨o, hc, -⟩ := hledger.bound hs append.event (by
    exact List.mem_append_right _ (List.mem_map_of_mem hmem)) hn
  have hwritten : s.Written := by
    simp only [Stands] at hstands
    cases hp : s.phase <;> simp only [hp, Phase.answers, Option.isSome_iff_exists] at hstands ha hne <;> grind
  exact hn (hwritten append hmem (by simp [ho]))

theorem sound_fail_engine {append : Append} {rest : List Append} (h : s.Sound)
    (hq : s.queue = append :: rest) (ho : append.origin = .engine) : (s.failed append rest).Sound := by
  have hmem : append ∈ s.queue := by simp [hq]
  have hnone := terminal_of_answers h hmem ho
  obtain ⟨hledger, hstands, htracked⟩ := h
  have hledger' : ∀ phase : Phase, (phase.answers = true → s.phase.answers = true ∧
      (s.run.state = .running ∨ s.run.state = .settling → append.event.terminal = none)) → Ledger { s with
      queue := rest, lost := s.lost ++ [append.event], phase := phase } :=
    fun phase => ledger_lost hledger hq (by simp [ho]) (s.lost ++ [append.event])
  have htracked' : ∀ phase, Tracked { s with
      queue := rest, lost := s.lost ++ [append.event], phase := phase } :=
    fun phase => tracked_tail htracked hq rfl
  have hstands' : Stands { s with queue := rest, lost := s.lost ++ [append.event] } := by
    have hwritten : s.Written → Written { s with queue := rest, lost := s.lost ++ [append.event] } :=
      fun hw a ha => hw a (by rw [hq]; exact List.mem_cons_of_mem _ ha)
    simp only [Stands] at hstands ⊢
    cases hp : s.phase <;> simp only [hp] at hstands ⊢ <;> grind
  by_cases hp : s.phase = .executing
  · simp only [failed, ho, hp]
    split_ifs with ht
    · exact ⟨hledger' _ (by simp [Phase.answers]), of_no_result, htracked' _⟩
    · have ht : append.event.terminal = none := by simpa using ht
      exact hp ▸ ⟨hledger' s.phase (fun ha => ⟨ha, fun _ => ht⟩), hstands', htracked' s.phase⟩
  · have : s.failed append rest = { s with queue := rest, lost := s.lost ++ [append.event] } := by
      cases hphase : s.phase <;> simp_all [failed]
    rw [this]
    exact ⟨hledger' s.phase (fun ha => ⟨ha, hnone hp ha⟩), hstands', htracked' s.phase⟩

theorem sound_fail {append : Append} {rest : List Append} (h : s.Sound) (hq : s.queue = append :: rest)
    (hm : s.EndsOnce .fail) : (s.failed append rest).Sound := by
  cases ho : append.origin with
  | cancel => exact sound_fail_cancel h hq ho hm
  | tracker => exact sound_fail_tracker h hq ho
  | engine => exact sound_fail_engine h hq ho

theorem sound_cancel (h : s.Sound) (path : Option NodePath) (hm : s.EndsOnce (.cancel path)) :
    (s.cancel path).Sound := by
  obtain ⟨hledger, hstands, htracked⟩ := h
  obtain ⟨hflag, hordered, hplain, hclosing, hclosed, hbound, hkept, hgone⟩ := hledger
  unfold cancel ActiveRun.cancel
  split_ifs with hf hs
  · exact ⟨⟨hflag, hordered, hplain, hclosing, hclosed, hbound, hkept, hgone⟩, hstands, htracked⟩
  · exact ⟨⟨hflag, hordered, hplain, hclosing, hclosed, hbound, hkept, hgone⟩, hstands, htracked⟩
  · have hr : s.run.state = .running := by
      cases hstate : s.run.state <;> simp_all
    have hclean := hm hr
    simp only [request]
    refine ⟨⟨?_, ?_, ?_, ?_, ?_, ?_, ?_, ?_⟩, ?_, ?_⟩
    · simp
    · simp only [trail, trail_snoc]
      exact ordered_snoc hordered (fun e he => by rw [hclean e he]; simp) (.inr hclean)
    · simp
    · intro _
      exact ⟨s.queue, _, rfl, rfl, rfl, hplain (.inl hr), hclean⟩
    · simp
    · simp
    · simp
    · intro _ hp o ho hstatus
      obtain ⟨e, he, hc⟩ := hkept (.inl hr) hp o ho hstatus
      rw [hclean e he] at hc
      cases hc
    · simp only [Stands, Written] at hstands ⊢
      grind
    · exact tracked_snoc ⟨.cancel, _⟩ htracked Origin.noConfusion rfl rfl

theorem sound_returns {outcome : ExecOutcome} (h : s.Sound) (hp : s.phase = .executing)
    (hc : s.concluded = some outcome)
    (hout : ∀ append ∈ s.queue, append.origin = .engine → append.event.terminal = none) :
    (s.enter (.returned outcome)).Sound := by
  obtain ⟨hledger, hstands, htracked⟩ := h
  obtain ⟨hflag, hordered, hplain, hclosing, hclosed, hbound, hkept, hgone⟩ := hledger
  refine ⟨⟨hflag, hordered, hplain, hclosing, hclosed, hbound, ?_, ?_⟩, ?_, ?_⟩
  · exact fun hs _ => hkept hs (by rw [hp]; rfl)
  · exact fun hs _ => hgone hs (by rw [hp]; rfl)
  · simp only [Stands, enter, hp] at hstands ⊢
    refine ⟨hstands, hc, ?_⟩
    intro append ha ho
    cases horigin : append.origin with
    | cancel => exact absurd horigin ho
    | tracker => exact htracked.2.2 append ha horigin
    | engine => exact hout append ha horigin
  · exact tracked_same htracked rfl (fun hs => by simp [hp] at hs)

theorem sound_throws (h : s.Sound) (hp : s.phase = .executing) : (s.enter (.unwinding none)).Sound := by
  obtain ⟨hledger, hstands, htracked⟩ := h
  obtain ⟨hflag, hordered, hplain, hclosing, hclosed, hbound, hkept, hgone⟩ := hledger
  refine ⟨⟨hflag, hordered, hplain, hclosing, hclosed, hbound, ?_, ?_⟩, of_no_result, ?_⟩
  · exact fun _ ha => absurd ha (by simp [enter, Phase.answers])
  · exact fun _ ha => absurd ha (by simp [enter, Phase.answers])
  · exact tracked_same htracked rfl (fun hs => by simp [hp] at hs)

theorem settle_running {run : ActiveRun} (h : run.state = .running) :
    run.settle = (.settled false, { run with state := .settling }) := by
  simp [ActiveRun.settle, h]

theorem settle_settling {run : ActiveRun} (h : run.state = .settling) :
    run.settle = (.settled false, run) := by
  simp [ActiveRun.settle, h]

theorem settle_persisting {run : ActiveRun} (h : run.state = .persistingCancellation)
    (hc : run.cancellation = true) : run.settle = (.waits, run) := by
  simp [ActiveRun.settle, h, hc]

theorem settle_cancelled {run : ActiveRun} (h : run.state = .cancelled) :
    run.settle = (.settled true, run) := by
  simp [ActiveRun.settle, h, ActiveRun.cancellationRecorded]

theorem sound_settle (h : s.Sound) (hr : s.settle = some s') : s'.Sound := by
  obtain ⟨hledger, hstands, htracked⟩ := h
  obtain ⟨hflag, hordered, hplain, hclosing, hclosed, hbound, hkept, hgone⟩ := hledger
  have hs : s.phase ≠ .starting := by
    intro hp
    simp [settle, hp] at hr
  have htracked' : ∀ run phase, Tracked { s with run := run, phase := phase } :=
    fun run phase => tracked_same htracked rfl (fun hp => absurd hp hs)
  have hledger' : ∀ phase : Phase, (phase.answers = true → s.phase.answers = true) →
      Ledger { s with phase := phase } := fun phase hphase =>
    ⟨hflag, hordered, hplain, hclosing, hclosed, hbound, fun hs ha => hkept hs (hphase ha),
      fun hs ha => hgone hs (hphase ha)⟩
  cases hstate : s.run.state with
  | running =>
    have hledger'' : ∀ phase : Phase, (phase.answers = true → s.phase.answers = true) →
        Ledger { s with run := { s.run with state := .settling }, phase := phase } := by
      intro phase hphase
      refine ⟨?_, hordered, ?_, ?_, ?_, ?_, ?_, ?_⟩
      · simp only [reduceCtorEq, or_self, iff_false]
        rw [hflag, hstate]
        simp
      · exact fun _ => hplain (.inl hstate)
      · simp
      · simp
      · exact fun _ => hbound (.inl hstate)
      · exact fun _ ha => hkept (.inl hstate) (hphase ha)
      · simp
    simp only [settle, settle_running hstate] at hr
    cases hp : s.phase <;> simp only [hp, reduceCtorEq, Option.some.injEq] at hr
    · subst hr
      simp only [Stands, hp] at hstands
      refine ⟨hledger'' _ (by simp [hp, Phase.answers]), ?_, htracked' _ _⟩
      intro r hr
      obtain rfl := Option.some.inj hr
      exact .inl ⟨rfl, hstands.2.2, _, hstands.2.1, rfl⟩
    · subst hr
      rename_i result
      refine ⟨hledger'' _ (by simp [hp, Phase.answers]), ?_, htracked' _ _⟩
      intro r hres
      simp only [Stands, hp, hstate] at hstands
      simpa using hstands r hres
  | settling =>
    simp only [settle, settle_settling hstate] at hr
    cases hp : s.phase <;> simp only [hp, reduceCtorEq, Option.some.injEq] at hr
    · simp only [Stands, hp] at hstands
      exact absurd hstate hstands.1
    · subst hr
      rename_i result
      refine ⟨hledger' _ (by simp [hp, Phase.answers]), ?_, htracked' _ _⟩
      simp only [Stands, hp] at hstands
      exact hstands
  | persistingCancellation =>
    simp only [settle, settle_persisting hstate (hflag.mpr (.inl hstate))] at hr
    cases hp : s.phase <;> simp only [hp, reduceCtorEq, Option.some.injEq] at hr
    · subst hr
      simp only [Stands, hp] at hstands
      exact ⟨hledger' _ (by simp [hp, Phase.answers]), ⟨hstate, hstands.2⟩, htracked' _ _⟩
    · subst hr
      rename_i result
      refine ⟨hledger' _ (by simp [hp, Phase.answers]), ?_, htracked' _ _⟩
      simp only [Stands, hp, hstate] at hstands ⊢
      refine ⟨hstate, ?_⟩
      cases result with
      | none => rfl
      | some r => simpa using hstands r rfl
  | cancelled =>
    simp only [settle, settle_cancelled hstate] at hr
    cases hp : s.phase <;> simp only [hp, reduceCtorEq, Option.some.injEq] at hr
    · subst hr
      refine ⟨hledger' _ (by simp [hp, Phase.answers]), ?_, htracked' _ _⟩
      intro r hr
      obtain rfl := Option.some.inj hr
      exact .inr ⟨hstate, rfl⟩
    · subst hr
      rename_i result
      refine ⟨hledger' _ (by simp [hp, Phase.answers]), ?_, htracked' _ _⟩
      simp only [Stands, hp] at hstands
      exact hstands

theorem sound_release {result : Option RunResult} (h : s.Sound) (hp : s.phase = .releasing result) :
    (s.enter (.released result)).Sound := by
  obtain ⟨hledger, hstands, htracked⟩ := h
  obtain ⟨hflag, hordered, hplain, hclosing, hclosed, hbound, hkept, hgone⟩ := hledger
  refine ⟨⟨hflag, hordered, hplain, hclosing, hclosed, hbound, ?_, ?_⟩, ?_, ?_⟩
  · exact fun hs ha => hkept hs (by rw [hp]; exact ha)
  · exact fun hs ha => hgone hs (by rw [hp]; exact ha)
  · simp only [Stands, hp] at hstands
    exact hstands
  · exact tracked_same htracked rfl (fun hs => by simp [hp] at hs)

theorem sound_step {a : Act} (h : s.Sound) (hm : s.EndsOnce a) (hs : s.step a = some s') : s'.Sound := by
  cases moves_of_step hs with
  | emit hn hl => exact sound_emit h hn hl hm
  | conclude hp hc => exact sound_conclude h hp hc
  | land hq => exact sound_land h hq
  | fail hq => exact sound_fail h hq hm
  | cancel _ => exact sound_cancel h _ hm
  | returns hp hc hout => exact sound_returns h hp hc hout
  | throws hp => exact sound_throws h hp
  | settle hr => exact sound_settle h hr
  | release hp => exact sound_release h hp

theorem sound_begun (executionId : String) : (begun executionId).Sound := by
  refine ⟨⟨?_, ?_, ?_, ?_, ?_, ?_, ?_, ?_⟩, ⟨by simp [begun], rfl⟩, ?_⟩
  all_goals simp [begun, trail, Tracked, RunEvent.terminal]

end Execution

end KimchiWorkflows.Host
