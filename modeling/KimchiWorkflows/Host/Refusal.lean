import KimchiWorkflows.Host.Uncancelled

/-!
A cancellation that could not be persisted leaves the execution where it would be without it.
-/

namespace KimchiWorkflows.Host

open KimchiWorkflows.Engine Stepping

def Phase.awaits : Phase → Bool
  | .settling _ => true
  | .waiting _ => true
  | _ => false

namespace Execution

/-- A cancellation that fails has turned no event away, and no `settle` waits for it. -/
def Undisturbed (s : Execution) : Act → Prop
  | .fail => ∀ append ∈ s.queue.head?, append.origin = .cancel →
      s.turnedAway = [] ∧ s.phase.awaits = false
  | _ => True

structure Unaffected (executionId : String) (s : Execution) : Prop where
  erased : ∃ actions, Run step NeverCancelled (begun executionId) actions s
  kept : s.lost = [] → s.trail ++ s.turnedAway = .runExecutionStarted executionId :: s.emitted
  accepts : s.run.state = .running → s.turnedAway = [] ∧ s.run.cancel.1 = .persists
  result : ∀ r, s.phase.result = some r →
    ∃ outcome, s.concluded = some outcome ∧ r = resultOf outcome ∧
      endings s.log = endings (closingEvents outcome)

variable {executionId : String} {s s' : Execution} {event : RunEvent} {outcome : ExecOutcome} {a : Act}

def withdraw (s : Execution) : Execution :=
  { s with run := {}, queue := s.queue.filter (fun append => append.origin ≠ .cancel) }

structure Pending (s : Execution) : Prop where
  run : s.run = { state := .persistingCancellation, cancellation := true }
  queue : ∃ ahead last, s.queue = ahead ++ [last] ∧ last.origin = .cancel ∧
    ∀ append ∈ ahead, append.origin ≠ .cancel

def Unnoticed (s : Execution) : Prop := s.turnedAway = [] ∧ s.phase.awaits = false

/-- One step while a cancellation is under way, as the execution without it would make it. -/
def Mirrored (s s' : Execution) : Prop :=
  s'.Unnoticed → s.Unnoticed ∧ (s' = s ∨ ∃ a, s.withdraw.NeverCancelled a ∧ s.withdraw.step a = some s'.withdraw)

theorem mirrored_offer (h : Pending s) (event : RunEvent) : Pending (s.offer event) ∧
    ¬ (s.offer event).Unnoticed := by
  have hr : s.run.state ≠ .running := by simp [h.run]
  rw [offer_closed hr]
  exact ⟨⟨h.run, h.queue⟩, fun hu => by simp [Unnoticed] at hu⟩

theorem withdraw_queue_cons {append : Append} {rest : List Append} (hq : s.queue = append :: rest)
    (ho : append.origin ≠ .cancel) :
    s.withdraw.queue = append :: rest.filter (fun a => a.origin ≠ .cancel) := by
  simp [withdraw, hq, ho]

theorem pending_tail {append : Append} {rest : List Append} (h : Pending s) (hq : s.queue = append :: rest)
    (ho : append.origin ≠ .cancel) :
    ∃ ahead last, rest = ahead ++ [last] ∧ last.origin = .cancel ∧ ∀ a ∈ ahead, a.origin ≠ .cancel := by
  obtain ⟨ahead, last, hl, hc, ha⟩ := h.queue
  rw [hq] at hl
  cases ahead with
  | nil =>
    obtain ⟨rfl, -⟩ := List.cons.inj hl
    exact absurd hc ho
  | cons first ahead =>
    obtain ⟨rfl, rfl⟩ := List.cons.inj hl
    exact ⟨ahead, last, rfl, hc, fun a h => ha a (List.mem_cons_of_mem _ h)⟩

theorem pending_head {append : Append} {rest : List Append} (h : Pending s) (hq : s.queue = append :: rest)
    (ho : append.origin = .cancel) : rest = [] := by
  obtain ⟨ahead, last, hl, -, ha⟩ := h.queue
  rw [hq] at hl
  cases ahead with
  | nil => exact (List.cons.inj hl).2
  | cons first ahead =>
    obtain ⟨rfl, -⟩ := List.cons.inj hl
    exact absurd ho (ha _ (by simp))

theorem pending_land {append : Append} {rest : List Append} (h : Pending s) (ht : s.Tracked)
    (hq : s.queue = append :: rest) (ho : append.origin ≠ .cancel) :
    Pending (s.landed append rest) ∧ Mirrored s (s.landed append rest) := by
  have htail := pending_tail h hq ho
  have hstep : s.withdraw.step .land = some (s.withdraw.landed append
      (rest.filter (fun a => a.origin ≠ .cancel))) := by
    simp only [step, withdraw_queue_cons hq ho]
  cases horigin : append.origin with
  | cancel => exact absurd horigin ho
  | engine =>
    refine ⟨⟨?_, ?_⟩, fun hu => ⟨?_, .inr ⟨.land, trivial, ?_⟩⟩⟩
    · simpa [landed, horigin] using h.run
    · simpa [landed, horigin] using htail
    · simpa [landed, horigin, Unnoticed] using hu
    · rw [hstep]
      simp [landed, horigin, withdraw]
  | tracker =>
    have hp : s.phase = .starting := ht.1 append (by simp [hq]) horigin
    refine ⟨⟨?_, ?_⟩, fun hu => ⟨?_, .inr ⟨.land, trivial, ?_⟩⟩⟩
    · simpa [landed, horigin, enter] using h.run
    · simpa [landed, horigin, enter] using htail
    · simp only [landed, horigin, enter, Unnoticed] at hu
      exact ⟨hu.1, by rw [hp]; rfl⟩
    · rw [hstep]
      simp [landed, horigin, withdraw, enter]

theorem pending_fail {append : Append} {rest : List Append} (h : Pending s) (ht : s.Tracked)
    (hq : s.queue = append :: rest) (ho : append.origin ≠ .cancel) :
    Pending (s.failed append rest) ∧ Mirrored s (s.failed append rest) := by
  have htail := pending_tail h hq ho
  have hstep : s.withdraw.step .fail = some (s.withdraw.failed append
      (rest.filter (fun a => a.origin ≠ .cancel))) := by
    simp only [step, withdraw_queue_cons hq ho]
  cases horigin : append.origin with
  | cancel => exact absurd horigin ho
  | engine =>
    have hphase : s.withdraw.phase = s.phase := rfl
    refine ⟨⟨?_, ?_⟩, fun hu => ⟨?_, .inr ⟨.fail, trivial, ?_⟩⟩⟩
    · simp only [failed, horigin, enter]
      cases s.phase <;> simp only <;> try split_ifs
      all_goals exact h.run
    · simpa [failed_queue] using htail
    · simp only [failed, horigin, enter, Unnoticed] at hu ⊢
      cases hp : s.phase <;> simp only [hp] at hu ⊢
      · exact hu
      · refine ⟨?_, rfl⟩
        split_ifs at hu <;> exact hu.1
      all_goals simpa [hp] using hu
    · rw [hstep]
      simp only [failed, horigin, enter, hphase]
      cases hp : s.phase <;> simp only
      all_goals try split_ifs
      all_goals simp [withdraw, hp]
  | tracker =>
    have hp : s.phase = .starting := ht.1 append (by simp [hq]) horigin
    refine ⟨⟨?_, ?_⟩, fun hu => ⟨?_, .inr ⟨.fail, trivial, ?_⟩⟩⟩
    · simpa [failed, horigin, enter] using h.run
    · simpa [failed, horigin, enter] using htail
    · simp only [failed, horigin, enter, Unnoticed] at hu
      exact ⟨hu.1, by rw [hp]; rfl⟩
    · rw [hstep]
      simp [failed, horigin, withdraw, enter]

/-- The cancellation under way stays so, or lands, or fails. -/
theorem pending_step (h : Pending s) (ht : s.Tracked) (hs : s.step a = some s') :
    (Pending s' ∧ Mirrored s s') ∨
    (s'.run = { state := .cancelled, cancellation := true } ∧ s'.queue = []) ∨
    (a = .fail ∧ (∀ append ∈ s.queue.head?, append.origin = .cancel) ∧
      (s.phase.awaits = false → s' = s.withdraw)) := by
  cases moves_of_step hs with
  | @emit event _ _ =>
    obtain ⟨hp, hn⟩ := mirrored_offer h event
    exact .inl ⟨hp, fun hu => absurd hu hn⟩
  | @conclude outcome hp hc =>
    obtain ⟨hnil, -⟩ | ⟨event, hone, -⟩ := closingEvents_cases outcome
    · rw [hnil]
      refine .inl ⟨⟨h.run, h.queue⟩, fun hu => ⟨hu, .inr ⟨.conclude outcome, trivial, ?_⟩⟩⟩
      simp [step, withdraw, hp, hc, hnil]
    · rw [hone]
      obtain ⟨hpend, hn⟩ := mirrored_offer h event
      exact .inl ⟨⟨hpend.run, hpend.queue⟩, fun hu => absurd hu hn⟩
  | @land append rest hq =>
    by_cases ho : append.origin = .cancel
    · refine .inr (.inl ⟨?_, by rw [landed_queue]; exact pending_head h hq ho⟩)
      simp only [landed, ho, enter]
      cases s.phase <;> simp [h.run, ActiveRun.persisted]
    · exact .inl (pending_land h ht hq ho)
  | @fail append rest hq =>
    by_cases ho : append.origin = .cancel
    · refine .inr (.inr ⟨rfl, by simp [hq, ho], ?_⟩)
      intro hw
      obtain rfl := pending_head h hq ho
      simp only [failed, ho, enter, withdraw, hq]
      cases hp : s.phase <;> simp [hp, Phase.awaits] at hw ⊢ <;> simp [ho, ActiveRun.rejected]
    · exact .inl (pending_fail h ht hq ho)
  | @cancel path _ =>
    have hsame : s.cancel path = s := by simp [cancel, ActiveRun.cancel, h.run]
    rw [hsame]
    exact .inl ⟨h, fun hu => ⟨hu, .inl rfl⟩⟩
  | @returns outcome hp hc hout =>
    refine .inl ⟨⟨h.run, h.queue⟩, fun hu => ⟨⟨hu.1, by rw [hp]; rfl⟩, .inr ⟨.returns, trivial, ?_⟩⟩⟩
    have hany := (any_terminal_iff s.withdraw.queue).mpr fun append ha => hout append (List.mem_of_mem_filter ha)
    have hp' : s.withdraw.phase = .executing := hp
    have hc' : s.withdraw.concluded = some outcome := hc
    simp only [step, returns, hp', hc', if_neg hany]
    rfl
  | throws hp =>
    refine .inl ⟨⟨h.run, h.queue⟩, fun hu => ⟨⟨hu.1, by rw [hp]; rfl⟩, .inr ⟨.throws, trivial, ?_⟩⟩⟩
    have hp' : s.withdraw.phase = .executing := hp
    simp only [step, hp']
    rfl
  | settle hr =>
    have hsettle : s.run.settle = (.waits, s.run) := by simp [h.run, ActiveRun.settle]
    simp only [settle, hsettle] at hr
    cases hp : s.phase <;> simp only [hp, reduceCtorEq, Option.some.injEq] at hr
    · subst hr
      exact .inl ⟨⟨h.run, h.queue⟩, fun hu => by cases hu.2⟩
    · subst hr
      exact .inl ⟨⟨h.run, h.queue⟩, fun hu => by cases hu.2⟩
  | @release result hp =>
    refine .inl ⟨⟨h.run, h.queue⟩, fun hu => ⟨⟨hu.1, by rw [hp]; rfl⟩, .inr ⟨.release, trivial, ?_⟩⟩⟩
    have hp' : s.withdraw.phase = .releasing result := hp
    simp only [step, hp']
    rfl

theorem cancelled_step (hr : s.run = { state := .cancelled, cancellation := true }) (hq : s.queue = [])
    (hs : s.step a = some s') : s'.run = s.run ∧ s'.queue = [] := by
  have hoffer : ∀ event, (s.offer event).run = s.run ∧ (s.offer event).queue = [] := by
    intro event
    rw [offer_closed (by simp [hr])]
    exact ⟨rfl, hq⟩
  cases moves_of_step hs with
  | @emit event _ _ => exact hoffer event
  | @conclude outcome _ _ =>
    obtain ⟨hnil, -⟩ | ⟨event, hone, -⟩ := closingEvents_cases outcome
    · rw [hnil]
      exact ⟨rfl, hq⟩
    · rw [hone]
      exact hoffer event
  | land hq' => simp [hq] at hq'
  | fail hq' => simp [hq] at hq'
  | cancel _ => simp [cancel, ActiveRun.cancel, hr, hq]
  | returns _ _ _ => exact ⟨rfl, hq⟩
  | throws _ => exact ⟨rfl, hq⟩
  | settle hr' =>
    have hsettle : s.run.settle.2 = s.run := by simp [hr, ActiveRun.settle]
    simp only [settle, hsettle] at hr'
    split at hr' <;> first | cases hr'; done | skip
    all_goals
      obtain rfl := Option.some.inj hr'
      exact ⟨rfl, hq⟩
  | release _ => exact ⟨rfl, hq⟩

/-- What a cancellation under way, or its absence, hides from the execution. -/
def Hidden (executionId : String) (s : Execution) : Prop :=
  s.Tracked ∧
    (Undone executionId s ∨ (Pending s ∧ (s.Unnoticed → Undone executionId s.withdraw)) ∨
      (s.run = { state := .cancelled, cancellation := true } ∧ s.queue = []))

theorem cancel_admitted (h : Plain executionId s) (hr : s.run.state = .running) (path : Option NodePath) :
    Pending (s.cancel path) ∧ (s.cancel path).withdraw = s := by
  have hrun : s.run = { state := .running } := by
    rcases h.gate with hg | hg
    · exact hg
    · rw [hg] at hr
      cases hr
  have haway := h.admitted hr
  have hqueue : s.queue.filter (fun append => append.origin ≠ .cancel) = s.queue :=
    List.filter_eq_self.mpr (fun append ha => by simpa using h.queued append ha)
  constructor
  · refine ⟨?_, ⟨s.queue, ⟨.cancel, .runCancelled path (some .command)⟩, ?_, rfl, h.queued⟩⟩
    · simp [cancel, ActiveRun.cancel, hrun, request]
    · simp [cancel, ActiveRun.cancel, hrun, request]
  · obtain ⟨run, queue, log, concluded, phase, emitted, turnedAway, lost⟩ := s
    simp only at hrun haway hqueue
    subst hrun haway
    simp [cancel, ActiveRun.cancel, request, withdraw] at hqueue ⊢
    exact hqueue

theorem hidden_step (h : Hidden executionId s) (hm : s.Undisturbed a) (hs : s.step a = some s') :
    Hidden executionId s' := by
  obtain ⟨ht, hcases⟩ := h
  refine ⟨tracked_step ht hs, ?_⟩
  rcases hcases with hu | ⟨hp, hu⟩ | ⟨hr, hq⟩
  · by_cases hnever : s.NeverCancelled a
    · exact .inl (hu.step hs hnever)
    · cases a <;> try exact absurd trivial hnever
      rename_i path
      obtain ⟨hplain, -⟩ := hu.plain
      simp only [step] at hs
      split at hs
      · cases hs
      · obtain rfl := Option.some.inj hs
        by_cases hr : s.run.state = .running
        · obtain ⟨hpend, hback⟩ := cancel_admitted hplain hr path
          exact .inr (.inl ⟨hpend, fun _ => by rwa [hback]⟩)
        · have hrun : s.run = { state := .settling } := by
            rcases hplain.gate with hg | hg
            · exact absurd (congrArg ActiveRun.state hg) hr
            · exact hg
          have hsame : s.cancel path = s := by simp [cancel, ActiveRun.cancel, hrun]
          rw [hsame]
          exact .inl hu
  · rcases pending_step hp ht hs with ⟨hp', hmirror⟩ | ⟨hr, hq⟩ | ⟨rfl, hhead, hback⟩
    · refine .inr (.inl ⟨hp', fun hun => ?_⟩)
      obtain ⟨hun', rfl | ⟨b, hnever, hb⟩⟩ := hmirror hun
      · exact hu hun'
      · exact (hu hun').step hb hnever
    · exact .inr (.inr ⟨hr, hq⟩)
    · obtain ⟨ahead, last, hq, -⟩ := hp.queue
      have hne : ∃ append, append ∈ s.queue.head? := by
        cases hqueue : s.queue with
        | nil => simp [hqueue] at hq
        | cons first rest => exact ⟨first, by simp⟩
      obtain ⟨append, hmem⟩ := hne
      have hun : s.Unnoticed := hm append hmem (hhead append hmem)
      rw [hback hun.2]
      exact .inl (hu hun)
  · obtain ⟨hr', hq'⟩ := cancelled_step hr hq hs
    exact .inr (.inr ⟨hr'.trans hr, hq'⟩)

theorem unaffected_of_undone (h : Undone executionId s) : Unaffected executionId s := by
  obtain ⟨hplain, -⟩ := h.plain
  refine ⟨h, hplain.kept, ?_, ?_⟩
  · intro hr
    refine ⟨hplain.admitted hr, ?_⟩
    rcases hplain.gate with hg | hg
    · rw [hg]
      rfl
    · rw [hg] at hr
      cases hr
  · intro r hr
    have hstands := hplain.stands
    have hresult : s.Written ∧ ∃ outcome, s.concluded = some outcome ∧ r = resultOf outcome := by
      cases hp : s.phase <;> simp only [hp, Phase.result, reduceCtorEq] at hstands hr
      · exact (hstands r hr).2
      · exact hstands.2 r hr
      · exact hstands.2 r hr
    have hanswers : s.phase.answers = true := by
      cases hp : s.phase <;> simp [hp, Phase.result, Phase.answers] at hr ⊢ <;> simp [hr]
    obtain ⟨hwritten, outcome, hc, rfl⟩ := hresult
    refine ⟨outcome, hc, rfl, ?_⟩
    have hqueue : endings (s.queue.map Append.event) = [] := by
      refine List.filterMap_eq_nil_iff.mpr ?_
      intro e he
      obtain ⟨append, ha, rfl⟩ := List.mem_map.mp he
      exact hwritten append ha (hplain.queued append ha)
    have hends := hplain.ends hanswers
    rw [hc, Option.map_some, Option.getD_some] at hends
    have hsplit : endings s.trail = endings s.log ++ endings (s.queue.map Append.event) :=
      List.filterMap_append
    rw [← hends, hsplit, hqueue, List.append_nil]

/-- Wherever no cancellation is being persisted or has been, the execution is where it would be had
nobody tried to cancel it. -/
theorem unaffected_of_refused {actions : List Act}
    (h : Run step Undisturbed (begun executionId) actions s)
    (hr : s.run.state = .running ∨ s.run.state = .settling) : Unaffected executionId s := by
  have hbegun : Hidden executionId (begun executionId) := ⟨tracked_begun executionId, .inl ⟨[], .nil⟩⟩
  obtain ⟨-, hu | ⟨hp, -⟩ | ⟨hc, -⟩⟩ := h.keeps hbegun (fun _ _ _ hi hm hs => hidden_step hi hm hs)
  · exact unaffected_of_undone hu
  · rw [hp.run] at hr
    simp at hr
  · rw [hc] at hr
    simp at hr

theorem unaffected_completedAfterRefusal :
    (Run step Undisturbed (begun "e1") refusedThenCompletes completedAfterRefusal ∧
      completedAfterRefusal.run.state = .settling) ∧ Unaffected "e1" completedAfterRefusal := by
  have hrun : Run step Undisturbed (begun "e1") refusedThenCompletes completedAfterRefusal := by
    refine .snoc (.snoc (.snoc (.snoc (.snoc (.snoc (.snoc (.snoc (.snoc .nil rfl trivial) rfl trivial)
      rfl ?_) rfl trivial) rfl trivial) rfl trivial) rfl trivial) rfl trivial) rfl trivial
    exact fun _ _ _ => ⟨rfl, rfl⟩
  exact ⟨⟨hrun, rfl⟩, unaffected_of_refused hrun (.inr rfl)⟩

/-- The engine completes the run while a cancellation is being written that then fails. -/
def completesMeanwhile : List Act :=
  [.land, .cancel none, .conclude (.ok .null), .fail, .returns, .settle, .settle, .release]

def completionLost : Execution :=
  { run := { state := .settling }, queue := [], log := [.runExecutionStarted "e1"]
    concluded := some (.ok .null), phase := .released (some (resultOf (.ok .null)))
    emitted := [.runCompleted .null], turnedAway := [.runCompleted .null] }

theorem refused_cancel_loses_completion :
    ¬ ∀ actions s, Run step Unconditional (begun "e1") actions s →
      s.run.state = .running ∨ s.run.state = .settling → Unaffected "e1" s := by
  intro h
  have hrun : Run step Unconditional (begun "e1") completesMeanwhile completionLost := run_of_steps rfl
  obtain ⟨outcome, hc, -, hends⟩ := (h _ _ hrun (.inr rfl)).result (resultOf (.ok .null)) rfl
  obtain rfl : .ok .null = outcome := Option.some.inj hc
  revert hends
  decide

end Execution

end KimchiWorkflows.Host
