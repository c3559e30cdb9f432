import KimchiWorkflows.Host.OneEnding

namespace KimchiWorkflows.Host

open KimchiWorkflows.Engine Stepping

namespace Execution

def NeverCancelled (_ : Execution) : Act → Prop
  | .cancel _ => False
  | _ => True

def endings (events : List RunEvent) : List RunStatus := events.filterMap RunEvent.terminal

structure Plain (executionId : String) (s : Execution) : Prop where
  gate : s.run = { state := .running } ∨ s.run = { state := .settling }
  queued : ∀ append ∈ s.queue, append.origin ≠ .cancel
  kept : s.lost = [] → s.trail ++ s.turnedAway = .runExecutionStarted executionId :: s.emitted
  admitted : s.run.state = .running → s.turnedAway = []
  ends : s.phase.answers = true →
    endings s.trail = endings ((s.concluded.map closingEvents).getD [])
  stands : match s.phase with
    | .starting => s.run.state = .running ∧ s.concluded = none
    | .executing => s.run.state = .running
    | .returned outcome => s.run.state = .running ∧ s.concluded = some outcome ∧ s.Written
    | .settling _ | .waiting _ => False
    | .unwinding result => ∀ r, result = some r → s.run.state = .settling ∧ s.Written ∧
        ∃ outcome, s.concluded = some outcome ∧ r = resultOf outcome
    | .releasing result | .released result => s.run.state = .settling ∧ ∀ r, result = some r → s.Written ∧
        ∃ outcome, s.concluded = some outcome ∧ r = resultOf outcome

variable {executionId : String} {s s' : Execution} {event : RunEvent} {outcome : ExecOutcome} {a : Act}

theorem plain_begun (executionId : String) : Plain executionId (begun executionId) := by
  refine ⟨.inl rfl, ?_, ?_, ?_, ?_, rfl, rfl⟩ <;> simp [begun, trail, endings, RunEvent.terminal]

theorem endings_snoc (events : List RunEvent) (h : event.terminal = none) :
    endings (events ++ [event]) = endings events := by
  simp [endings, h]

theorem plain_emit (h : Plain executionId s) (ht : event.terminal = none) :
    Plain executionId (s.offer event) := by
  obtain ⟨hgate, hqueued, hkept, hadmitted, hends, hstands⟩ := h
  by_cases hr : s.run.state = .running
  · rw [offer_running hr]
    refine ⟨hgate, ?_, ?_, hadmitted, ?_, ?_⟩
    · grind
    · intro hl
      have hk := hkept hl
      rw [hadmitted hr, List.append_nil] at hk ⊢
      simp only [trail, trail_snoc] at hk ⊢
      rw [hk, List.cons_append]
    · intro ha
      simp only [trail, trail_snoc]
      rw [endings_snoc _ ht]
      exact hends ha
    · simp only [Written] at hstands ⊢
      grind
  · rw [offer_closed hr]
    refine ⟨hgate, hqueued, ?_, fun hs => absurd hs hr, hends, hstands⟩
    intro hl
    rw [← List.append_assoc]
    exact (congrArg (· ++ [event]) (hkept hl)).trans rfl

theorem plain_conclude (h : Plain executionId s) (hp : s.phase = .executing) (hc : s.concluded = none) :
    Plain executionId { (closingEvents outcome).foldl offer s with concluded := some outcome } := by
  obtain ⟨hgate, hqueued, hkept, hadmitted, hends, hstands⟩ := h
  simp only [hp] at hstands
  have hnone : endings s.trail = [] := by simpa [hp, hc, Phase.answers, endings] using hends
  rcases closingEvents_cases outcome with ⟨hnil, -⟩ | ⟨event, hone, -⟩
  · rw [hnil]
    refine ⟨hgate, hqueued, hkept, hadmitted, ?_, ?_⟩
    · intro _
      simp only [Option.map_some, Option.getD_some, hnil]
      exact hnone
    · simpa [hp] using hstands
  · rw [hone]
    simp only [List.foldl_cons, List.foldl_nil, offer_running hstands]
    refine ⟨hgate, ?_, ?_, hadmitted, ?_, ?_⟩
    · grind
    · intro hl
      have hk := hkept hl
      rw [hadmitted hstands, List.append_nil] at hk ⊢
      simp only [trail, trail_snoc] at hk ⊢
      rw [hk, List.cons_append]
    · intro _
      simp only [trail, trail_snoc, Option.map_some, Option.getD_some, hone]
      have hbefore : endings (s.log ++ s.queue.map Append.event) = [] := hnone
      rw [endings, List.filterMap_append, ← endings, hbefore]
      rfl
    · simpa [hp] using hstands

theorem plain_land {append : Append} {rest : List Append} (h : Plain executionId s) (ht : s.Tracked)
    (hq : s.queue = append :: rest) : Plain executionId (s.landed append rest) := by
  obtain ⟨hgate, hqueued, hkept, hadmitted, hends, hstands⟩ := h
  have htrail : (s.log ++ [append.event]) ++ rest.map Append.event = s.trail := by
    simp [trail, hq]
  have hrest : ∀ a ∈ rest, a ∈ s.queue := fun a ha => by rw [hq]; exact List.mem_cons_of_mem _ ha
  cases ho : append.origin with
  | cancel => exact absurd ho (hqueued append (by simp [hq]))
  | engine =>
    simp only [landed, ho]
    refine ⟨hgate, fun a ha => hqueued a (hrest a ha), ?_, hadmitted, ?_, ?_⟩
    · simp only [trail, htrail]
      exact hkept
    · simp only [trail, htrail]
      exact hends
    · simp only [Written] at hstands ⊢
      grind
  | tracker =>
    have hp : s.phase = .starting := ht.1 append (by simp [hq]) ho
    simp only [landed, ho, enter]
    refine ⟨hgate, fun a ha => hqueued a (hrest a ha), ?_, hadmitted, ?_, ?_⟩
    · simp only [trail, htrail]
      exact hkept
    · simp only [trail, htrail]
      exact fun _ => hends (by rw [hp]; rfl)
    · simp only [hp] at hstands
      exact hstands.1

/-- A terminal event in the queue of a call that may still answer is one of a call that still runs. -/
theorem executing_of_plain {append : Append} (h : Plain executionId s) (hmem : append ∈ s.queue)
    (ht : append.event.terminal ≠ none) (ha : s.phase.answers = true) : s.phase = .executing := by
  have hnw : ¬ s.Written := fun hw => ht (hw append hmem (h.queued append hmem))
  have hends := h.ends ha
  have hstands := h.stands
  cases hp : s.phase <;> simp only [hp, Phase.answers, Option.isSome_iff_exists] at hstands ha
  · rw [hstands.2, Option.map_none, Option.getD_none] at hends
    have hnone := List.filterMap_eq_nil_iff.mp hends append.event
      (List.mem_append_right _ (List.mem_map_of_mem hmem))
    exact absurd hnone ht
  all_goals grind

theorem plain_fail {append : Append} {rest : List Append} (h : Plain executionId s)
    (hq : s.queue = append :: rest) : Plain executionId (s.failed append rest) := by
  have hmem : append ∈ s.queue := by simp [hq]
  have hexecuting := executing_of_plain h hmem
  obtain ⟨hgate, hqueued, -, hadmitted, hends, hstands⟩ := h
  have hrest : ∀ a ∈ rest, a ∈ s.queue := fun a ha => by rw [hq]; exact List.mem_cons_of_mem _ ha
  have hwritten : s.Written → ∀ lost phase, Written { s with queue := rest, lost := lost, phase := phase } :=
    fun hw _ _ a ha => hw a (hrest a ha)
  have hlost : s.lost ++ [append.event] ≠ [] := by simp
  cases ho : append.origin with
  | cancel => exact absurd ho (hqueued append hmem)
  | tracker =>
    simp only [failed, ho, enter]
    exact ⟨hgate, fun a ha => hqueued a (hrest a ha), fun hl => absurd hl hlost, hadmitted,
      fun ha => absurd ha Bool.false_ne_true, of_no_result⟩
  | engine =>
    have hsame : s.phase.answers = true → append.event.terminal = none →
        endings (s.log ++ rest.map Append.event) = endings ((s.concluded.map closingEvents).getD []) := by
      intro ha ht
      rw [← hends ha, trail, hq]
      simp [endings, ht]
    by_cases ht : append.event.terminal = none
    · have hfailed : s.failed append rest = { s with queue := rest, lost := s.lost ++ [append.event] } := by
        cases hp : s.phase <;> simp_all [failed]
      rw [hfailed]
      refine ⟨hgate, fun a ha => hqueued a (hrest a ha), fun hl => absurd hl hlost, hadmitted, fun ha => hsame ha ht, ?_⟩
      cases hp : s.phase <;> simp only [hp] at hstands ⊢ <;> grind
    · by_cases hp : s.phase = .executing
      · have hfailed : s.failed append rest =
            { s with queue := rest, lost := s.lost ++ [append.event], phase := .unwinding none } := by
          simp only [failed, ho, hp, Option.isSome_iff_ne_none.mpr ht, if_true]
          rfl
        rw [hfailed]
        exact ⟨hgate, fun a ha => hqueued a (hrest a ha), fun hl => absurd hl hlost, hadmitted,
          fun ha => absurd ha Bool.false_ne_true, of_no_result⟩
      · have hfailed : s.failed append rest = { s with queue := rest, lost := s.lost ++ [append.event] } := by
          cases hphase : s.phase <;> simp_all [failed]
        rw [hfailed]
        refine ⟨hgate, fun a ha => hqueued a (hrest a ha), fun hl => absurd hl hlost, hadmitted,
          fun ha => absurd (hexecuting ht ha) hp, ?_⟩
        cases hp : s.phase <;> simp only [hp] at hstands ⊢ <;> grind

theorem plain_returns {outcome : ExecOutcome} (h : Plain executionId s) (ht : s.Tracked)
    (hp : s.phase = .executing) (hc : s.concluded = some outcome)
    (hout : ∀ append ∈ s.queue, append.origin = .engine → append.event.terminal = none) :
    Plain executionId (s.enter (.returned outcome)) := by
  obtain ⟨hgate, hqueued, hkept, hadmitted, hends, hstands⟩ := h
  simp only [hp] at hstands
  refine ⟨hgate, hqueued, hkept, hadmitted, fun _ => hends (by rw [hp]; rfl), hstands, hc, ?_⟩
  intro append ha ho
  cases horigin : append.origin with
  | cancel => exact absurd horigin ho
  | tracker => exact ht.2.2 append ha horigin
  | engine => exact hout append ha horigin

theorem plain_settle (h : Plain executionId s) (hr : s.settle = some s') : Plain executionId s' := by
  obtain ⟨hgate, hqueued, hkept, hadmitted, hends, hstands⟩ := h
  have hsettle : s.run.settle = (.settled false, { state := .settling }) := by
    rcases hgate with hg | hg <;> rw [hg] <;> rfl
  simp only [settle, hsettle] at hr
  cases hp : s.phase <;> simp only [hp, reduceCtorEq, Option.some.injEq] at hr
  · subst hr
    simp only [hp] at hstands
    refine ⟨.inr rfl, hqueued, hkept, fun hs => ActiveState.noConfusion hs, fun _ => hends (by rw [hp]; rfl), ?_⟩
    intro r hres
    obtain rfl := Option.some.inj hres
    exact ⟨rfl, hstands.2.2, _, hstands.2.1, rfl⟩
  · subst hr
    simp only [hp] at hstands
    refine ⟨.inr rfl, hqueued, hkept, fun hs => ActiveState.noConfusion hs, fun ha => hends (by rw [hp]; exact ha), rfl, ?_⟩
    exact fun r hres => (hstands r hres).2

theorem plain_step (h : Plain executionId s) (ht : s.Tracked) (hm : s.NeverCancelled a)
    (hs : s.step a = some s') : Plain executionId s' := by
  cases moves_of_step hs with
  | emit hn _ => exact plain_emit h hn
  | conclude hp hc => exact plain_conclude h hp hc
  | land hq => exact plain_land h ht hq
  | fail hq => exact plain_fail h hq
  | cancel _ => exact hm.elim
  | returns hp hc hout => exact plain_returns h ht hp hc hout
  | throws _ => exact ⟨h.gate, h.queued, h.kept, h.admitted, fun ha => absurd ha Bool.false_ne_true, of_no_result⟩
  | settle hr => exact plain_settle h hr
  | release hp =>
    have hstands := h.stands
    simp only [hp] at hstands
    exact ⟨h.gate, h.queued, h.kept, h.admitted, fun ha => h.ends (by rw [hp]; exact ha), hstands⟩

theorem landed_queue (s : Execution) (append : Append) (rest : List Append) :
    (s.landed append rest).queue = rest := by
  unfold landed
  cases append.origin <;> simp only [enter]
  cases s.phase <;> rfl

theorem failed_queue (s : Execution) (append : Append) (rest : List Append) :
    (s.failed append rest).queue = rest := by
  unfold failed
  cases append.origin with
  | engine =>
    cases s.phase <;> simp only [enter]
    split_ifs <;> rfl
  | _ => cases s.phase <;> rfl

theorem tracked_offer (h : s.Tracked) : (s.offer event).Tracked := by
  by_cases hr : s.run.state = .running
  · rw [offer_running hr]
    exact tracked_snoc ⟨.engine, event⟩ h Origin.noConfusion rfl rfl
  · rw [offer_closed hr]
    exact h

theorem tracked_step (h : s.Tracked) (hs : s.step a = some s') : s'.Tracked := by
  cases moves_of_step hs with
  | emit _ _ => exact tracked_offer h
  | @conclude outcome _ _ =>
    obtain ⟨hnil, -⟩ | ⟨event, hone, -⟩ := closingEvents_cases outcome
    · rw [hnil]
      exact h
    · rw [hone]
      exact tracked_offer h
  | @land append rest hq => exact tracked_tail h hq (landed_queue s append rest)
  | @fail append rest hq => exact tracked_tail h hq (failed_queue s append rest)
  | cancel _ =>
    unfold cancel
    split
    · exact tracked_snoc ⟨.cancel, _⟩ h Origin.noConfusion rfl rfl
    · exact h
  | returns hp _ _ => exact tracked_same h rfl (fun hs => by simp [hp] at hs)
  | throws hp => exact tracked_same h rfl (fun hs => by simp [hp] at hs)
  | settle hr =>
    simp only [settle] at hr
    split at hr <;> first | cases hr; done | skip
    all_goals
      rename_i hp _
      obtain rfl := Option.some.inj hr
      exact tracked_same h rfl (fun hs => by simp [hp] at hs)
  | release hp => exact tracked_same h rfl (fun hs => by simp [hp] at hs)

theorem tracked_begun (executionId : String) : (begun executionId).Tracked := by
  simp [Tracked, begun, RunEvent.terminal]

def Undone (executionId : String) (s : Execution) : Prop :=
  ∃ actions, Run step NeverCancelled (begun executionId) actions s

theorem Undone.step (h : Undone executionId s) (hs : s.step a = some s') (hm : s.NeverCancelled a) :
    Undone executionId s' := by
  obtain ⟨actions, hrun⟩ := h
  exact ⟨_, .snoc hrun hs hm⟩

theorem Undone.plain (h : Undone executionId s) : Plain executionId s ∧ s.Tracked := by
  obtain ⟨actions, hrun⟩ := h
  induction hrun with
  | nil => exact ⟨plain_begun executionId, tracked_begun executionId⟩
  | snoc _ hs hm ih => exact ⟨plain_step ih.1 ih.2 hm hs, tracked_step ih.2 hs⟩

end Execution

end KimchiWorkflows.Host
