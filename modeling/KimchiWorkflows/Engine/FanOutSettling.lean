import KimchiWorkflows.Engine.SequenceSettling

namespace KimchiWorkflows.Engine

open KimchiWorkflows.Flow Interleaving

variable {ι : Type} {env : RunEnv} {reentered : Bool} {scope path key : NodePath} {effects : List Effect}
  {outcome : ExecOutcome} {events last : List RunEvent} {region : ι → NodePath → Prop}
  {settled : List (ι × ExecOutcome)}

/-- What items or arms that settled side by side leave open, each inside a region of its own. -/
structure Gathers (env : RunEnv) (reentered : Bool) (scope : NodePath) (region : ι → NodePath → Prop)
    (events : List RunEvent) (settled : List (ι × ExecOutcome)) : Prop where
  inside : Inside scope events
  confined : ∀ key, (∀ entry ∈ settled, ¬ region entry.1 key) → Untouched key events
  closes : (∀ entry ∈ settled, entry.2.output?.isSome) → ∀ key, Closes key events
  rests : (∀ entry ∈ settled, entry.2.held = true) → (∀ key, Rests key events) ∨ AsksInArm events
  waits : ∀ i block, (i, .blocked block) ∈ settled →
    Waits env reentered scope (staticKeyOf block.path) events ∧ region i (staticKeyOf block.path)

theorem gathers_nil : Gathers env reentered scope region [] [] where
  inside := inside_nil
  confined _ _ := by simp [Untouched]
  closes _ _ := closes_nil
  rests _ := .inl (fun _ => closes_nil.rests)
  waits := by simp

theorem Settles.rests_of_held (h : Settles env reentered scope events outcome) (hh : outcome.held = true) :
    (∀ key, Rests key events) ∨ AsksInArm events := by
  cases outcome with
  | ok output => exact .inl (fun key => (h.closes output rfl key).rests)
  | blocked block => exact h.rests block rfl
  | crashed error path => cases hh
  | cancelled path source => cases hh

theorem Settles.closes_of_output (h : Settles env reentered scope events outcome)
    (ho : outcome.output?.isSome) : ∀ key, Closes key events := by
  cases outcome with
  | ok output => exact h.closes output rfl
  | _ => cases ho

theorem Gathers.add {reentered' : Bool} {i : ι} (h : Gathers env true scope region events settled)
    (hs : Settles env reentered' scope last outcome) (hc : ∀ key, ¬ region i key → Untouched key last)
    (hw : ∀ block, outcome = .blocked block → Untouched (staticKeyOf block.path) events ∧
      region i (staticKeyOf block.path))
    (hd : ∀ entry ∈ settled, ∀ key, region entry.1 key → ¬ region i key) :
    Gathers env true scope region (events ++ last) (settled ++ [(i, outcome)]) where
  inside := inside_append.mpr ⟨h.inside, hs.inside⟩
  confined key hk := by
    refine untouched_append.mpr ⟨h.confined key ?_, hc key ?_⟩
    · intro entry he
      exact hk entry (List.mem_append_left _ he)
    · exact hk _ (List.mem_append_right _ (List.mem_singleton_self _))
  closes ho key := by
    refine closes_append (h.closes ?_ key) (hs.closes_of_output ?_ key)
    · intro entry he
      exact ho entry (List.mem_append_left _ he)
    · exact ho _ (List.mem_append_right _ (List.mem_singleton_self _))
  rests hh := by
    have hfirst := h.rests (fun entry he => hh entry (List.mem_append_left _ he))
    have hlast := hs.rests_of_held (hh _ (List.mem_append_right _ (List.mem_singleton_self _)))
    rcases hfirst with hr | ha
    · rcases hlast with hr' | ha'
      · exact .inl (fun key => rests_append (hr key) (hr' key))
      · exact .inr (ha'.mono (List.subset_append_right _ _))
    · exact .inr (ha.mono (List.subset_append_left _ _))
  waits j block hm := by
    rcases List.mem_append.mp hm with hm | hm
    · obtain ⟨hwait, hr⟩ := h.waits j block hm
      have hu := hc _ (hd _ hm _ hr)
      refine ⟨?_, hr⟩
      rcases hwait with ha | ⟨hre, hp, hbelow, hleft⟩
      · exact .inl (ha.append_untouched hu)
      · exact .inr ⟨hre, hp, hbelow, untouched_append.mpr ⟨hleft, hu⟩⟩
    · obtain ⟨rfl, rfl⟩ := Prod.mk.inj (List.mem_singleton.mp hm)
      obtain ⟨hu, hr⟩ := hw block rfl
      refine ⟨?_, hr⟩
      rcases hs.waits block rfl with ha | ⟨hre, hp, hbelow, hleft⟩
      · exact .inl (asks_append ha)
      · exact .inr ⟨rfl, hp, hbelow, untouched_append.mpr ⟨hu, hleft⟩⟩

/-- A construct that completes with a checkpoint once everything in it has settled with an output. -/
def Completes (path : NodePath) (code : Code) : Prop :=
  ∀ effects outcome, Emits code effects outcome →
    ∃ value output, recordedEvents effects = [.nodeCompleted path value] ∧ outcome = .ok output

theorem completes_emitNodeCompleted (path : NodePath) (value output : Value) :
    Completes path (emitNodeCompleted path value (conclude (.ok output))) := by
  intro effects outcome h
  obtain ⟨rest, rfl, hr⟩ := emits_emit h
  obtain ⟨rfl, rfl⟩ := emits_conclude hr
  exact ⟨value, output, rfl, rfl⟩

theorem inside_stepsCancelled {blocks : List PendingBlock}
    (h : ∀ block ∈ blocks, Below scope (staticKeyOf block.path)) : Inside scope (stepsCancelled blocks) := by
  intro e he
  obtain ⟨block, hb, rfl⟩ := List.mem_map.mp he
  exact ⟨rfl, _, rfl, h block hb⟩

theorem Gathers.settles {outcomes : List ExecOutcome} {stillBlocked : List PendingBlock} {onOk : Code}
    (h : Gathers env reentered scope region events settled) (hb : Below scope (staticKeyOf path))
    (ho : ∀ o, o ∈ outcomes ↔ ∃ i, (i, o) ∈ settled)
    (hstill : ∀ block ∈ stillBlocked, reentered = true ∧
      LeftWaiting env scope (staticKeyOf block.path) events)
    (hok : Completes path onOk) (he : Emits (settleConcurrent outcomes stillBlocked onOk) effects outcome) :
    Settles env reentered scope (events ++ recordedEvents effects) outcome := by
  have hwaits : ∀ block ∈ outcomes.filterMap ExecOutcome.block? ++ stillBlocked,
      Waits env reentered scope (staticKeyOf block.path) events := by
    intro block hm
    rcases List.mem_append.mp hm with hm | hm
    · obtain ⟨o, hmem, hblock⟩ := List.mem_filterMap.mp hm
      obtain ⟨i, hi⟩ := (ho o).mp hmem
      cases o with
      | blocked b =>
        cases hblock
        exact (h.waits i block hi).1
      | _ => cases hblock
    · obtain ⟨hre, hl⟩ := hstill block hm
      exact .inr ⟨hre, hl⟩
  rcases emits_settleConcurrent he with
    ⟨rfl, p, source, rfl⟩ | ⟨error, p, rfl, rfl⟩ | ⟨hheld, ⟨block, hhead, rfl, rfl⟩ | ⟨hnone, hnil, hdone⟩⟩
  · rw [recordedEvents_nil, List.append_nil]
    exact settles_stopped h.inside rfl
  · rw [recordedEvents_map]
    refine settles_stopped (inside_append.mpr ⟨h.inside, inside_stepsCancelled ?_⟩) rfl
    intro block hm
    exact (hwaits block hm).below h.inside
  · rw [recordedEvents_nil, List.append_nil]
    refine ⟨h.inside, by simp, ?_, ?_⟩
    · rintro b hb
      cases hb
      exact hwaits block (List.mem_of_mem_head? hhead)
    · intro _ _
      apply h.rests
      intro entry hm
      exact hheld _ ((ho _).mpr ⟨entry.1, hm⟩)
  · obtain ⟨value, output, hevents, rfl⟩ := hok _ _ hdone
    rw [hevents]
    have hc : ∀ key, Closes key events := by
      apply h.closes
      intro entry hm
      have hmem := (ho entry.2).mpr ⟨entry.1, hm⟩
      have hblock := List.filterMap_eq_nil_iff.mp hnone _ hmem
      have := hheld _ hmem
      cases hout : entry.2 <;> simp_all [ExecOutcome.held, ExecOutcome.block?, ExecOutcome.output?]
    refine settles_closed (inside_append.mpr ⟨h.inside, inside_singleton rfl rfl hb⟩) ?_
    intro key
    exact closes_append (hc key) (closes_nodeCompleted _ _)

section Lanes

variable {size : Nat} {tagged : List (Nat × RunEvent)} {settled : Nat → Option ExecOutcome}
  {region : Nat → NodePath → Prop}

theorem mem_settledLanes {i : Nat} {o : ExecOutcome} :
    (i, o) ∈ (List.range size).filterMap (fun i => (settled i).map (i, ·)) ↔ i < size ∧ settled i = some o := by
  simp only [List.mem_filterMap, List.mem_range, Option.map_eq_some_iff, Prod.mk.injEq]
  constructor
  · rintro ⟨j, hj, o', ho, rfl, rfl⟩
    exact ⟨hj, ho⟩
  · rintro ⟨hi, ho⟩
    exact ⟨i, hi, o, ho, rfl, rfl⟩

variable (hbound : ∀ e ∈ tagged, e.1 < size)
  (hlane : ∀ i < size, (∃ o, settled i = some o ∧ Settles env false scope (own i tagged) o ∧
    ∀ key, ¬ region i key → Untouched key (own i tagged)) ∨ (settled i = none ∧ own i tagged = []))

include hbound hlane

theorem region_of_touch {j : Nat} {e : RunEvent} {key : NodePath} (hm : (j, e) ∈ tagged) (ht : touchOf key e ≠ none) :
    region j key := by
  by_contra hr
  rcases hlane j (hbound _ hm) with ⟨o, -, -, hc⟩ | ⟨-, hnil⟩
  · exact ht (hc key hr e (mem_own.mpr hm))
  · have := mem_own.mpr hm
    rw [hnil] at this
    cases this

theorem untouched_lanes {key : NodePath} (hn : ∀ i < size, own i tagged ≠ [] → ¬ region i key) :
    Untouched key (tagged.map Prod.snd) := by
  intro e he
  by_contra ht
  obtain ⟨⟨j, e⟩, hm, rfl⟩ := List.mem_map.mp he
  exact hn j (hbound _ hm) (List.ne_nil_of_mem (mem_own.mpr hm)) (region_of_touch hbound hlane hm ht)

theorem inside_lanes : Inside scope (tagged.map Prod.snd) := by
  intro e he
  obtain ⟨⟨j, e⟩, hm, rfl⟩ := List.mem_map.mp he
  rcases hlane j (hbound _ hm) with ⟨o, -, hs, -⟩ | ⟨-, hnil⟩
  · exact hs.inside e (mem_own.mpr hm)
  · exact absurd (mem_own.mpr hm) (by simp [hnil])

variable (hd : ∀ i < size, ∀ j < size, ∀ key, region i key → region j key → i = j)

include hd

theorem alike_lane {i : Nat} {key : NodePath} (hi : i < size) (hr : region i key) :
    Alike key (tagged.map Prod.snd) (own i tagged) := by
  apply alike_own
  intro j e hm ht
  exact hd j (hbound _ hm) i hi key (region_of_touch hbound hlane hm ht) hr

theorem forall_key_of_lanes (property : NodePath → List RunEvent → Prop)
    (hu : ∀ key events, Untouched key events → property key events)
    (ha : ∀ key events events', Alike key events events' → property key events' → property key events)
    (hl : ∀ i o, i < size → settled i = some o → Settles env false scope (own i tagged) o →
      ∀ key, property key (own i tagged)) (key : NodePath) : property key (tagged.map Prod.snd) := by
  by_cases hr : ∃ i < size, own i tagged ≠ [] ∧ region i key
  · obtain ⟨i, hi, hne, hr⟩ := hr
    rcases hlane i hi with ⟨o, ho, hs, -⟩ | ⟨-, hnil⟩
    · exact ha key _ _ (alike_lane hbound hlane hd hi hr) (hl i o hi ho hs key)
    · exact absurd hnil hne
  · refine hu key _ (untouched_lanes hbound hlane ?_)
    intro i hi hne hk
    exact hr ⟨i, hi, hne, hk⟩

/-- Lanes that run at once, in regions that do not meet, gather what each of them leaves. -/
theorem gathers_lanes : Gathers env false scope region (tagged.map Prod.snd)
    ((List.range size).filterMap (fun i => (settled i).map (i, ·))) := by
  refine ⟨inside_lanes hbound hlane, ?_, ?_, ?_, ?_⟩
  · intro key hk
    apply untouched_lanes hbound hlane
    intro i hi hne hr
    rcases hlane i hi with ⟨o, ho, -, -⟩ | ⟨-, hnil⟩
    · exact hk (i, o) (mem_settledLanes.mpr ⟨hi, ho⟩) hr
    · exact hne hnil
  · intro hok
    apply forall_key_of_lanes hbound hlane hd
    · exact fun _ _ hu => .inl hu.idle
    · exact fun _ _ _ ha hc => ha.closes hc
    · intro i o hi ho hs
      exact hs.closes_of_output (hok (i, o) (mem_settledLanes.mpr ⟨hi, ho⟩))
  · intro hheld
    by_cases harm : AsksInArm (tagged.map Prod.snd)
    · exact .inr harm
    · refine .inl (forall_key_of_lanes hbound hlane hd _ (fun _ _ hu => .inl hu.idle)
        (fun _ _ _ ha hr => ha.rests hr) ?_)
      intro i o hi ho hs
      rcases hs.rests_of_held (hheld (i, o) (mem_settledLanes.mpr ⟨hi, ho⟩)) with hr | ha
      · exact hr
      · refine absurd (ha.mono ?_) harm
        intro e he
        exact List.mem_map.mpr ⟨(i, e), mem_own.mp he, rfl⟩
  · intro i block hm
    obtain ⟨hi, ho⟩ := mem_settledLanes.mp hm
    rcases hlane i hi with ⟨o, ho', hs, hc⟩ | ⟨hnone, -⟩
    · cases ho.symm.trans ho'
      have hask := (hs.waits block rfl).asks
      have hr : region i (staticKeyOf block.path) := by
        by_contra hr
        obtain ⟨e, he, ht⟩ := exists_touch hask
        exact ht (hc _ hr e he)
      exact ⟨.inl ((alike_lane hbound hlane hd hi hr).asks hask), hr⟩
    · cases ho.symm.trans hnone

end Lanes

theorem settles_runConcurrent {tasks : List Code} {localLimit : Nat} {onOk : List (Option Settlement) → Code}
    (region : Nat → NodePath → Prop) (hb : Below scope (staticKeyOf path))
    (hok : ∀ results, Completes path (onOk results))
    (htask : ∀ i (hi : i < tasks.length) effects outcome, Emits tasks[i] effects outcome →
      Settles env false scope (recordedEvents effects) outcome ∧
        ∀ key, ¬ region i key → Untouched key (recordedEvents effects))
    (hd : ∀ i < tasks.length, ∀ j < tasks.length, ∀ key, region i key → region j key → i = j)
    (h : Emits (runConcurrent tasks localLimit (fun results => settleAll results (onOk results)))
      effects outcome) :
    Settles env false scope (recordedEvents effects) outcome := by
  obtain ⟨tagged, rest, settled, rfl, hbound, hlane, -, hset⟩ := emits_pool h
  let recorded := tagged.filterMap (fun e => e.2.event?.map (e.1, ·))
  have hown : ∀ i, own i recorded = recordedEvents (own i tagged) := fun i => own_filterMap Effect.event? i tagged
  have hwhole : recorded.map Prod.snd = recordedEvents (tagged.map Prod.snd) := by
    simp only [recorded, recordedEvents_eq, List.map_filterMap, List.filterMap_map]
    congr 1
    funext e
    cases he : e.2.event? <;> simp [Function.comp, he]
  have hg : Gathers env false scope region (recorded.map Prod.snd)
      ((List.range tasks.length).filterMap (fun i => (settled i).map (i, ·))) := by
    apply gathers_lanes
    · intro e he
      obtain ⟨a, ha, hs⟩ := List.mem_filterMap.mp he
      obtain ⟨b, -, rfl⟩ := Option.map_eq_some_iff.mp hs
      exact hbound a ha
    · intro i hi
      rw [hown]
      rcases hlane i hi with ⟨o, ho, he⟩ | ⟨hn, he⟩
      · exact .inl ⟨o, ho, htask i hi _ _ he⟩
      · exact .inr ⟨hn, by rw [he]; rfl⟩
    · exact hd
  rw [recordedEvents_append, ← hwhole]
  refine hg.settles hb ?_ (by simp) (hok _) hset
  intro o
  simp only [List.mem_filterMap, Option.map_eq_some_iff, Prod.mk.injEq]
  constructor
  · rintro ⟨i, hi, ho⟩
    exact ⟨i, i, hi, o, ho, rfl, rfl⟩
  · rintro ⟨i, j, hj, o', ho, rfl, rfl⟩
    exact ⟨j, hj, ho⟩

end KimchiWorkflows.Engine
