import KimchiWorkflows.Engine.ConcurrencyCeiling
import KimchiWorkflows.Engine.ExecutionKeys
import KimchiWorkflows.Engine.IsolationTags

/-!
Agent steps that are in flight together are isolated, ask nothing, and share no declared conversation.
-/

namespace KimchiWorkflows.Engine

open KimchiWorkflows.Flow Process Process.Proc Scheduling

variable {workflow : WorkflowDefinition} {log : List RunEvent} {call : EngineCall} {launched : Launched}
  {t : Trace} {memory : RunMemory} {start code : Code} {φs : List SlotPhase} {key key' : NodePath}
  {step step' : StepDefinition} {clash : NodePath → StepDefinition → NodePath → StepDefinition → Prop}
  {home : SlotPhase → Prop}

def FlightHolds (memory : RunMemory) (φs : List SlotPhase) : Prop :=
  ∀ key, key ∈ memory.inFlight ↔ ∃ step, SlotPhase.holding key step true ∈ φs

theorem flightHolds_moved {φ φ' : SlotPhase} {l r : List SlotPhase} {memory' : RunMemory}
    (h : FlightHolds memory (l ++ [φ].filter slots.busy ++ r)) (hsame : memory'.inFlight = memory.inFlight)
    (hφ : ∀ key step, φ ≠ .holding key step true) (hφ' : ∀ key step, φ' ≠ .holding key step true) :
    FlightHolds memory' (l ++ [φ'].filter slots.busy ++ r) := by
  have hnot : ∀ (ψ : SlotPhase) key step, ψ ≠ .holding key step true →
      SlotPhase.holding key step true ∉ [ψ].filter slots.busy := by
    intro ψ key step hne hm
    exact hne (List.mem_singleton.mp (List.mem_filter.mp hm).1).symm
  intro key
  rw [hsame, h key]
  constructor
  · rintro ⟨step, hm⟩
    simp only [List.append_assoc, List.mem_append, hnot φ key step (hφ key step), false_or] at hm
    exact ⟨step, by simpa [List.mem_append] using hm.imp_right .inr⟩
  · rintro ⟨step, hm⟩
    simp only [List.append_assoc, List.mem_append, hnot φ' key step (hφ' key step), false_or] at hm
    exact ⟨step, by simpa [List.mem_append] using hm.imp_right .inr⟩

theorem kept_flightHolds (hk : Keyed clash) : Kept (engineWorld workflow) slots (ApartOf clash) home
    (fun _ memory φs => FlightHolds memory φs) where
  did := by
    intro _ s a l r φ φ' hm _ hp _ _ h
    cases hm with
    | emit event φ => exact h
    | store key output φ => exact h
    | ask key step => exact flightHolds_moved h rfl (by simp) (by simp)
    | grant key step => exact flightHolds_moved h rfl (by simp) (by simp)
    | release key step => exact flightHolds_moved h rfl (by simp) (by simp)
    | enter key step =>
      intro other
      have hother := h other
      simp only [filter_holding, List.mem_append, List.mem_singleton, SlotPhase.holding.injEq] at hother ⊢
      show other ∈ s.inFlight.insert key ↔ _
      rw [List.mem_insert_iff, hother]
      constructor
      · rintro (rfl | ⟨step', hm⟩)
        · exact ⟨step, .inl (.inr ⟨rfl, rfl, trivial⟩)⟩
        · obtain (hm | ⟨-, -, hf⟩) | hm := hm
          · exact ⟨step', .inl (.inl hm)⟩
          · cases hf
          · exact ⟨step', .inr hm⟩
      · rintro ⟨step', (hm | ⟨rfl, -, -⟩) | hm⟩
        · exact .inr ⟨step', .inl (.inl hm)⟩
        · exact .inl rfl
        · exact .inr ⟨step', .inr hm⟩
    | leave key step =>
      rw [filter_holding, List.append_assoc, List.pairwise_append, List.singleton_append, List.pairwise_cons] at hp
      have hapart : ∀ step', SlotPhase.holding key step' true ∉ l ∧ SlotPhase.holding key step' true ∉ r := by
        intro step'
        constructor
        · intro hm
          obtain ⟨_, _, _, _, h₁, h₂, ho⟩ := hp.2.2 _ hm _ List.mem_cons_self
          cases h₁
          cases h₂
          exact hk _ _ _ _ ho rfl
        · intro hm
          obtain ⟨_, _, _, _, h₁, h₂, ho⟩ := hp.2.1.1 _ hm
          cases h₁
          cases h₂
          exact hk _ _ _ _ ho rfl
      intro other
      have hother := h other
      simp only [filter_holding, List.mem_append, List.mem_singleton, SlotPhase.holding.injEq] at hother ⊢
      show other ∈ s.inFlight.filter (· ≠ key) ↔ _
      rw [List.mem_filter, decide_eq_true_eq, hother]
      constructor
      · rintro ⟨⟨step', (hm | ⟨rfl, -, -⟩) | hm⟩, hne⟩
        · exact ⟨step', .inl (.inl hm)⟩
        · exact absurd rfl hne
        · exact ⟨step', .inr hm⟩
      · rintro ⟨step', (hm | ⟨-, -, hf⟩) | hm⟩
        · refine ⟨⟨step', .inl (.inl hm)⟩, ?_⟩
          rintro rfl
          exact (hapart step').1 hm
        · cases hf
        · refine ⟨⟨step', .inr hm⟩, ?_⟩
          rintro rfl
          exact (hapart step').2 hm
  saw := fun _ _ _ h => h
  heard := fun _ _ _ _ _ _ _ _ _ h => h
  outside := by
    rintro _ s _ φs rfl h
    exact h

/-- At any moment of a call the parts have phases that tell the steps in flight. -/
theorem phases_of_run (hc : Committed workflow) (hl : launch workflow log call = .ok launched)
    (ht : Throws launched.code start) (hr : Proc.Run start t code)
    (hw : Replay (engineWorld workflow) (launched.memory log) t memory) :
    ∃ phases, List.Forall₂ (GoesOn slots (ApartOf (OverlapIn workflow.nodes))) code.parts phases ∧
      (phases.filter slots.busy).Pairwise (ApartOf (OverlapIn workflow.nodes)) ∧
      (∀ φ ∈ phases.filter slots.busy, HomeOf (RunsIn workflow.nodes) φ) ∧
      FlightHolds memory (phases.filter slots.busy) := by
  obtain ⟨φs, hstands, hnone⟩ := stands_of_keeps (keeps_throws ht (slotted_launch hc hl)) (fun hb => by cases hb)
  have hstart : FlightHolds (launched.memory log) (φs.filter slots.busy) := by
    rw [hnone]
    intro key
    simp [Launched.memory]
  obtain ⟨phases, hends, h⟩ := stands_run (kept_flightHolds (keyed_overlapIn workflow.nodes)) (u := []) hstands hr hw hstart
  exact ⟨phases, parts_of_stands hends, apart_of_stands hends, home_of_stands hends, h⟩

theorem runsIn_unique (hc : Committed workflow) (h : RunsIn workflow.nodes key step)
    (h' : RunsIn workflow.nodes key step') : step = step' := by
  obtain ⟨node, hm, hr⟩ := h
  obtain ⟨other, hn, hr'⟩ := h'
  exact runsAt_unique hc.scopesUnique hm hn hr hr'

theorem overlap_of_inFlight (hc : Committed workflow) (hapart : φs.Pairwise (ApartOf (OverlapIn workflow.nodes)))
    (hhome : ∀ φ ∈ φs, HomeOf (RunsIn workflow.nodes) φ) (hflight : FlightHolds memory φs) (hne : key ≠ key')
    (hk : key ∈ memory.inFlight) (hk' : key' ∈ memory.inFlight) (hrun : RunsIn workflow.nodes key step)
    (hrun' : RunsIn workflow.nodes key' step') :
    OverlapIn workflow.nodes key step key' step' ∨ OverlapIn workflow.nodes key' step' key step := by
  have hstep : ∀ {key step other}, SlotPhase.holding key other true ∈ φs → RunsIn workflow.nodes key step →
      other = step := by
    intro key step other hm hrun
    obtain ⟨_, _, hexec, hregion⟩ := hhome _ hm
    cases hexec
    exact runsIn_unique hc hregion hrun
  obtain ⟨first, hs⟩ := (hflight key).mp hk
  obtain ⟨second, hs'⟩ := (hflight key').mp hk'
  obtain rfl := hstep hs hrun
  obtain rfl := hstep hs' hrun'
  have hsymm : Std.Symm (fun φ ψ => ApartOf (OverlapIn workflow.nodes) φ ψ ∨ ApartOf (OverlapIn workflow.nodes) ψ φ) :=
    ⟨fun _ _ h => h.symm⟩
  have hpairs : φs.Pairwise
      (fun φ ψ => ApartOf (OverlapIn workflow.nodes) φ ψ ∨ ApartOf (OverlapIn workflow.nodes) ψ φ) := hapart.imp .inl
  have hdistinct : SlotPhase.holding key first true ≠ SlotPhase.holding key' second true := by
    intro he
    cases he
    exact hne rfl
  obtain ⟨_, _, _, _, h₁, h₂, ho⟩ | ⟨_, _, _, _, h₁, h₂, ho⟩ := hpairs.forall hs hs' hdistinct
  · cases h₁
    cases h₂
    exact .inl ho
  · cases h₁
    cases h₂
    exact .inr ho

def Executing (part : Code) (call : StepCall) : Prop := ∃ next, part = .call call next

theorem holding_of_executing {part : Code} {φ : SlotPhase} {call : StepCall}
    (h : GoesOn slots (ApartOf clash) part φ) (he : Executing part call) :
    φ = .holding (staticKeyOf call.path) call.step true := by
  obtain ⟨next, rfl⟩ := he
  obtain ⟨-, _, _, _, _, _, hfork⟩ | ⟨home, ha, -⟩ := h
  · cases hfork
  · exact ha

theorem pairwise_of_forall₂ {α β : Type} {R : α → β → Prop} {S : β → β → Prop} {T : α → α → Prop} {as : List α}
    {bs : List β} (h : List.Forall₂ R as bs) (hs : bs.Pairwise S)
    (ht : ∀ a b a' b', R a b → R a' b' → S b b' → T a a') : as.Pairwise T := by
  induction h with
  | nil => exact .nil
  | @cons a b as bs hr hrest ih =>
    obtain ⟨hfirst, hs⟩ := List.pairwise_cons.mp hs
    refine List.pairwise_cons.mpr ⟨fun a' ha' => ?_, ih hs⟩
    obtain ⟨b', hb', hr'⟩ : ∃ b' ∈ bs, R a' b' := by
      obtain ⟨i, hi, rfl⟩ := List.mem_iff_getElem.mp ha'
      have hi' : i < bs.length := hrest.length_eq ▸ hi
      exact ⟨bs[i], List.getElem_mem hi', hrest.get hi hi'⟩
    exact ht _ _ _ _ hr hr' (hfirst b' hb')

structure KeepsApart (workflow : WorkflowDefinition) (memory : RunMemory) (code : Code) : Prop where
  inFlight : ∀ part ∈ code.parts, ∀ call, Executing part call → staticKeyOf call.path ∈ memory.inFlight ∧
    RunsIn workflow.nodes (staticKeyOf call.path) call.step
  guarded : ∀ key key' agent agent', key ≠ key' → key ∈ memory.inFlight → key' ∈ memory.inFlight →
    RunsIn workflow.nodes key (.agent agent) → RunsIn workflow.nodes key' (.agent agent') →
    Guarded agent ∧ Guarded agent'
  executing : code.parts.Pairwise (fun part other => ∀ call call' agent agent', Executing part call →
    Executing other call' → call.step = .agent agent → call'.step = .agent agent' →
    staticKeyOf call.path ≠ staticKeyOf call'.path ∧ Guarded agent ∧ Guarded agent')

/-- Overlap implies isolation: in every state a call of a committed workflow can reach. -/
theorem overlap_isolated (hc : Committed workflow) (hl : launch workflow log call = .ok launched)
    (ht : Throws launched.code start) (hr : Proc.Run start t code)
    (hw : Replay (engineWorld workflow) (launched.memory log) t memory) : KeepsApart workflow memory code := by
  obtain ⟨phases, hparts, hapart, hhome, hflight⟩ := phases_of_run hc hl ht hr hw
  have hguarded : ∀ key step key' step', OverlapIn workflow.nodes key step key' step' →
      GuardedStep step ∧ GuardedStep step' := by
    rintro key step key' step' ⟨node, hm, ho⟩
    exact guarded_committed hc hm ho
  refine ⟨?_, ?_, ?_⟩
  · intro part hp call he
    obtain ⟨i, hi, rfl⟩ := List.mem_iff_getElem.mp hp
    have hi' : i < phases.length := hparts.length_eq ▸ hi
    have hφ := holding_of_executing (hparts.get hi hi') he
    have hm : SlotPhase.holding (staticKeyOf call.path) call.step true ∈ phases.filter slots.busy :=
      List.mem_filter.mpr ⟨hφ ▸ List.getElem_mem hi', rfl⟩
    obtain ⟨key, step, hexec, hregion⟩ := hhome _ hm
    cases hexec
    exact ⟨(hflight _).mpr ⟨_, hm⟩, hregion⟩
  · intro key key' agent agent' hne hk hk' hrun hrun'
    obtain ho | ho := overlap_of_inFlight hc hapart hhome hflight hne hk hk' hrun hrun'
    · exact ⟨(hguarded _ _ _ _ ho).1 _ rfl, (hguarded _ _ _ _ ho).2 _ rfl⟩
    · exact ⟨(hguarded _ _ _ _ ho).2 _ rfl, (hguarded _ _ _ _ ho).1 _ rfl⟩
  · refine pairwise_of_forall₂ hparts (List.pairwise_filter.mp hapart) ?_
    intro part φ other ψ hφ hψ ho call call' agent agent' he he' ha ha'
    rw [holding_of_executing hφ he, holding_of_executing hψ he'] at ho
    obtain ⟨_, _, _, _, h₁, h₂, hover⟩ := ho rfl rfl
    cases h₁
    cases h₂
    rw [ha, ha'] at hover
    obtain ⟨node, hm, hoverlap⟩ := hover
    exact ⟨hoverlap.key_ne, (hguarded _ _ _ _ ⟨node, hm, hoverlap⟩).1 _ rfl,
      (hguarded _ _ _ _ ⟨node, hm, hoverlap⟩).2 _ rfl⟩

section Sample

def panel (isolated : Bool) : WorkflowDefinition :=
  { name := "panel", nodes := [.parallel "both" [.agent { name := "left", isolated := isolated },
      .agent { name := "right", isolated := isolated }]] }

theorem committed_panel : Committed (panel true) :=
  .flat (show (panel false).nodes.flatMap bodiesOf = [] from rfl) rfl

def panelKey (arm : String) : NodePath := [{ name := "both" }, { name := arm }]

theorem panel_overlap_isolated : ∃ code memory, KeepsApart (panel true) memory code ∧
    memory.inFlight = [panelKey "right", panelKey "left"] := by
  obtain ⟨launched, hl⟩ : ∃ launched, launch (panel true) [] (.run "run-1" .null) = .ok launched := ⟨_, rfl⟩
  obtain ⟨t, hr, hw⟩ := pursue_sound (engineWorld (panel true)) 40 launched.code [] (launched.memory [])
  have h := overlap_isolated committed_panel hl (.same _) hr hw
  cases hl
  exact ⟨_, _, h, rfl⟩

end Sample

end KimchiWorkflows.Engine
