import KimchiWorkflows.Engine.CommittedPaths
import KimchiWorkflows.Engine.OverlapIsolation
import KimchiWorkflows.Engine.TypedLogs

/-!
The paths of a run, as the log spells them: what they address, and the executions under way together.
-/

namespace KimchiWorkflows.Engine

open KimchiWorkflows.Flow Process Process.Proc Scheduling

variable {workflow : WorkflowDefinition} {log : List RunEvent} {nodes : List WorkflowNode} {path key : NodePath}
  {step : StepDefinition} {call : EngineCall} {launched : Launched} {start code : Code} {t : Trace} {memory : RunMemory}

/-- The addressing of a workflow: of the paths in its logs, and of what the log spells for them. -/
structure WellAddressed (workflow : WorkflowDefinition) : Prop where
  recorded : ∀ log, Produced workflow log → ∀ event ∈ log, ∀ path, event.address = some path →
    ∃ place, Addresses workflow.nodes path place
  spelled : ∀ path place, Addresses workflow.nodes path place → parsePath (formatPath path) = .ok path
  keySpelled : ∀ path place, Addresses workflow.nodes path place →
    (parsePath (formatKey path)).map formatKey = .ok (formatKey path)
  sameKey : ∀ path path' place place', Addresses workflow.nodes path place → Addresses workflow.nodes path' place' →
    (formatKey path = formatKey path' ↔ place = place')

/-- The paths a committed workflow records are read back from the log, and a static key names one place. -/
theorem well_addressed (hc : Committed workflow) : WellAddressed workflow where
  recorded := by
    intro log hp event hm path ha
    obtain ⟨node, door, hl, -⟩ := typed_of_produced hp event hm path ha
    exact hl.addressed
  spelled := fun _ _ ha => parsePath_formatPath (ha.spellable hc)
  keySpelled := fun _ _ ha => formatKey_parsePath (ha.spellable hc)
  sameKey := fun _ _ _ _ ha ha' =>
    (formatKey_inj (ha.spellable hc) (ha'.spellable hc)).trans (ha.staticKeyOf_eq_iff hc.scopesUnique ha')

theorem well_addressed_panel : WellAddressed (panel true) := well_addressed committed_panel

theorem located_runsIn (h : RunsIn nodes key step) : Locates nodes key (.step step) .own := by
  obtain ⟨node, hm, hr⟩ := h
  obtain ⟨rest, rfl, hl⟩ := located_runsAt hm hr
  exact hl

theorem Spellable.of_static (h : Spellable (staticKeyOf path)) : Spellable path := by
  refine ⟨fun he => h.1 (by rw [he]; rfl), ?_⟩
  intro segment hm
  rw [← name_staticSegmentOf]
  exact h.2 _ (List.mem_map_of_mem hm)

theorem spellable_runsIn (hc : Committed workflow) (h : RunsIn workflow.nodes (staticKeyOf path) step) :
    Spellable path := by
  obtain ⟨place, ha⟩ := (located_runsIn h).addressed
  exact (ha.spellable hc).of_static

/-- An execution of a step has a path that is read back, a key that stands for the step, and names that lead to it. -/
structure RunsAddressed (workflow : WorkflowDefinition) (call : StepCall) : Prop where
  spelled : parsePath (formatPath call.path) = .ok call.path
  located : Locates workflow.nodes (staticKeyOf call.path) (.step call.step) .own
  resolved : resolveStepAtStaticPath workflow.nodes (call.path.map PathSegment.name) = some call.step

theorem runsAddressed (hc : Committed workflow) {call : StepCall}
    (h : RunsIn workflow.nodes (staticKeyOf call.path) call.step) : RunsAddressed workflow call := by
  refine ⟨parsePath_formatPath (spellable_runsIn hc h), located_runsIn h, ?_⟩
  rw [← names_staticKeyOf]
  exact resolve_located hc.scopesUnique (located_runsIn h)

/-- In every state of a call, the executions under way are addressed, and no two have the same static key. -/
theorem executions_addressed (hc : Committed workflow) (hl : launch workflow log call = .ok launched)
    (ht : Throws launched.code start) (hr : Proc.Run start t code)
    (hw : Replay (engineWorld workflow) (launched.memory log) t memory) :
    (∀ part ∈ code.parts, ∀ call, Executing part call → RunsAddressed workflow call) ∧
      code.parts.Pairwise (fun part other => ∀ call call', Executing part call → Executing other call' →
        formatKey call.path ≠ formatKey call'.path) := by
  obtain ⟨phases, hparts, hapart, hhome, hflight⟩ := phases_of_run hc hl ht hr hw
  have hruns : ∀ part ∈ code.parts, ∀ call, Executing part call →
      RunsIn workflow.nodes (staticKeyOf call.path) call.step := by
    intro part hp call he
    obtain ⟨i, hi, rfl⟩ := List.mem_iff_getElem.mp hp
    have hi' : i < phases.length := hparts.length_eq ▸ hi
    have hφ := holding_of_executing (hparts.get hi hi') he
    have hm : SlotPhase.holding (staticKeyOf call.path) call.step true ∈ phases.filter slots.busy :=
      List.mem_filter.mpr ⟨hφ ▸ List.getElem_mem hi', rfl⟩
    obtain ⟨key, step, hexec, hregion⟩ := hhome _ hm
    cases hexec
    exact hregion
  refine ⟨fun part hp call he => runsAddressed hc (hruns part hp call he), ?_⟩
  have hkeys : code.parts.Pairwise (fun part other => ∀ call call', Executing part call → Executing other call' →
      staticKeyOf call.path ≠ staticKeyOf call'.path) := by
    refine pairwise_of_forall₂ hparts (List.pairwise_filter.mp hapart) ?_
    intro part φ other ψ hφ hψ ho call call' he he'
    rw [holding_of_executing hφ he, holding_of_executing hψ he'] at ho
    obtain ⟨_, _, _, _, h₁, h₂, node, -, hoverlap⟩ := ho rfl rfl
    cases h₁
    cases h₂
    exact hoverlap.key_ne
  refine hkeys.imp_of_mem ?_
  intro part other hp ho hne call call' he he' hsame
  have hspelled := spellable_runsIn hc (hruns part hp call he)
  have hspelled' := spellable_runsIn hc (hruns other ho call' he')
  exact hne call call' he he' ((formatKey_inj hspelled hspelled').mp hsame)

/-- Both arms of the panel are under way at once. -/
theorem executions_addressed_panel : ∃ (code : Code) (memory : RunMemory),
    memory.inFlight = [panelKey "right", panelKey "left"] ∧
    (∀ part ∈ code.parts, ∀ call, Executing part call → RunsAddressed (panel true) call) ∧
    code.parts.Pairwise (fun part other => ∀ call call', Executing part call → Executing other call' →
      formatKey call.path ≠ formatKey call'.path) := by
  let launched := runWorkflow (panel true) "run-1" .null
  obtain ⟨t, hr, hw⟩ := pursue_sound (engineWorld (panel true)) 40 launched.code [] (launched.memory [])
  have hl : launch (panel true) [] (.run "run-1" .null) = .ok launched := rfl
  exact ⟨_, (pursue (engineWorld (panel true)) 40 launched.code [] (launched.memory [])).2, rfl,
    executions_addressed committed_panel hl (.same _) hr hw⟩

end KimchiWorkflows.Engine
