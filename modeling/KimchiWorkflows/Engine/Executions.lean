import KimchiWorkflows.Engine.FanOutEffects
import KimchiWorkflows.Engine.TopLevel

/-!
Executions followed with the memory they run in: what is seen of the outputs, and what is left of them.
-/

namespace KimchiWorkflows.Engine

open KimchiWorkflows.Flow Process Process.Proc Scheduling

variable {workflow : WorkflowDefinition} {code : Code} {memory memory' : RunMemory} {t : Trace}
  {outcome : ExecOutcome} {key : NodePath} {region : NodePath → Prop}

theorem emits_of_executes (h : Executes (engineWorld workflow) code memory t (.ok outcome) memory') :
    Emits code (effectsOf t) outcome := ⟨t, h.1, rfl⟩

theorem executes_look {next : RunMemory → Code}
    (h : Executes (engineWorld workflow) (.look next) memory t (.ok outcome) memory') :
    ∃ seen rest, t = .saw seen :: rest ∧ seen.stepOutputs = memory.stepOutputs ∧
      seen.inFlight = memory.inFlight ∧
      Executes (engineWorld workflow) (next seen) seen rest (.ok outcome) memory' := by
  obtain ⟨ht, hr⟩ := h
  obtain ⟨seen, rest, rfl, hrest⟩ := traces_look ht
  obtain ⟨hsame, hreplay⟩ := replay_saw (fun memory => (memory.stepOutputs, memory.inFlight))
    (fun before later ho => by rw [show later = _ from ho]) hr
  obtain ⟨houtputs, hflight⟩ := Prod.mk.inj hsame
  exact ⟨seen, rest, rfl, houtputs, hflight, hrest, hreplay⟩

theorem effectsOf_append (first last : Trace) : effectsOf (first ++ last) = effectsOf first ++ effectsOf last :=
  List.filterMap_append

theorem executes_andThen {next : ExecOutcome → Code}
    (h : Executes (engineWorld workflow) (andThen code next) memory t (.ok outcome) memory') :
    ∃ first last o middle, t = first ++ last ∧
      Executes (engineWorld workflow) code memory first (.ok o) middle ∧
      Executes (engineWorld workflow) (next o) middle last (.ok outcome) memory' := by
  obtain ⟨ht, hr⟩ := h
  obtain ⟨first, result, last, hfirst, hlast, rfl⟩ := traces_bind ht
  obtain ⟨middle, hr₁, hr₂⟩ := replay_split hr
  cases result with
  | ok o => exact ⟨first, last, o, middle, rfl, ⟨hfirst, hr₁⟩, hlast, hr₂⟩
  | error error =>
    have := (traces_done hlast).2
    cases this

theorem output_kept (hc : Confined region code) (hk : ∀ path, region path → staticKeyOf path ≠ key)
    {result : Settlement} (h : Executes (engineWorld workflow) code memory t result memory') :
    Dict.get memory'.stepOutputs key = Dict.get memory.stepOutputs key := by
  obtain ⟨ht, hr⟩ := h
  have hacts := (only_run hc ht).1
  clear ht
  induction hr with
  | nil s => rfl
  | @did action s s' t _ _ ih =>
    rw [ih (fun a ha => hacts a (List.mem_cons_of_mem _ ha))]
    have ha := hacts action List.mem_cons_self
    cases action with
    | setStepOutput other output =>
      obtain ⟨path, hp, rfl⟩ := ha
      exact Dict.get_set_of_ne (hk path hp).symm _ _
    | _ => rfl
  | saw _ ih => exact ih (fun a ha => hacts a (List.mem_cons_of_mem _ ha))
  | heard _ _ ih => exact ih (fun a ha => hacts a (List.mem_cons_of_mem _ ha))
  | outside ho _ ih => rw [ih hacts, show _ = _ from ho]

section Reentries

variable {env : RunEnv} {seen : RunMemory} {inner : Code} {parentPath : NodePath} {frames : List ScopeFrame}
  {input : Value} {active : Reentry} {during : Trace}

/-- Callbacks read the same from both: the outputs, and the steps in flight. -/
structure SameReads (seen memory : RunMemory) : Prop where
  outputs : seen.stepOutputs = memory.stepOutputs
  flight : seen.inFlight = memory.inFlight

theorem SameReads.outputAt (h : SameReads seen memory) (key : NodePath) :
    seen.outputAt key = memory.outputAt key := by
  rw [RunMemory.outputAt, RunMemory.outputAt, h.outputs]

theorem resolveIn_congr (h : SameReads seen memory) (step : String) (scopes : List NodePath) :
    resolveIn env seen step scopes = resolveIn env memory step scopes := by
  induction scopes with
  | nil => rfl
  | cons scope outward ih => simp only [resolveIn, h.flight, ih, h.outputAt]

theorem createRunContext_congr (h : SameReads seen memory) (ownPath : NodePath) :
    createRunContext env seen parentPath frames ownPath = createRunContext env memory parentPath frames ownPath := by
  have hresolve : resolveStepResult env seen (staticPathOf parentPath) =
      resolveStepResult env memory (staticPathOf parentPath) := by
    funext step
    simp only [resolveStepResult, resolveIn_congr h]
  simp only [createRunContext, hresolve]

def ExecOutcome.isCancelled : ExecOutcome → Bool
  | .cancelled _ _ => true
  | _ => false

/-- The run comes to run the code, with the reads it began with, unless it is cancelled on the way. -/
def ComesTo (workflow : WorkflowDefinition) (inner : Code) (memory : RunMemory) (t : Trace) (outcome : ExecOutcome) :
    Prop :=
  outcome.isCancelled = true ∨ ∃ seen during o later, during <:+: t ∧ SameReads seen memory ∧
    Executes (engineWorld workflow) inner seen during (.ok o) later ∧
      (o.isCancelled = true → outcome.isCancelled = true)

theorem ComesTo.widen (h : ComesTo workflow inner memory during outcome) (hi : during <:+: t) :
    ComesTo workflow inner memory t outcome := by
  rcases h with hc | ⟨seen, first, o, later, hfirst, hs, hx, ho⟩
  · exact .inl hc
  · exact .inr ⟨seen, first, o, later, hfirst.trans hi, hs, hx, ho⟩

/-- The node of a scope a re-entry is handed to: the first that answers to the name it starts with. -/
structure HandedTo (nodes : List WorkflowNode) (active : Reentry) (index : Nat) (node : WorkflowNode) : Prop where
  found : ∃ target, leafNameOf active = some target ∧ nodes.findIdx? (matchesReentryTarget target) = some index
  node : nodes[index]? = some node

variable {name : String} {body : List Walked}

section Items

variable {each : ForeachDefinition} {items : List Value} {item : Nat} {effects : List Effect}

def reenteredInput (env : RunEnv) (each : ForeachDefinition) (parentPath : NodePath) (items : List Value)
    (input : Value) (item : Nat) : Value :=
  if each.concurrency ≤ 1 ∧ each.feedback = true then
    (recoverPrefix ((Dict.get env.foreachItemHistory (foreachPath each parentPath)).getD []) input item).2
  else items.getD item .undefined

end Items

end Reentries

end KimchiWorkflows.Engine
