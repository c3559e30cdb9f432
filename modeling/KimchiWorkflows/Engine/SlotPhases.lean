import KimchiWorkflows.Lib.PhaseRuns
import KimchiWorkflows.Engine.Occurrences
import KimchiWorkflows.Engine.ConcurrentNodes
import KimchiWorkflows.Engine.StepNodes
import Mathlib.Data.List.GetD

/-!
The phases of the part of a run that walks to a step and runs it: it asks for a slot, holds it, and is in
flight while it holds it.
-/

namespace KimchiWorkflows.Engine

open KimchiWorkflows.Flow Process Process.Proc

inductive SlotPhase where
  | free
  | asked (key : NodePath) (step : StepDefinition)
  | holding (key : NodePath) (step : StepDefinition) (flying : Bool)

def SlotPhase.busy : SlotPhase → Bool
  | .free => false
  | _ => true

def SlotPhase.execution : SlotPhase → Option (NodePath × StepDefinition)
  | .free => none
  | .asked key step => some (key, step)
  | .holding key step _ => some (key, step)

inductive SlotMoves : Action → SlotPhase → SlotPhase → Prop where
  | emit (event : RunEvent) (φ : SlotPhase) : SlotMoves (.emit event) φ φ
  | store (key : NodePath) (output : Value) (φ : SlotPhase) : SlotMoves (.setStepOutput key output) φ φ
  | ask (key : NodePath) (step : StepDefinition) : SlotMoves (.acquire key) .free (.asked key step)
  | grant (key : NodePath) (step : StepDefinition) : SlotMoves (.admitted key) (.asked key step) (.holding key step false)
  | enter (key : NodePath) (step : StepDefinition) :
      SlotMoves (.enterFlight key) (.holding key step false) (.holding key step true)
  | leave (key : NodePath) (step : StepDefinition) :
      SlotMoves (.leaveFlight key) (.holding key step true) (.holding key step false)
  | release (key : NodePath) (step : StepDefinition) : SlotMoves .release (.holding key step false) .free

/-- A step is run by the part that is in flight at its key. -/
def slots : Discipline Action StepCall SlotPhase where
  moves := SlotMoves
  asks call φ := φ = .holding (staticKeyOf call.path) call.step true
  idle := .free
  busy := SlotPhase.busy
  idle_iff φ := by cases φ <;> simp [SlotPhase.busy]

def HomeOf (region : NodePath → StepDefinition → Prop) (φ : SlotPhase) : Prop :=
  ∃ key step, φ.execution = some (key, step) ∧ region key step

def ApartOf (clash : NodePath → StepDefinition → NodePath → StepDefinition → Prop) (φ ψ : SlotPhase) : Prop :=
  ∃ key step key' step', φ.execution = some (key, step) ∧ ψ.execution = some (key', step') ∧ clash key step key' step'

/-- Code that takes slots for executions of a region only, and returns every slot it takes. -/
def Slotted (clash : NodePath → StepDefinition → NodePath → StepDefinition → Prop)
    (region : NodePath → StepDefinition → Prop) (code : Code) : Prop :=
  code.Keeps slots (ApartOf clash) (HomeOf region) .free (fun _ φ => φ = .free)

variable {clash clash' : NodePath → StepDefinition → NodePath → StepDefinition → Prop}
  {region region' : NodePath → StepDefinition → Prop} {code : Code} {env : RunEnv} {parentPath : NodePath}
  {frames : List ScopeFrame} {input : Value} {reentry : Option Reentry}

theorem Slotted.mono (h : Slotted clash region code) (hr : ∀ key step, region key step → region' key step)
    (ho : ∀ key step key' step', clash key step key' step' → clash' key step key' step') : Slotted clash' region' code := by
  refine Keeps.mono h ?_ ?_ (fun _ _ => id)
  · rintro φ ψ ⟨key, step, key', step', hφ, hψ, hover⟩
    exact ⟨key, step, key', step', hφ, hψ, ho _ _ _ _ hover⟩
  · rintro φ ⟨key, step, hφ, hregion⟩
    exact ⟨key, step, hφ, hr _ _ hregion⟩

theorem slotted_conclude (outcome : ExecOutcome) : Slotted clash region (conclude outcome) := rfl

theorem slotted_raise (error : String) : Slotted clash region (raise error) := rfl

theorem slotted_emit (event : RunEvent) (h : Slotted clash region code) : Slotted clash region (emit event code) :=
  ⟨.free, .emit event .free, by simp [slots, SlotPhase.busy], h⟩

theorem slotted_store (key : NodePath) (output : Value) (h : Slotted clash region code) :
    Slotted clash region (.act (.setStepOutput key output) code) :=
  ⟨.free, .store key output .free, by simp [slots, SlotPhase.busy], h⟩

theorem slotted_emitAll (events : List RunEvent) (h : Slotted clash region code) :
    Slotted clash region (emitAll events code) := by
  induction events with
  | nil => exact h
  | cons event rest ih => exact slotted_emit event ih

theorem slotted_andThen {next : ExecOutcome → Code} (h : Slotted clash region code)
    (hn : ∀ outcome, Slotted clash region (next outcome)) : Slotted clash region (andThen code next) := by
  refine keeps_bind.mpr (Keeps.mono h (fun _ _ => id) (fun _ => id) ?_)
  rintro result φ rfl
  cases result with
  | ok outcome => exact hn outcome
  | error error => exact slotted_raise error

theorem slotted_ifOk {next : Value → Code} (h : Slotted clash region code)
    (hn : ∀ output, Slotted clash region (next output)) : Slotted clash region (ifOk code next) := by
  refine slotted_andThen h ?_
  intro outcome
  cases outcome with
  | ok output => exact hn output
  | _ => exact slotted_conclude _

theorem slotted_checkpoint (path : NodePath) (value output : Value) :
    Slotted clash region (emitNodeCompleted path value (conclude (.ok output))) :=
  slotted_emit _ (slotted_conclude _)

theorem slotted_settleConcurrent (outcomes : List ExecOutcome) (stillBlocked : List PendingBlock) {onOk : Code}
    (h : Slotted clash region onOk) : Slotted clash region (settleConcurrent outcomes stillBlocked onOk) := by
  unfold settleConcurrent
  dsimp only
  split
  · exact slotted_conclude _
  · exact slotted_emitAll _ (slotted_conclude _)
  · exact slotted_conclude _
  · exact h

theorem slotted_settleAll (results : List (Option Settlement)) {onOk : Code} (h : Slotted clash region onOk) :
    Slotted clash region (settleAll results onOk) := by
  unfold settleAll
  split
  · exact slotted_raise _
  · exact slotted_settleConcurrent _ _ h

theorem slotted_runConcurrent {tasks : List Code} {localLimit : Nat} {next : List (Option Settlement) → Code}
    (regions : Nat → NodePath → StepDefinition → Prop)
    (ht : ∀ (i : Nat) (h : i < tasks.length), Slotted clash (regions i) tasks[i])
    (hr : ∀ i < tasks.length, ∀ key step, regions i key step → region key step)
    (ho : ∀ i < tasks.length, ∀ j < tasks.length, i ≠ j → ∀ key step key' step', regions i key step →
      regions j key' step' → clash key step key' step')
    (hn : ∀ results, Slotted clash region (next results)) : Slotted clash region (runConcurrent tasks localLimit next) := by
  unfold runConcurrent
  cases tasks with
  | nil => exact hn []
  | cons first rest =>
    refine ⟨rfl, fun i => HomeOf (regions (if i < (first :: rest).length then i else 0)), ?_, ?_, ?_, hn⟩
    · rintro i hi φ ⟨key, step, hφ, hregion⟩
      rw [if_pos hi] at hregion
      exact ⟨key, step, hφ, hr i hi _ _ hregion⟩
    · rintro i hi j hj hne φ ψ ⟨key, step, hφ, hregion⟩ ⟨key', step', hψ, hregion'⟩
      rw [if_pos hi] at hregion
      rw [if_pos hj] at hregion'
      exact ⟨key, step, key', step', hφ, hψ, ho i hi j hj hne _ _ _ _ hregion hregion'⟩
    · intro i
      dsimp only
      by_cases hi : i < (first :: rest).length
      · rw [if_pos hi, List.getD_eq_getElem _ _ hi]
        exact ht i hi
      · rw [if_neg hi, List.getD_eq_default _ _ (not_lt.mp hi)]
        exact ht 0 (by simp)

section Steps

variable {key path : NodePath} {step : StepDefinition}

def Working (key : NodePath) (step : StepDefinition) (code : Code) : Prop :=
  ∀ clash region, region key step → code.Keeps slots (ApartOf clash) (HomeOf region) (.holding key step true)
    (fun _ φ => φ = .holding key step true)

theorem working_conclude (outcome : ExecOutcome) : Working key step (conclude outcome) := fun _ _ _ => rfl

theorem working_emit (event : RunEvent) (h : Working key step code) : Working key step (emit event code) :=
  fun clash region hr => ⟨_, .emit event _, fun _ => ⟨key, step, rfl, hr⟩, h clash region hr⟩

theorem working_look {next : RunMemory → Code} (h : ∀ memory, Working key step (next memory)) :
    Working key step (.look next) :=
  fun clash region hr memory => h memory clash region hr

theorem working_emitAll (events : List RunEvent) (h : Working key step code) :
    Working key step (emitAll events code) := by
  induction events with
  | nil => exact h
  | cons event rest ih => exact working_emit event ih

theorem working_finishStep (isOptional : Bool) (outcome : StepOutcome) :
    Working key step (finishStep path isOptional outcome) := by
  cases outcome with
  | ok output => exact working_emit _ (working_conclude _)
  | blocked questionnaire conversation violation elapsedMs tokensUsed => exact working_emit _ (working_conclude _)
  | crashed error =>
    cases isOptional with
    | false => exact working_conclude _
    | true => exact working_emit _ (working_conclude _)
  | cancelled source => exact working_conclude _

theorem working_runPolicies (call : StepCall) (isOptional : Bool) :
    Working (staticKeyOf call.path) call.step (runPolicies call isOptional) :=
  fun clash region hr => ⟨rfl, fun _ => working_emitAll _ (working_finishStep _ _) clash region hr⟩

theorem working_startStep (definition : StepDefinition) (input : Value) {run : Value → Code}
    (h : ∀ value, Working key step (run value)) : Working key step (startStep definition input path run) := by
  unfold startStep
  dsimp only
  split
  · exact working_conclude _
  · exact working_emit _ (h _)

theorem working_requestInteraction (ask : InteractiveStep) (stepInput : Value) :
    Working key step (requestInteraction env ask stepInput parentPath frames path) := by
  refine working_look (fun memory => ?_)
  split
  · exact working_conclude _
  · split
    · exact working_conclude _
    · split
      · exact working_conclude _
      · exact working_emit _ (working_conclude _)

theorem working_runStepFresh (step : StepDefinition) (input : Value) :
    Working (staticKeyOf path) step (runStepFresh env step input parentPath frames path) := by
  cases step with
  | questionnaire form => exact working_emit _ (working_emit _ (working_conclude _))
  | interactive ask => exact working_startStep _ _ (fun _ => working_requestInteraction _ _)
  | function work => exact working_startStep _ _ (fun _ => working_runPolicies ⟨_, _, _, _, path, _⟩ _)
  | agent work => exact working_startStep _ _ (fun _ => working_runPolicies ⟨_, _, _, _, path, _⟩ _)

theorem working_resumeInteraction (ask : InteractiveStep) (resume : InteractionResume) :
    Working key step (resumeInteraction ask path resume) := by
  unfold resumeInteraction
  split
  · exact working_conclude _
  · split
    · exact working_emit _ (working_conclude _)
    · exact working_emit _ (working_conclude _)

theorem working_runStepBody (step : StepDefinition) (input : Value) (answer : Option AnswerResume)
    (interaction : Option InteractionResume) :
    Working (staticKeyOf path) step (runStepBody env step input parentPath frames path answer interaction) := by
  unfold runStepBody
  split
  · exact working_runPolicies ⟨_, _, _, _, path, _⟩ _
  · exact working_finishStep _ _
  · split
    · exact working_resumeInteraction _ _
    · exact working_conclude _
    · exact working_runStepFresh _ _

theorem slotted_slot {next : Except String ExecOutcome → Code} (h : Working key step code) (hr : region key step)
    (hn : ∀ result, Slotted clash region (next result)) :
    Slotted clash region (.act (.acquire key) <| .act (.admitted key) <| .act (.enterFlight key) <|
      code.bind (fun result => .act (.leaveFlight key) <| .act .release <| next result)) := by
  have hhome : ∀ φ : SlotPhase, φ.execution = some (key, step) → HomeOf region φ := fun φ hφ => ⟨key, step, hφ, hr⟩
  refine ⟨_, .ask key step, fun _ => hhome _ rfl, _, .grant key step, fun _ => hhome _ rfl, _, .enter key step,
    fun _ => hhome _ rfl, keeps_bind.mpr (Keeps.mono (h clash region hr) (fun _ _ => id) (fun _ => id) ?_)⟩
  rintro result φ rfl
  exact ⟨_, .leave key step, fun _ => hhome _ rfl, _, .release key step, by simp [slots, SlotPhase.busy], hn result⟩

theorem slotted_runStepNode (hr : region (staticChildKey parentPath step.name) step) :
    Slotted clash region (runStepNode env step input parentPath frames reentry) := by
  unfold runStepNode
  simp only [staticKeyOf_appendSegment]
  have hbody : Working (staticKeyOf (appendSegment parentPath step.name)) step
      (runStepBody env step input parentPath frames (appendSegment parentPath step.name)
        (reentry.bind Reentry.answer) (reentry.bind Reentry.interaction)) := working_runStepBody _ _ _ _
  rw [staticKeyOf_appendSegment] at hbody
  exact slotted_slot hbody hr (fun _ => rfl)

end Steps

end KimchiWorkflows.Engine
