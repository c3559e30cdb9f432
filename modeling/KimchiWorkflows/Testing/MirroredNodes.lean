import Mathlib.Data.List.GetD
import KimchiWorkflows.Lib.Mirroring
import KimchiWorkflows.Engine.EventGrammar
import KimchiWorkflows.Testing.StepOverride

/-!
A step and its override run alike until an optional step that is overridden fails for good; what does not run
steps runs the same.
-/

namespace KimchiWorkflows.Testing

open KimchiWorkflows.Flow KimchiWorkflows.Engine Process Process.Proc

/-- The override found for the step, if one is, is the step's own function; one that nobody gave loses nothing. -/
def Suits (overrides : StepOverrides) (step : StepDefinition) : Prop :=
  ∀ run, findOverride overrides step.name = some run → ∃ work : FunctionStep, step = .function work ∧ work.run = run ∧
    (Dict.get overrides step.name = none → work.isOptional = false)

def Loses (overrides : StepOverrides) (step : StepDefinition) : Prop :=
  mayFail step = true ∧ (findOverride overrides step.name).isSome

def StepOutcome.hasCrashed : StepOutcome → Bool
  | .crashed _ => true
  | _ => false

def Addressed (step : StepDefinition) (path : NodePath) : Prop :=
  ∃ parentPath, path = appendSegment parentPath step.name

def overriding (overrides : StepOverrides) : Mirroring Action StepCall StepReply where
  rename call := { call with step := rewriteStep overrides call.step }
  alike call := Suits overrides call.step ∧ Addressed call.step call.path
  fair call reply := Loses overrides call.step → StepOutcome.hasCrashed reply.outcome = false
  tells call action := ∃ error, action = .emit (.stepFailed call.path error)
  free action := ∃ event, action = .emit event

variable {overrides : StepOverrides} {env : RunEnv} {parentPath path : NodePath} {frames : List ScopeFrame}
  {input : Value} {reentry : Option Reentry}

abbrev Mirrored (overrides : StepOverrides) (code code' : Code) : Prop := Mirrors (overriding overrides) code code'

theorem mirrored_conclude (outcome : ExecOutcome) : Mirrored overrides (conclude outcome) (conclude outcome) := .done _

theorem mirrored_raise (error : String) : Mirrored overrides (raise error) (raise error) := .done _

theorem mirrored_emit (event : RunEvent) {code code' : Code} (h : Mirrored overrides code code') :
    Mirrored overrides (emit event code) (emit event code') := .act _ h

theorem mirrored_emitAll (events : List RunEvent) {code code' : Code} (h : Mirrored overrides code code') :
    Mirrored overrides (emitAll events code) (emitAll events code') := by
  induction events with
  | nil => exact h
  | cons event rest ih => exact mirrored_emit event ih

theorem mirrored_andThen {code code' : Code} {next next' : ExecOutcome → Code} (h : Mirrored overrides code code')
    (hn : ∀ outcome, Mirrored overrides (next outcome) (next' outcome)) :
    Mirrored overrides (andThen code next) (andThen code' next') := by
  refine mirrors_bind h ?_
  intro result
  cases result with
  | ok outcome => exact hn outcome
  | error error => exact mirrored_raise error

theorem mirrored_ifOk {code code' : Code} {next next' : Value → Code} (h : Mirrored overrides code code')
    (hn : ∀ output, Mirrored overrides (next output) (next' output)) :
    Mirrored overrides (ifOk code next) (ifOk code' next') := by
  refine mirrored_andThen h ?_
  intro outcome
  cases outcome with
  | ok output => exact hn output
  | _ => exact mirrored_conclude _

theorem mirrored_settleConcurrent (outcomes : List ExecOutcome) (stillBlocked : List PendingBlock) {onOk onOk' : Code}
    (h : Mirrored overrides onOk onOk') :
    Mirrored overrides (settleConcurrent outcomes stillBlocked onOk) (settleConcurrent outcomes stillBlocked onOk') := by
  unfold settleConcurrent
  dsimp only
  split
  · exact mirrored_conclude _
  · exact mirrored_emitAll _ (mirrored_conclude _)
  · exact mirrored_conclude _
  · exact h

theorem mirrored_settleAll (results : List (Option Settlement)) {onOk onOk' : Code} (h : Mirrored overrides onOk onOk') :
    Mirrored overrides (settleAll results onOk) (settleAll results onOk') := by
  unfold settleAll
  split
  · exact mirrored_raise _
  · exact mirrored_settleConcurrent _ _ h

theorem mirrored_runConcurrent {tasks tasks' : List Code} (localLimit : Nat) {next next' : List (Option Settlement) → Code}
    (ht : List.Forall₂ (Mirrored overrides) tasks tasks') (hn : ∀ results, Mirrored overrides (next results) (next' results)) :
    Mirrored overrides (runConcurrent tasks localLimit next) (runConcurrent tasks' localLimit next') := by
  have hlength := ht.length_eq
  cases ht with
  | nil => exact hn []
  | @cons first first' rest rest' hfirst hrest =>
    have hall : List.Forall₂ (Mirrored overrides) (first :: rest) (first' :: rest') := .cons hfirst hrest
    simp only [runConcurrent]
    rw [hlength]
    refine .fork ?_ hn
    intro i
    by_cases hi : i < (first :: rest).length
    · rw [List.getD_eq_getElem _ _ hi, List.getD_eq_getElem _ _ (hlength ▸ hi)]
      exact List.Forall₂.get hall hi (hlength ▸ hi)
    · rw [List.getD_eq_default _ _ (by omega), List.getD_eq_default _ _ (by omega)]
      exact hfirst

section Steps

theorem mayFail_rewriteStep (step : StepDefinition) : mayFail (rewriteStep overrides step) =
    if (findOverride overrides step.name).isSome then false else mayFail step := by
  unfold rewriteStep
  cases findOverride overrides step.name <;> rfl

theorem mirrored_finishStep (path : NodePath) (isOptional : Bool) (outcome : StepOutcome) :
    Mirrored overrides (finishStep path isOptional outcome) (finishStep path isOptional outcome) := by
  cases outcome with
  | ok output => exact mirrored_emit _ (mirrored_conclude _)
  | blocked questionnaire conversation violation elapsedMs tokensUsed => exact mirrored_emit _ (mirrored_conclude _)
  | crashed error =>
    simp only [finishStep]
    split
    · exact mirrored_emit _ (mirrored_conclude _)
    · exact mirrored_conclude _
  | cancelled source => exact mirrored_conclude _

theorem finishStep_of_not_crashed (path : NodePath) (first last : Bool) {outcome : StepOutcome}
    (h : StepOutcome.hasCrashed outcome = false) : finishStep path first outcome = finishStep path last outcome := by
  cases outcome with
  | crashed error => cases h
  | _ => rfl

theorem mirrored_runPolicies (call : StepCall) (hs : Suits overrides call.step ∧ Addressed call.step call.path) :
    Mirrored overrides (runPolicies call (mayFail call.step))
      (runPolicies { call with step := rewriteStep overrides call.step } (mayFail (rewriteStep overrides call.step))) := by
  refine .call hs ?_ ?_
  · intro reply hfair
    refine mirrored_emitAll _ ?_
    rw [mayFail_rewriteStep]
    split_ifs with hfound
    · cases hmay : mayFail call.step with
      | false => exact mirrored_finishStep _ _ _
      | true =>
        rw [finishStep_of_not_crashed call.path true false (hfair ⟨hmay, hfound⟩)]
        exact mirrored_finishStep _ _ _
    · exact mirrored_finishStep _ _ _
  · intro reply hunfair
    simp only [overriding, Classical.not_imp, Bool.not_eq_false] at hunfair
    obtain ⟨⟨hmay, -⟩, hcrashed⟩ := hunfair
    cases ho : reply.outcome with
    | crashed error =>
      rw [hmay]
      generalize reply.notes.map (StepNote.event call.path) = notes
      induction notes with
      | nil => exact .now _ ⟨error, rfl⟩ ⟨_, rfl⟩
      | cons note rest ih => exact .later ⟨_, rfl⟩ ih
    | _ => rw [ho] at hcrashed; cases hcrashed

theorem mirrored_startStep {step step' : StepDefinition} (hname : step'.name = step.name)
    (hschema : step'.inputSchema = step.inputSchema) {run run' : Value → Code}
    (h : ∀ value, Mirrored overrides (run value) (run' value)) :
    Mirrored overrides (startStep step input path run) (startStep step' input path run') := by
  unfold startStep
  rw [hname, hschema]
  dsimp only
  split
  · exact mirrored_conclude _
  · exact mirrored_emit _ (h _)

theorem mirrored_requestInteraction (ask : InteractiveStep) (stepInput : Value) :
    Mirrored overrides (requestInteraction env ask stepInput parentPath frames path)
      (requestInteraction env ask stepInput parentPath frames path) := by
  refine .look (fun memory => ?_)
  split
  · exact mirrored_conclude _
  · split
    · exact mirrored_conclude _
    · split
      · exact mirrored_conclude _
      · exact mirrored_emit _ (mirrored_conclude _)

theorem mirrored_resumeInteraction (ask : InteractiveStep) (resume : InteractionResume) :
    Mirrored overrides (resumeInteraction ask path resume) (resumeInteraction ask path resume) := by
  unfold resumeInteraction
  split
  · exact mirrored_conclude _
  · split
    · exact mirrored_emit _ (mirrored_conclude _)
    · exact mirrored_emit _ (mirrored_conclude _)

theorem mirrored_runStepFresh {step : StepDefinition} (hs : Suits overrides step) (hp : Addressed step path) :
    Mirrored overrides (runStepFresh env step input parentPath frames path)
      (runStepFresh env (rewriteStep overrides step) input parentPath frames path) := by
  have hpolicies := fun stepInput => mirrored_runPolicies ⟨step, stepInput, parentPath, frames, path, .fresh⟩ ⟨hs, hp⟩
  cases hfound : findOverride overrides step.name with
  | none =>
    have hsame : rewriteStep overrides step = step := by rw [rewriteStep, hfound]
    simp only [hsame] at hpolicies ⊢
    cases step with
    | questionnaire form => exact mirrored_emit _ (mirrored_emit _ (mirrored_conclude _))
    | interactive ask => exact mirrored_startStep rfl rfl (fun _ => mirrored_requestInteraction _ _)
    | function work => exact mirrored_startStep rfl rfl hpolicies
    | agent work => exact mirrored_startStep rfl rfl hpolicies
  | some run =>
    obtain ⟨work, rfl, -⟩ := hs run hfound
    have hfunction : rewriteStep overrides (.function work) = .function (asFunctionStep (.function work) run) := by
      rw [rewriteStep, hfound]
    simp only [hfunction] at hpolicies ⊢
    exact mirrored_startStep rfl rfl hpolicies

theorem mirrored_runStepBody {step : StepDefinition} (hs : Suits overrides step) (hp : Addressed step path)
    (answer : Option AnswerResume) (interaction : Option InteractionResume) :
    Mirrored overrides (runStepBody env step input parentPath frames path answer interaction)
      (runStepBody env (rewriteStep overrides step) input parentPath frames path answer interaction) := by
  have hfresh : Mirrored overrides (runStepFresh env step input parentPath frames path) _ := mirrored_runStepFresh hs hp
  cases hfound : findOverride overrides step.name with
  | none =>
    have hpolicies := fun resume =>
      mirrored_runPolicies ⟨step, .undefined, parentPath, frames, path, .answer resume⟩ ⟨hs, hp⟩
    have hsame : rewriteStep overrides step = step := by rw [rewriteStep, hfound]
    simp only [hsame] at hpolicies hfresh ⊢
    unfold runStepBody
    split
    · exact hpolicies _
    · exact mirrored_finishStep _ _ _
    · split
      · exact mirrored_resumeInteraction _ _
      · exact mirrored_conclude _
      · exact hfresh
  | some run =>
    obtain ⟨work, rfl, -⟩ := hs run hfound
    have hfunction : rewriteStep overrides (.function work) = .function (asFunctionStep (.function work) run) := by
      rw [rewriteStep, hfound]
    rw [hfunction] at hfresh ⊢
    cases answer <;> cases interaction <;> first | exact hfresh | exact mirrored_conclude _

theorem mirrored_runStepNode {step : StepDefinition} (hs : Suits overrides step) :
    Mirrored overrides (runStepNode env step input parentPath frames reentry)
      (runStepNode env (rewriteStep overrides step) input parentPath frames reentry) := by
  unfold runStepNode
  rw [name_rewriteStep]
  refine .act _ (.act _ (.act _ (mirrors_bind (mirrored_runStepBody hs ⟨parentPath, rfl⟩ _ _) ?_)))
  exact fun result => .act _ (.act _ (.done _))

end Steps

end KimchiWorkflows.Testing
