import KimchiWorkflows.Engine.Effects

namespace KimchiWorkflows.Engine

open KimchiWorkflows.Flow Process Process.Proc

/-- The events of one execution of the step at a path: its work, then the event it settles with. -/
inductive StepRun (path : NodePath) : List RunEvent → ExecOutcome → Prop where
  | completed (work : List RunEvent) (output : Value) : (∀ e ∈ work, e.work = some path) →
      StepRun path (work ++ [.stepCompleted path output]) (.ok output)
  | failed (work : List RunEvent) (error : String) : (∀ e ∈ work, e.work = some path) →
      StepRun path (work ++ [.stepFailed path error]) (.ok .undefined)
  | asked (work : List RunEvent) (event : RunEvent) (block : PendingBlock) :
      (∀ e ∈ work, e.work = some path) → event.block? = some block → block.path = path →
      StepRun path (work ++ [event]) (.blocked block)
  | crashed (work : List RunEvent) (error : String) : (∀ e ∈ work, e.work = some path) →
      StepRun path work (.crashed error (some path))
  | cancelled (work : List RunEvent) (source : Option CancelSource) :
      (∀ e ∈ work, e.work = some path) → StepRun path work (.cancelled (some path) source)

variable {env : RunEnv} {path parentPath : NodePath} {frames : List ScopeFrame} {effects : List Effect}
  {outcome : ExecOutcome}

theorem StepRun.cons {events : List RunEvent} (h : StepRun path events outcome) {event : RunEvent}
    (he : event.work = some path) : StepRun path (event :: events) outcome := by
  cases h with
  | completed work output hw => exact .completed (event :: work) output (by simpa [he] using hw)
  | failed work error hw => exact .failed (event :: work) error (by simpa [he] using hw)
  | asked work last block hw hb hp => exact .asked (event :: work) last block (by simpa [he] using hw) hb hp
  | crashed work error hw => exact .crashed _ error (by simpa [he] using hw)
  | cancelled work source hw => exact .cancelled _ source (by simpa [he] using hw)

theorem StepRun.append {events work : List RunEvent} (h : StepRun path events outcome)
    (hw : ∀ e ∈ work, e.work = some path) : StepRun path (work ++ events) outcome := by
  induction work with
  | nil => exact h
  | cons event work ih =>
    exact (ih (fun e he => hw e (List.mem_cons_of_mem _ he))).cons (hw event List.mem_cons_self)

/-- The code of a step: every run of it is an execution of the step at the path. -/
def RunsStep (path : NodePath) (code : Code) : Prop :=
  ∀ effects outcome, Emits code effects outcome →
    ∃ events, effects = events.map Effect.recorded ∧ StepRun path events outcome

theorem runsStep_crash (error : String) : RunsStep path (conclude (.crashed error (some path))) := by
  intro effects outcome h
  obtain ⟨rfl, rfl⟩ := emits_conclude h
  exact ⟨[], rfl, .crashed [] error (by simp)⟩

theorem runsStep_completed (output : Value) :
    RunsStep path (emit (.stepCompleted path output) (conclude (.ok output))) := by
  intro effects outcome h
  obtain ⟨rest, rfl, hr⟩ := emits_emit h
  obtain ⟨rfl, rfl⟩ := emits_conclude hr
  exact ⟨[_], rfl, .completed [] output (by simp)⟩

theorem runsStep_asked {event : RunEvent} {block : PendingBlock} (hb : event.block? = some block)
    (hp : block.path = path) : RunsStep path (emit event (conclude (.blocked block))) := by
  intro effects outcome h
  obtain ⟨rest, rfl, hr⟩ := emits_emit h
  obtain ⟨rfl, rfl⟩ := emits_conclude hr
  exact ⟨[_], rfl, .asked [] event block (by simp) hb hp⟩

theorem runsStep_emit {event : RunEvent} (he : event.work = some path) {code : Code}
    (hc : RunsStep path code) : RunsStep path (emit event code) := by
  intro effects outcome h
  obtain ⟨rest, rfl, hr⟩ := emits_emit h
  obtain ⟨events, rfl, hs⟩ := hc _ _ hr
  exact ⟨event :: events, rfl, hs.cons he⟩

theorem runsStep_finishStep (isOptional : Bool) (o : StepOutcome) :
    RunsStep path (finishStep path isOptional o) := by
  cases o with
  | ok output => exact runsStep_completed output
  | blocked questionnaire conversation violation elapsedMs tokensUsed => exact runsStep_asked rfl rfl
  | crashed error =>
    cases isOptional with
    | false => exact runsStep_crash error
    | true =>
      intro effects outcome h
      obtain ⟨rest, rfl, hr⟩ := emits_emit h
      obtain ⟨rfl, rfl⟩ := emits_conclude hr
      exact ⟨[_], rfl, .failed [] error (by simp)⟩
  | cancelled source =>
    intro effects outcome h
    obtain ⟨rfl, rfl⟩ := emits_conclude h
    exact ⟨[], rfl, .cancelled [] source (by simp)⟩

theorem work_note (path : NodePath) (note : StepNote) : (note.event path).work = some path := by
  cases note <;> rfl

theorem runsStep_runPolicies (call : StepCall) (isOptional : Bool) :
    RunsStep call.path (runPolicies call isOptional) := by
  intro effects outcome h
  obtain ⟨reply, hr⟩ := emits_call h
  obtain ⟨rest, rfl, hf⟩ := emits_emitAll hr
  obtain ⟨events, rfl, hs⟩ := runsStep_finishStep isOptional reply.outcome _ _ hf
  refine ⟨reply.notes.map (StepNote.event call.path) ++ events, by simp, hs.append ?_⟩
  intro e he
  obtain ⟨note, -, rfl⟩ := List.mem_map.mp he
  exact work_note _ note

theorem runsStep_resumeInteraction (step : InteractiveStep) (resume : InteractionResume) :
    RunsStep path (resumeInteraction step path resume) := by
  unfold resumeInteraction
  split
  · exact runsStep_crash _
  · split
    · exact runsStep_asked rfl rfl
    · exact runsStep_completed _

theorem runsStep_requestInteraction (step : InteractiveStep) (stepInput : Value) :
    RunsStep path (requestInteraction env step stepInput parentPath frames path) := by
  intro effects outcome h
  obtain ⟨memory, hm⟩ := emits_look h
  split at hm
  · exact runsStep_crash _ _ _ hm
  · split at hm
    · exact runsStep_crash _ _ _ hm
    · split at hm
      · exact runsStep_crash _ _ _ hm
      · exact runsStep_asked rfl rfl _ _ hm

theorem runsStep_startStep (step : StepDefinition) (input : Value) {run : Value → Code}
    (hr : ∀ v, RunsStep path (run v)) : RunsStep path (startStep step input path run) := by
  unfold startStep
  dsimp only
  split
  · exact runsStep_crash _
  · exact runsStep_emit rfl (hr _)

theorem runsStep_runStepFresh (step : StepDefinition) (input : Value) :
    RunsStep path (runStepFresh env step input parentPath frames path) := by
  cases step with
  | questionnaire form => exact runsStep_emit rfl (runsStep_asked rfl rfl)
  | interactive ask => exact runsStep_startStep _ _ (fun _ => runsStep_requestInteraction _ _)
  | function work => exact runsStep_startStep _ _ (fun _ => runsStep_runPolicies ⟨_, _, _, _, path, _⟩ _)
  | agent work => exact runsStep_startStep _ _ (fun _ => runsStep_runPolicies ⟨_, _, _, _, path, _⟩ _)

theorem runsStep_runStepBody (step : StepDefinition) (input : Value) (answer : Option AnswerResume)
    (interaction : Option InteractionResume) :
    RunsStep path (runStepBody env step input parentPath frames path answer interaction) := by
  unfold runStepBody
  split
  · exact runsStep_runPolicies ⟨_, _, _, _, path, _⟩ _
  · exact runsStep_finishStep _ _
  · split
    · exact runsStep_resumeInteraction _ _
    · exact runsStep_crash _
    · exact runsStep_runStepFresh _ _

theorem runsStep_runStepNode (step : StepDefinition) (input : Value) (reentry : Option Reentry) :
    RunsStep (appendSegment parentPath step.name)
      (runStepNode env step input parentPath frames reentry) := by
  intro effects outcome h
  have hbody := emits_silent rfl (emits_silent rfl (emits_silent rfl h))
  obtain ⟨first, rest, result, rfl, hfirst, hrest⟩ := emits_bind hbody
  obtain ⟨t, ht, hnil⟩ := emits_silent rfl (emits_silent rfl hrest)
  obtain ⟨rfl, rfl⟩ := traces_done ht
  obtain ⟨events, rfl, hs⟩ := runsStep_runStepBody step input _ _ _ _ hfirst
  exact ⟨events, by simp [← hnil, effectsOf], hs⟩

end KimchiWorkflows.Engine
