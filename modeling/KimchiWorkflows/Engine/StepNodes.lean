import KimchiWorkflows.Engine.RunContext

namespace KimchiWorkflows.Engine

open KimchiWorkflows.Flow Process

def violationOf (schema : Option Schema) (value : Value) : Option String :=
  schema.bind (fun schema => schema.violations value)

def questionnaireFor (step : QuestionnaireStep) : Questionnaire :=
  step.questionnaire.getD step.outputSchema.questionnaire

def answerQuestionnaireStep (step : QuestionnaireStep) (answers : Record) : StepOutcome :=
  let output := step.outputSchema.answersToOutput answers
  match step.outputSchema.violations output with
  | none => .ok output
  | some violation => .blocked (questionnaireFor step) [] (some violation) none none

/-- Record what a step settled with, at the point where it settled. -/
def finishStep (path : NodePath) (isOptional : Bool) : StepOutcome → Code
  | .ok output => emit (.stepCompleted path output) (conclude (.ok output))
  | .blocked questionnaire conversation violation elapsedMs tokensUsed =>
    emit (.questionnaireAsked path questionnaire conversation violation elapsedMs tokensUsed)
      (conclude (.blocked ⟨path, .questionnaire questionnaire conversation, violation⟩))
  | .crashed error =>
    if isOptional then emit (.stepFailed path error) (conclude (.ok .undefined))
    else conclude (.crashed error (some path))
  | .cancelled source => conclude (.cancelled (some path) source)

def runPolicies (call : StepCall) (isOptional : Bool) : Code :=
  .call call (fun reply =>
    emitAll (reply.notes.map (StepNote.event call.path)) (finishStep call.path isOptional reply.outcome))

def resumeInteraction (step : InteractiveStep) (path : NodePath) (resume : InteractionResume) : Code :=
  match step.requestSchema.violations resume.request with
  | some violation => conclude (.crashed ("cannot resume interaction at \"" ++ formatPath path ++
      "\": persisted request no longer satisfies its current schema (definition drift): " ++ violation)
      (some path))
  | none =>
    match step.outputSchema.violations resume.response with
    | some responseViolation =>
      let violation := "step \"" ++ step.name ++ "\" interaction response: " ++ responseViolation
      emit (.interactionRequested path resume.request (some violation))
        (conclude (.blocked ⟨path, .interaction resume.request, some violation⟩))
    | none => emit (.stepCompleted path resume.response) (conclude (.ok resume.response))

def requestInteraction (env : RunEnv) (step : InteractiveStep) (stepInput : Value)
    (parentPath : NodePath) (frames : List ScopeFrame) (path : NodePath) : Code :=
  .look (fun memory =>
    match invokeCallback ("step \"" ++ step.name ++ "\" interaction request")
        (step.buildRequest stepInput (createRunContext env memory parentPath frames path)) with
    | .error error => conclude (.crashed error (some path))
    | .ok request =>
      match step.requestSchema.violations request with
      | some violation =>
        conclude (.crashed ("step \"" ++ step.name ++ "\" interaction request: " ++ violation) (some path))
      | none =>
        match jsonValueViolation request with
        | some violation => conclude (.crashed ("step \"" ++ step.name ++
            "\" interaction request is not JSON-serializable: " ++ violation) (some path))
        | none => emit (.interactionRequested path request none)
            (conclude (.blocked ⟨path, .interaction request, none⟩)))

def blockOnQuestionnaire (step : QuestionnaireStep) (path : NodePath) : Code :=
  emit (.stepStarted path .undefined) <|
    emit (.questionnaireAsked path (questionnaireFor step) [] none none none)
      (conclude (.blocked ⟨path, .questionnaire (questionnaireFor step) [], none⟩))

/-- A fresh execution of a step that is not a form: check its input, open it, run it. -/
def startStep (step : StepDefinition) (input : Value) (path : NodePath) (run : Value → Code) : Code :=
  let stepInput := if step.inputSchema.isSome then input else .undefined
  match violationOf step.inputSchema stepInput with
  | some violation => conclude (.crashed ("step \"" ++ step.name ++ "\" input: " ++ violation) (some path))
  | none => emit (.stepStarted path stepInput) (run stepInput)

def runStepFresh (env : RunEnv) (step : StepDefinition) (input : Value) (parentPath : NodePath)
    (frames : List ScopeFrame) (path : NodePath) : Code :=
  match step with
  | .questionnaire form => blockOnQuestionnaire form path
  | .interactive ask => startStep step input path (fun stepInput =>
      requestInteraction env ask stepInput parentPath frames path)
  | .function work => startStep step input path (fun stepInput =>
      runPolicies ⟨step, stepInput, parentPath, frames, path, .fresh⟩ work.isOptional)
  | .agent work => startStep step input path (fun stepInput =>
      runPolicies ⟨step, stepInput, parentPath, frames, path, .fresh⟩ work.isOptional)

/-- The response of a re-entry goes to an interactive step; any other kind there is drift. -/
def runStepBody (env : RunEnv) (step : StepDefinition) (input : Value) (parentPath : NodePath)
    (frames : List ScopeFrame) (path : NodePath) (answer : Option AnswerResume)
    (interaction : Option InteractionResume) : Code :=
  match answer, step with
  | some resume, .agent work =>
    runPolicies ⟨step, .undefined, parentPath, frames, path, .answer resume⟩ work.isOptional
  | some resume, .questionnaire form =>
    finishStep path false (answerQuestionnaireStep form resume.answers)
  | _, _ =>
    match interaction, step with
    | some resume, .interactive ask => resumeInteraction ask path resume
    | some _, _ => conclude (.crashed ("cannot resume interaction at \"" ++ formatPath path ++
        "\": the current step is " ++ step.kind ++ " (definition drift)") (some path))
    | none, _ => runStepFresh env step input parentPath frames path

/-- Run one step to a settled outcome, holding a slot of the run and marked in flight meanwhile. -/
def runStepNode (env : RunEnv) (step : StepDefinition) (input : Value) (parentPath : NodePath)
    (frames : List ScopeFrame) (reentry : Option Reentry) : Code :=
  let path := appendSegment parentPath step.name
  let key := staticKeyOf path
  .act (.acquire key) <| .act (.admitted key) <| .act (.enterFlight key) <|
    (runStepBody env step input parentPath frames path (reentry.bind Reentry.answer)
      (reentry.bind Reentry.interaction)).bind (fun result =>
        .act (.leaveFlight key) <| .act .release <| .done result)

end KimchiWorkflows.Engine
