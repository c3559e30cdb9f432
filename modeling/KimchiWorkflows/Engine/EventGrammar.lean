import KimchiWorkflows.Engine.Confinement

/-!
The events a node can record, each under the path the engine builds for it, and code that records no others.
-/

namespace KimchiWorkflows.Engine

open KimchiWorkflows.Flow Process Process.Proc

def RunEvent.isStepEvent : RunEvent → Bool
  | .stepStarted _ _ => true
  | .stepRetry _ _ _ _ => true
  | .agentSteer _ _ _ _ _ => true
  | .agentError _ _ _ _ _ _ => true
  | .agentUsage _ _ => true
  | .stepCompleted _ _ => true
  | .stepFailed _ _ => true
  | .stepLog _ _ _ => true
  | .questionnaireAsked _ _ _ _ _ _ => true
  | .interactionRequested _ _ _ => true
  | .stepCancelled _ => true
  | _ => false

/-- Whether a failure of the step for good lets the run continue. -/
def mayFail : StepDefinition → Bool
  | .function step => step.isOptional
  | .agent step => step.isOptional
  | _ => false

/-- An event of the step under the path; only an optional step is recorded as failed. -/
structure StepEvent (path : NodePath) (mayFail : Bool) (event : RunEvent) : Prop where
  kind : event.isStepEvent = true
  subject : event.subject = some path
  failed : ∀ error, event = .stepFailed path error → mayFail = true

/-- A path inside a node that is run, and the nodes that run there. -/
inductive LiveChild (parentPath : NodePath) : WorkflowNode → NodePath → List WorkflowNode → Prop where
  | arm {name : String} {arms : List BranchArm} {arm : BranchArm} : arm ∈ arms →
      LiveChild parentPath (.branch name arms) (appendSegment parentPath arm.name) arm.body
  | iteration {name : String} {mode : LoopMode} {body : List WorkflowNode}
      {condition : RunContext → Value → Except String Bool} {maxIterations : Nat} (iteration : Nat) :
      LiveChild parentPath (.loop name mode body condition maxIterations)
        (appendLoopIteration parentPath name iteration) body
  | item {name : String} {body : List WorkflowNode} {selector : RunContext → Except String Value}
      {concurrency : Nat} {feedback : Bool} (index : Nat) :
      LiveChild parentPath (.foreach name body selector concurrency feedback)
        (appendForeachItem parentPath name index) body
  | workflow {name : String} {nodes : List WorkflowNode} :
      LiveChild parentPath (.workflow name nodes) (appendSegment parentPath name) nodes

/-- The kind a construct announces itself as; a foreach tells its items instead. -/
def announced : WorkflowNode → Option NodeKind
  | .step _ => none
  | .branch _ _ => some .branch
  | .loop _ _ _ _ _ => some .loop
  | .foreach _ _ _ _ _ => none
  | .parallel _ _ => some .parallel
  | .workflow _ _ => some .workflow

/-- The paths of a node that its run can break off at. -/
inductive BreaksAt (parentPath : NodePath) : WorkflowNode → NodePath → Prop where
  | node {node : WorkflowNode} : BreaksAt parentPath node (appendSegment parentPath (nodeName node))
  | arm {name : String} {arms : List StepDefinition} {arm : StepDefinition} : arm ∈ arms →
      BreaksAt parentPath (.parallel name arms) (appendSegment (appendSegment parentPath name) arm.name)
  | iteration {name : String} {mode : LoopMode} {body : List WorkflowNode}
      {condition : RunContext → Value → Except String Bool} {maxIterations : Nat} (iteration : Nat) :
      BreaksAt parentPath (.loop name mode body condition maxIterations) (appendLoopIteration parentPath name iteration)

/-- What a node run under a path can record, the end of the run at one of its paths included. -/
inductive Emitted : NodePath → WorkflowNode → RunEvent → Prop where
  | step {parentPath : NodePath} {step : StepDefinition} {event : RunEvent} :
      StepEvent (appendSegment parentPath step.name) (mayFail step) event → Emitted parentPath (.step step) event
  | armStep {parentPath : NodePath} {name : String} {arms : List StepDefinition} {arm : StepDefinition}
      {event : RunEvent} : arm ∈ arms →
      StepEvent (appendSegment (appendSegment parentPath name) arm.name) (mayFail arm) event →
      Emitted parentPath (.parallel name arms) event
  | opened {parentPath : NodePath} {node : WorkflowNode} {kind : NodeKind} : announced node = some kind →
      Emitted parentPath node (.nodeStarted (appendSegment parentPath (nodeName node)) kind)
  | closed {parentPath : NodePath} {node : WorkflowNode} (output : Value) : (∀ step, node ≠ .step step) →
      Emitted parentPath node (.nodeCompleted (appendSegment parentPath (nodeName node)) output)
  | armDecided {parentPath : NodePath} {name : String} {arms : List BranchArm} {arm : BranchArm} (taken : Bool) :
      arm ∈ arms → Emitted parentPath (.branch name arms) (.branchArm (appendSegment parentPath arm.name) taken)
  | armClosed {parentPath : NodePath} {name : String} {arms : List BranchArm} {arm : BranchArm} (output : Value) :
      arm ∈ arms →
      Emitted parentPath (.branch name arms) (.nodeCompleted (appendSegment parentPath arm.name) output)
  | iterated {parentPath : NodePath} {name : String} {mode : LoopMode} {body : List WorkflowNode}
      {condition : RunContext → Value → Except String Bool} {maxIterations : Nat} (iteration : Nat) :
      Emitted parentPath (.loop name mode body condition maxIterations)
        (.loopIteration (appendLoopIteration parentPath name iteration) iteration)
  | selected {parentPath : NodePath} {name : String} {body : List WorkflowNode}
      {selector : RunContext → Except String Value} {concurrency : Nat} {feedback : Bool} (count : Nat) :
      Emitted parentPath (.foreach name body selector concurrency feedback)
        (.foreachStarted (appendSegment parentPath name) count)
  | itemStarted {parentPath : NodePath} {name : String} {body : List WorkflowNode}
      {selector : RunContext → Except String Value} {concurrency : Nat} {feedback : Bool} (index : Nat) :
      Emitted parentPath (.foreach name body selector concurrency feedback)
        (.foreachItemStarted (appendForeachItem parentPath name index) index)
  | itemCompleted {parentPath : NodePath} {name : String} {body : List WorkflowNode}
      {selector : RunContext → Except String Value} {concurrency : Nat} {feedback : Bool} (index : Nat)
      (output : Value) : Emitted parentPath (.foreach name body selector concurrency feedback)
        (.foreachItemCompleted (appendForeachItem parentPath name index) index output)
  | crashed {parentPath path : NodePath} {node : WorkflowNode} (error : String) : BreaksAt parentPath node path →
      Emitted parentPath node (.runCrashed (some path) error)
  | cancelled {parentPath path : NodePath} {node : WorkflowNode} (source : Option CancelSource) :
      BreaksAt parentPath node path → Emitted parentPath node (.runCancelled (some path) source)
  | inside {parentPath inner : NodePath} {node child : WorkflowNode} {body : List WorkflowNode} {event : RunEvent} :
      LiveChild parentPath node inner body → child ∈ body → Emitted inner child event → Emitted parentPath node event

/-- What an outcome other than success may lead to later on is allowed too. -/
def MayEnd (allowed : RunEvent → Prop) : ExecOutcome → Prop
  | .blocked block => allowed (.stepCancelled block.path)
  | .crashed error (some path) => allowed (.runCrashed (some path) error)
  | .cancelled (some path) source => allowed (.runCancelled (some path) (some (source.getD .engine)))
  | _ => True

/-- Code that records allowed events only, and settles only with outcomes that may be recorded. -/
def Records (allowed : RunEvent → Prop) (code : Code) : Prop :=
  code.Only (fun action => ∀ event, action = .emit event → allowed event)
    (fun result => ∀ outcome, result = .ok outcome → MayEnd allowed outcome)

variable {env : RunEnv} {allowed allowed' : RunEvent → Prop} {code : Code} {parentPath : NodePath}
  {frames : List ScopeFrame} {input : Value} {reentry : Option Reentry}

theorem MayEnd.mono {outcome : ExecOutcome} (h : MayEnd allowed outcome) (ha : ∀ event, allowed event → allowed' event) :
    MayEnd allowed' outcome := by
  unfold MayEnd at h ⊢
  split
  · exact ha _ h
  · exact ha _ h
  · exact ha _ h
  · trivial

theorem Records.mono (h : Records allowed code) (ha : ∀ event, allowed event → allowed' event) :
    Records allowed' code :=
  only_mono h (fun _ hact event he => ha event (hact event he)) (fun _ hres outcome ho => (hres outcome ho).mono ha)

theorem records_conclude {outcome : ExecOutcome} (h : MayEnd allowed outcome) : Records allowed (conclude outcome) := by
  intro other ho
  obtain rfl := Except.ok.inj ho
  exact h

theorem records_raise (error : String) : Records allowed (raise error) := by
  intro outcome ho
  cases ho

theorem records_emit {event : RunEvent} (he : allowed event) (h : Records allowed code) :
    Records allowed (emit event code) := by
  refine ⟨?_, h⟩
  rintro other ho
  cases ho
  exact he

theorem records_act {action : Action} (ha : ∀ event, action ≠ .emit event) (h : Records allowed code) :
    Records allowed (.act action code) :=
  ⟨fun event he => absurd he (ha event), h⟩

theorem records_emitAll {events : List RunEvent} (he : ∀ event ∈ events, allowed event)
    (h : Records allowed code) : Records allowed (emitAll events code) := by
  induction events with
  | nil => exact h
  | cons event rest ih =>
    exact records_emit (he event List.mem_cons_self) (ih (fun e hm => he e (List.mem_cons_of_mem _ hm)))

theorem records_opening {event : RunEvent} {reentered : Bool} (he : allowed event) (h : Records allowed code) :
    Records allowed (emitAll (if reentered then [] else [event]) code) := by
  refine records_emitAll ?_ h
  intro other hm
  split_ifs at hm
  · cases hm
  · rw [List.mem_singleton.mp hm]
    exact he

theorem records_andThen {next : ExecOutcome → Code} (h : Records allowed code)
    (hn : ∀ outcome, MayEnd allowed outcome → Records allowed (next outcome)) :
    Records allowed (andThen code next) := by
  refine only_bind h ?_
  intro result hres
  cases result with
  | ok outcome => exact hn outcome (hres outcome rfl)
  | error error => exact records_raise error

theorem records_ifOk {next : Value → Code} (h : Records allowed code)
    (hn : ∀ output, Records allowed (next output)) : Records allowed (ifOk code next) := by
  refine records_andThen h ?_
  intro outcome ho
  cases outcome with
  | ok output => exact hn output
  | _ => exact records_conclude ho

theorem records_checkpoint {path : NodePath} {value : Value} (h : allowed (.nodeCompleted path value))
    (output : Value) : Records allowed (emitNodeCompleted path value (conclude (.ok output))) :=
  records_emit h (records_conclude trivial)

theorem records_settleConcurrent {outcomes : List ExecOutcome} {stillBlocked : List PendingBlock} {onOk : Code}
    (ho : ∀ outcome ∈ outcomes, MayEnd allowed outcome)
    (hs : ∀ block ∈ stillBlocked, allowed (.stepCancelled block.path)) (h : Records allowed onOk) :
    Records allowed (settleConcurrent outcomes stillBlocked onOk) := by
  have hwaiting : ∀ block ∈ outcomes.filterMap ExecOutcome.block? ++ stillBlocked,
      allowed (.stepCancelled block.path) := by
    intro block hm
    obtain hm | hm := List.mem_append.mp hm
    · obtain ⟨outcome, hmem, hb⟩ := List.mem_filterMap.mp hm
      cases outcome with
      | blocked other =>
        cases hb
        exact ho _ hmem
      | _ => cases hb
    · exact hs block hm
  unfold settleConcurrent
  dsimp only
  split
  · rename_i cancelled hc
    exact records_conclude (ho _ (List.mem_of_find?_eq_some hc))
  · rename_i crashed hc
    refine records_emitAll ?_ (records_conclude (ho _ (List.mem_of_find?_eq_some hc)))
    intro event he
    obtain ⟨block, hb, rfl⟩ := List.mem_map.mp he
    exact hwaiting block hb
  · rename_i hw
    refine records_conclude (hwaiting _ ?_)
    rw [hw]
    exact List.mem_cons_self
  · exact h

theorem records_pool {tasks : List Code} {localLimit : Nat} {onOk : List (Option Settlement) → Code}
    (ht : ∀ task ∈ tasks, Records allowed task) (h : ∀ results, Records allowed (onOk results)) :
    Records allowed (runConcurrent tasks localLimit (fun results => settleAll results (onOk results))) := by
  have hjoin : ∀ results : List (Option Settlement), (∀ result, some result ∈ results →
      ∀ outcome, result = .ok outcome → MayEnd allowed outcome) → Records allowed (settleAll results (onOk results)) := by
    intro results hres
    unfold settleAll
    split
    · exact records_raise _
    · rename_i outcomes ho
      refine records_settleConcurrent ?_ (by simp) (h results)
      intro outcome hm
      exact hres _ (mem_of_collectOutcomes ho _ hm) outcome rfl
  cases tasks with
  | nil => exact hjoin [] (by simp)
  | cons first rest =>
    refine ⟨_, ?_, ?_, hjoin⟩
    · intro i
      show Records allowed ((first :: rest).getD i first)
      rw [List.getD_eq_getElem?_getD]
      cases hi : (first :: rest)[i]? with
      | none => exact ht first List.mem_cons_self
      | some task => exact ht task (List.mem_of_getElem? hi)
    · intro i result hl
      dsimp only at hl
      split at hl <;> cases hl

section Steps

structure AllowsStep (allowed : RunEvent → Prop) (path : NodePath) (step : StepDefinition) : Prop where
  event : ∀ event, StepEvent path (mayFail step) event → allowed event
  crashed : ∀ error, allowed (.runCrashed (some path) error)
  cancelled : ∀ source, allowed (.runCancelled (some path) source)

variable {path : NodePath} {step : StepDefinition} (ha : AllowsStep allowed path step)

include ha

theorem allowed_stepEvent {event : RunEvent} (hk : event.isStepEvent = true) (hs : event.subject = some path)
    (hf : ∀ error, event ≠ .stepFailed path error) : allowed event :=
  ha.event event ⟨hk, hs, fun error he => absurd he (hf error)⟩

theorem records_asked {event : RunEvent} {block : PendingBlock} (hb : event.block? = some block)
    (hpath : block.path = path) : Records allowed (emit event (conclude (.blocked block))) := by
  subst hpath
  refine records_emit ?_ (records_conclude ?_)
  · cases event <;> simp only [RunEvent.block?, reduceCtorEq, Option.some.injEq] at hb <;> subst hb <;>
      exact allowed_stepEvent ha rfl rfl (by simp)
  · exact allowed_stepEvent ha rfl rfl (by simp)

theorem records_finishStep {isOptional : Bool} (hf : isOptional = true → mayFail step = true)
    (outcome : StepOutcome) : Records allowed (finishStep path isOptional outcome) := by
  cases outcome with
  | ok output => exact records_emit (allowed_stepEvent ha rfl rfl (by simp)) (records_conclude trivial)
  | blocked questionnaire conversation violation elapsedMs tokensUsed => exact records_asked ha rfl rfl
  | crashed error =>
    cases isOptional with
    | false => exact records_conclude (ha.crashed error)
    | true => exact records_emit (ha.event _ ⟨rfl, rfl, fun _ _ => hf rfl⟩) (records_conclude trivial)
  | cancelled source => exact records_conclude (ha.cancelled _)

theorem records_runPolicies (call : StepCall) (hp : call.path = path) {isOptional : Bool}
    (hf : isOptional = true → mayFail step = true) : Records allowed (runPolicies call isOptional) := by
  subst hp
  intro reply
  refine records_emitAll ?_ (records_finishStep ha hf reply.outcome)
  intro event he
  obtain ⟨note, -, rfl⟩ := List.mem_map.mp he
  cases note <;> exact allowed_stepEvent ha rfl rfl (by simp [StepNote.event])

theorem records_startStep {definition : StepDefinition} {run : Value → Code}
    (h : ∀ value, Records allowed (run value)) : Records allowed (startStep definition input path run) := by
  unfold startStep
  dsimp only
  split
  · exact records_conclude (ha.crashed _)
  · exact records_emit (allowed_stepEvent ha rfl rfl (by simp)) (h _)

theorem records_requestInteraction (ask : InteractiveStep) (stepInput : Value) :
    Records allowed (requestInteraction env ask stepInput parentPath frames path) := by
  intro memory
  dsimp only
  split
  · exact records_conclude (ha.crashed _)
  · split
    · exact records_conclude (ha.crashed _)
    · split
      · exact records_conclude (ha.crashed _)
      · exact records_asked ha rfl rfl

theorem records_runStepFresh : Records allowed (runStepFresh env step input parentPath frames path) := by
  cases step with
  | questionnaire form =>
    exact records_emit (allowed_stepEvent ha rfl rfl (by simp)) (records_asked ha rfl rfl)
  | interactive ask => exact records_startStep ha (fun _ => records_requestInteraction ha _ _)
  | function work => exact records_startStep ha (fun _ => records_runPolicies ha ⟨_, _, _, _, path, _⟩ rfl id)
  | agent work => exact records_startStep ha (fun _ => records_runPolicies ha ⟨_, _, _, _, path, _⟩ rfl id)

theorem records_resumeInteraction (ask : InteractiveStep) (resume : InteractionResume) :
    Records allowed (resumeInteraction ask path resume) := by
  unfold resumeInteraction
  split
  · exact records_conclude (ha.crashed _)
  · split
    · exact records_asked ha rfl rfl
    · exact records_emit (allowed_stepEvent ha rfl rfl (by simp)) (records_conclude trivial)

theorem records_runStepBody (answer : Option AnswerResume) (interaction : Option InteractionResume) :
    Records allowed (runStepBody env step input parentPath frames path answer interaction) := by
  unfold runStepBody
  split
  · exact records_runPolicies ha ⟨_, _, _, _, path, _⟩ rfl id
  · exact records_finishStep ha (by simp) _
  · split
    · exact records_resumeInteraction ha _ _
    · exact records_conclude (ha.crashed _)
    · exact records_runStepFresh ha

end Steps

theorem records_runStepNode {step : StepDefinition} (ha : AllowsStep allowed (appendSegment parentPath step.name) step) :
    Records allowed (runStepNode env step input parentPath frames reentry) := by
  refine records_act (by simp) (records_act (by simp) (records_act (by simp) ?_))
  refine only_bind (records_runStepBody ha _ _) ?_
  intro result hres
  exact records_act (by simp) (records_act (by simp) hres)

end KimchiWorkflows.Engine
