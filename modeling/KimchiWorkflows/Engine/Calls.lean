import KimchiWorkflows.Engine.Effects
import KimchiWorkflows.Engine.ResumeWorkflow

/-!
The calls of one run: each is launched on the log so far and appends to it what its code records.
-/

namespace KimchiWorkflows.Engine

open KimchiWorkflows.Flow Process Scheduling

/-- Some schedule and some step replies let the call return with the outcome, its log then `log'`. -/
def Returns (workflow : WorkflowDefinition) (call : EngineCall) (log log' : List RunEvent)
    (outcome : ExecOutcome) : Prop :=
  ∃ launched t memory, launch workflow log call = .ok launched ∧
    Executes (engineWorld workflow) launched.code (launched.memory log) t (.ok outcome) memory ∧
    memory.log = log'

/-- One call under the schedule that always moves the first lane it can, with the replies in line. -/
def attempt (workflow : WorkflowDefinition) (call : EngineCall) (log : List RunEvent)
    (replies : List StepReply) (fuel : Nat) : Option (Settlement × List RunEvent) :=
  match launch workflow log call with
  | .error _ => none
  | .ok launched =>
    (drive (engineWorld workflow) fuel launched.code replies (launched.memory log)).map
      (fun finished => (finished.1, finished.2.2.log))

theorem returns_of_attempt {workflow : WorkflowDefinition} {call : EngineCall} {log log' : List RunEvent}
    {outcome : ExecOutcome} (replies : List StepReply) (fuel : Nat)
    (h : attempt workflow call log replies fuel = some (.ok outcome, log')) :
    Returns workflow call log log' outcome := by
  unfold attempt at h
  split at h
  · cases h
  · rename_i launched hl
    obtain ⟨⟨r, rs, memory⟩, hd, he⟩ := Option.map_eq_some_iff.mp h
    obtain ⟨rfl, rfl⟩ := Prod.mk.inj he
    obtain ⟨t, ht⟩ := drive_sound hd
    exact ⟨launched, t, memory, hl, ht, rfl⟩

def RunEvent.ofHost : RunEvent → Bool
  | .runMeta _ => true
  | .runExecutionStarted _ => true
  | _ => false

/-- The log of a call, between whose own events attempts the engine has given up may still record notes. -/
inductive Mingled (Late : List RunEvent → NodePath → StepNote → Prop) (log : List RunEvent) :
    List RunEvent → List RunEvent → Prop where
  | nil : Mingled Late log [] []
  | own {new mixed : List RunEvent} (event : RunEvent) : Mingled Late log new mixed →
      Mingled Late log (new ++ [event]) (mixed ++ [event])
  | late {new mixed : List RunEvent} {path : NodePath} {note : StepNote} : Mingled Late log new mixed →
      Late (log ++ mixed) path note → Mingled Late log new (mixed ++ [note.event path])

/-- The logs of a run whose calls all meet a condition, and whose late notes all meet another: the host
announces itself between calls. -/
inductive Reaches (workflow : WorkflowDefinition)
    (Meets : List RunEvent → EngineCall → List RunEvent → ExecOutcome → Prop)
    (Late : List RunEvent → NodePath → StepNote → Prop) : List RunEvent → Prop where
  | start : Reaches workflow Meets Late []
  | host {log : List RunEvent} {event : RunEvent} : Reaches workflow Meets Late log → event.ofHost = true →
      Reaches workflow Meets Late (log ++ [event])
  | late {log : List RunEvent} {path : NodePath} {note : StepNote} : Reaches workflow Meets Late log →
      Late log path note → Reaches workflow Meets Late (log ++ [note.event path])
  | call {log new mixed : List RunEvent} {call : EngineCall} {outcome : ExecOutcome} :
      Reaches workflow Meets Late log → Returns workflow call log (log ++ new) outcome →
      Meets log call new outcome → Mingled Late log new mixed → Reaches workflow Meets Late (log ++ mixed)

/-- Every log the engine can produce: a call may also still run, or have been cut off anywhere. -/
inductive Produced (workflow : WorkflowDefinition) : List RunEvent → Prop where
  | start : Produced workflow []
  | host {log : List RunEvent} {event : RunEvent} : Produced workflow log → event.ofHost = true →
      Produced workflow (log ++ [event])
  | call {log : List RunEvent} {call : EngineCall} {launched : Launched} {t : Trace} {code : Code}
      {memory : RunMemory} : Produced workflow log → launch workflow log call = .ok launched →
      Proc.Run launched.code t code →
      Replay (engineWorld workflow) (launched.memory log) t memory → Produced workflow memory.log

variable {workflow : WorkflowDefinition} {log log' : List RunEvent} {call : EngineCall}
  {outcome : ExecOutcome} {memory memory' : RunMemory}

theorem mingled_append {Late : List RunEvent → NodePath → StepNote → Prop} {new mixed : List RunEvent}
    (h : Mingled Late log new mixed) (events : List RunEvent) :
    Mingled Late log (new ++ events) (mixed ++ events) := by
  induction events generalizing new mixed with
  | nil => simpa using h
  | cons event rest ih =>
    have hrest := ih (.own event h)
    rwa [List.append_assoc, List.append_assoc] at hrest

theorem mingled_own {Late : List RunEvent → NodePath → StepNote → Prop} (new : List RunEvent) :
    Mingled Late log new new := mingled_append .nil new

theorem log_replay {t : Trace} (h : Replay (engineWorld workflow) memory t memory') :
    memory'.log = memory.log ++ recordedEvents (effectsOf t) := by
  induction h with
  | nil s => simp [effectsOf]
  | @did action s s' t _ _ ih =>
    rw [ih]
    cases action with
    | emit event => simp [engineWorld, RunMemory.perform, effectsOf, effectOf]
    | _ => rfl
  | saw _ ih => rw [ih]; rfl
  | heard _ _ ih => rw [ih]; rfl
  | outside ho _ ih =>
    rw [ih, show _ = _ from ho]

/-- What a piece of engine code records under the schedule that always moves the first lane it can. -/
theorem emits_of_drive {code : Code} {replies rest : List StepReply} {fuel : Nat}
    (h : drive (engineWorld workflow) fuel code replies memory = some (.ok outcome, rest, memory')) :
    ∃ effects, Emits code effects outcome ∧ memory'.log = memory.log ++ recordedEvents effects := by
  obtain ⟨t, ht, hreplay⟩ := drive_sound h
  exact ⟨effectsOf t, ⟨t, ht, rfl⟩, log_replay hreplay⟩

theorem Produced.returns (h : Produced workflow log) (hr : Returns workflow call log log' outcome) :
    Produced workflow log' := by
  obtain ⟨launched, t, memory, hl, ⟨ht, hreplay⟩, rfl⟩ := hr
  exact .call h hl ht hreplay

theorem Returns.emits (h : Returns workflow call log log' outcome) :
    ∃ launched effects, launch workflow log call = .ok launched ∧ Emits launched.code effects outcome ∧
      log' = log ++ recordedEvents effects := by
  obtain ⟨launched, t, memory, hl, ⟨ht, hr⟩, rfl⟩ := h
  exact ⟨launched, effectsOf t, hl, ⟨t, ht, rfl⟩, log_replay hr⟩

def EngineCall.opens (call : EngineCall) (event : RunEvent) : Prop :=
  match call with
  | .run _ _ => ∃ runId workflowName input, event = .runStarted runId workflowName input
  | .resume => ∃ fromPath, event = .runResumed fromPath
  | .answer answers _ => ∃ path, event = .answersProvided path answers
  | .respond response _ => ∃ path, event = .interactionProvided path response

theorem forall_opening {P : RunEvent → Prop} {call : EngineCall} {opening : RunEvent} (ho : call.opens opening)
    (hs : ∀ runId workflowName input, P (.runStarted runId workflowName input))
    (hr : ∀ fromPath, P (.runResumed fromPath)) (ha : ∀ path answers, P (.answersProvided path answers))
    (hp : ∀ path response, P (.interactionProvided path response)) : P opening := by
  cases call with
  | run runId input =>
    obtain ⟨runId, workflowName, input, rfl⟩ := ho
    exact hs runId workflowName input
  | resume =>
    obtain ⟨fromPath, rfl⟩ := ho
    exact hr fromPath
  | answer answers _ =>
    obtain ⟨path, rfl⟩ := ho
    exact ha path answers
  | respond response _ =>
    obtain ⟨path, rfl⟩ := ho
    exact hp path response

theorem resumeWithInput_cases {keep : Asked → Bool} {path : Option NodePath} {missing : String}
    {overtaken : String → String → String} {provided : NodePath → RunEvent} {deliver : Asked → Reentry}
    {launched : Launched}
    (h : resumeWithInput workflow log keep path missing overtaken provided deliver = .ok launched) :
    (∃ error path, launched.code = emit (.runCrashed path error) (conclude (.crashed error path))) ∨
    ∃ target cursor, launched = launchAt workflow (provided target) cursor ∧
      cursor.pendingBlocks = pendingBlocksExcept log target := by
  unfold resumeWithInput at h
  split at h
  · cases h
  · split at h
    · cases h
    · split at h
      · cases h
      · split at h
        · cases h
          exact .inl ⟨_, _, rfl⟩
        · cases h
          exact .inr ⟨_, _, rfl, rfl⟩

theorem launch_cases {launched : Launched} (h : launch workflow log call = .ok launched) :
    (∃ error path, launched.code = emit (.runCrashed path error) (conclude (.crashed error path))) ∨
    ∃ opening cursor, launched = launchAt workflow opening cursor ∧ call.opens opening ∧
      (cursor.pendingBlocks = [] ∨ ∃ target, cursor.pendingBlocks = pendingBlocksExcept log target) := by
  cases call with
  | run runId input =>
    simp only [launch, Except.ok.injEq, runWorkflow] at h
    subst h
    split
    · exact .inl ⟨_, _, rfl⟩
    · exact .inr ⟨_, _, rfl, ⟨_, _, _, rfl⟩, .inl rfl⟩
  | resume =>
    simp only [launch, resumeWorkflow] at h
    split at h
    · cases h
    · split at h
      · cases h
        exact .inl ⟨_, _, rfl⟩
      · cases h
        exact .inr ⟨_, _, rfl, ⟨_, rfl⟩, .inl rfl⟩
  | answer answers path =>
    simp only [launch, resumeWithAnswer] at h
    rcases resumeWithInput_cases h with hr | ⟨target, cursor, rfl, hp⟩
    · exact .inl hr
    · exact .inr ⟨_, cursor, rfl, ⟨target, rfl⟩, .inr ⟨target, hp⟩⟩
  | respond response path =>
    simp only [launch, resumeWithInteraction] at h
    rcases resumeWithInput_cases h with hr | ⟨target, cursor, rfl, hp⟩
    · exact .inl hr
    · exact .inr ⟨_, cursor, rfl, ⟨target, rfl⟩, .inr ⟨target, hp⟩⟩

def closingEvents : ExecOutcome → List RunEvent
  | .ok output => [.runCompleted output]
  | .crashed error path => [.runCrashed path error]
  | .blocked _ => []
  | .cancelled path source => [.runCancelled path (some (source.getD .engine))]

theorem emits_execute {cursor : ExecutionCursor} {effects : List Effect}
    (h : Emits (execute workflow cursor) effects outcome) :
    ∃ first, effects = first ++ (closingEvents outcome).map Effect.recorded ∧
      Emits (runNodeSequence (walked (envOf workflow cursor) workflow.nodes) cursor.previousOutput [] []
        cursor.startIndex cursor.reentry) first outcome := by
  obtain ⟨first, rest, o, rfl, hf, hr⟩ := emits_andThen h
  refine ⟨first, ?_⟩
  cases o with
  | ok output =>
    obtain ⟨u, rfl, hu⟩ := emits_emit hr
    obtain ⟨rfl, rfl⟩ := emits_conclude hu
    exact ⟨rfl, hf⟩
  | crashed error path =>
    obtain ⟨u, rfl, hu⟩ := emits_emit hr
    obtain ⟨rfl, rfl⟩ := emits_conclude hu
    exact ⟨rfl, hf⟩
  | blocked block =>
    obtain ⟨rfl, rfl⟩ := emits_conclude hr
    exact ⟨rfl, hf⟩
  | cancelled path source =>
    obtain ⟨u, rfl, hu⟩ := emits_emit hr
    obtain ⟨rfl, rfl⟩ := emits_conclude hu
    exact ⟨rfl, hf⟩

end KimchiWorkflows.Engine
