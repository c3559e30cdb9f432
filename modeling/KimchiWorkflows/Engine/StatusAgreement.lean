import KimchiWorkflows.Engine.AttemptSilence
import KimchiWorkflows.Engine.CallStatus

namespace KimchiWorkflows.Engine

open KimchiWorkflows.Flow Process Scheduling

variable {workflow : WorkflowDefinition} {log new mixed : List RunEvent} {call : EngineCall}
  {outcome : ExecOutcome} {key : NodePath}

theorem agrees_of_launchAt {opening : RunEvent} {cursor : ExecutionCursor} {effects : List Effect}
    (hc : Committed workflow) (hlog : ∀ key, (viewOf key log).state ≠ some .inProgress)
    (ho : call.opens opening)
    (hp : cursor.pendingBlocks = [] ∨ ∃ target, cursor.pendingBlocks = pendingBlocksExcept log target)
    (he : Emits (launchAt workflow opening cursor).code effects outcome)
    (hm : Attends log call (recordedEvents effects) outcome) :
    Agrees (log ++ recordedEvents effects) outcome := by
  have henv : ∀ key block, Dict.get (envOf workflow cursor).pendingBlocks key = some block →
      IsWaiting log key ∧ staticKeyOf block.path = key := by
    intro key block hg
    rcases hp with hnil | ⟨target, hp⟩
    · rw [envOf, hnil] at hg
      cases hg
    · rw [envOf, hp] at hg
      obtain ⟨asked, ha, -, rfl, rfl⟩ := get_pendingBlocksExcept hg
      exact ⟨(mem_pendingHumanInputs ha).1, by rw [path_pendingBlockFromEvent]⟩
  obtain ⟨rest, rfl, hr⟩ := emits_emit he
  obtain ⟨first, rfl, hf⟩ := emits_execute hr
  have hunique := (Bool.and_eq_true _ _).mp hc.scopesUnique
  have hs := settles_runNodeSequence
    (settles_walked (fun key block hg => (henv key block hg).2) hunique.2) hf
  rw [recordedEvents_recorded, recordedEvents_append, recordedEvents_map] at hm ⊢
  cases outcome with
  | ok output => exact agrees_of_ok ho hm rfl hlog hs
  | blocked block =>
    refine agrees_of_blocked ho hm rfl hlog ?_ hs
    intro key hsome
    obtain ⟨block, hg⟩ := Option.isSome_iff_exists.mp hsome
    exact (henv key block hg).1
  | crashed error path =>
    have hend : Agrees ((log ++ opening :: recordedEvents first) ++ [.runCrashed path error])
        (.crashed error path) := agrees_of_terminal rfl (.inl rfl)
    simpa [closingEvents] using hend
  | cancelled path source =>
    have hend : Agrees ((log ++ opening :: recordedEvents first) ++
        [.runCancelled path (some (source.getD .engine))]) (.cancelled path source) :=
      agrees_of_terminal rfl (.inr rfl)
    simpa [closingEvents] using hend

theorem agrees_of_returns (hc : Committed workflow)
    (hlog : ∀ key, (viewOf key log).state ≠ some .inProgress)
    (hr : Returns workflow call log (log ++ new) outcome) (hm : Attends log call new outcome) :
    Agrees (log ++ new) outcome := by
  obtain ⟨launched, effects, hl, he, hnew⟩ := hr.emits
  obtain rfl := List.append_cancel_left hnew
  rcases launch_cases hl with ⟨error, path, hcode⟩ | ⟨opening, cursor, rfl, ho, hp⟩
  · rw [hcode] at he
    obtain ⟨rest, rfl, hrest⟩ := emits_emit he
    obtain ⟨rfl, rfl⟩ := emits_conclude hrest
    exact agrees_of_terminal rfl (.inl rfl)
  · exact agrees_of_launchAt hc hlog ho hp he hm

theorem touch_ofHost {event : RunEvent} (h : event.ofHost = true) : touchOf key event = none := by
  cases event <;> simp_all [RunEvent.ofHost, touchOf]

/-- A late note that moves a step finds it in progress. -/
def Harmless (log : List RunEvent) (path : NodePath) (note : StepNote) : Prop :=
  ∀ key, touchOf key (note.event path) ≠ none → (viewOf key log).state = some .inProgress

theorem touch_note {path : NodePath} {note : StepNote} (h : touchOf key (note.event path) ≠ none) :
    touchOf key (note.event path) = some (.put .inProgress) := by
  cases note with
  | log => exact absurd rfl h
  | agentError => exact absurd rfl h
  | usage => exact absurd rfl h
  | retry =>
    simp only [StepNote.event, touchOf, touchAt] at h ⊢
    split_ifs at h ⊢
    · rfl
    · exact absurd rfl h
  | steer =>
    simp only [StepNote.event, touchOf, touchAt] at h ⊢
    split_ifs at h ⊢
    · rfl
    · exact absurd rfl h

theorem Harmless.viewOf_concat {path : NodePath} {note : StepNote} (h : Harmless log path note) (key : NodePath) :
    viewOf key (log ++ [note.event path]) = viewOf key log := by
  rw [viewOf_append]
  by_cases ht : touchOf key (note.event path) = none
  · exact after_untouched (List.forall_mem_singleton.mpr ht) _
  · have hs := h key ht
    simp only [after, List.foldl_cons, List.foldl_nil, KeyView.next, touch_note ht, Option.elim_some, KeyView.touch]
    rw [← hs]

theorem Mingled.viewOf_eq (h : Mingled Harmless log new mixed) (key : NodePath) :
    viewOf key (log ++ mixed) = viewOf key (log ++ new) := by
  induction h with
  | nil => rfl
  | own event _ ih => rw [← List.append_assoc, ← List.append_assoc, viewOf_append, ih, ← viewOf_append]
  | late _ hl ih => rw [← List.append_assoc, hl.viewOf_concat, ih]

theorem terminal_note (path : NodePath) (note : StepNote) : (note.event path).terminal = none := by
  cases note <;> rfl

theorem isRunStarted_note (path : NodePath) (note : StepNote) : (note.event path).isRunStarted = false := by
  cases note <;> rfl

theorem Mingled.lastTerminal_eq {Late : List RunEvent → NodePath → StepNote → Prop}
    (h : Mingled Late log new mixed) : lastTerminal (log ++ mixed) = lastTerminal (log ++ new) := by
  induction h with
  | nil => rfl
  | own event _ ih => rw [← List.append_assoc, ← List.append_assoc, lastTerminal_append, ih, ← lastTerminal_append]
  | late _ _ ih =>
    rw [← List.append_assoc, lastTerminal_append, ih]
    simp [terminal_note]

theorem Mingled.any_isRunStarted {Late : List RunEvent → NodePath → StepNote → Prop}
    (h : Mingled Late log new mixed) :
    (log ++ mixed).any RunEvent.isRunStarted = (log ++ new).any RunEvent.isRunStarted := by
  induction h with
  | nil => rfl
  | own event _ ih => rw [← List.append_assoc, ← List.append_assoc, List.any_append, ih, ← List.any_append]
  | late _ _ ih =>
    rw [← List.append_assoc, List.any_append, ih]
    simp [isRunStarted_note]

/-- The status is a matter of what the log says about its keys, of its last end and of its start. -/
theorem deriveRunStatus_congr {other : List RunEvent} (hv : ∀ key, viewOf key log = viewOf key other)
    (ht : lastTerminal log = lastTerminal other)
    (hs : log.any RunEvent.isRunStarted = other.any RunEvent.isRunStarted) :
    deriveRunStatus log = deriveRunStatus other := by
  have hstate : ∀ state, hasState (deriveStepStates log) state = hasState (deriveStepStates other) state := by
    intro state
    rw [Bool.eq_iff_iff, hasState_iff, hasState_iff]
    simp only [hv]
  simp only [deriveRunStatus, hs, ht, hstate]

theorem Agrees.mingled (h : Agrees (log ++ new) outcome) (hm : Mingled Harmless log new mixed) :
    Agrees (log ++ mixed) outcome where
  idle key := by
    rw [hm.viewOf_eq]
    exact h.idle key
  status hs := by
    rw [deriveRunStatus_congr hm.viewOf_eq hm.lastTerminal_eq hm.any_isRunStarted]
    exact h.status (hm.any_isRunStarted ▸ hs)

theorem Reaches.idle (hc : Committed workflow) (h : Reaches workflow Attends Harmless log) :
    ∀ key, (viewOf key log).state ≠ some .inProgress := by
  induction h with
  | start => simp [viewOf]
  | @host log event hlog he ih =>
    intro key
    rw [viewOf_append, after_untouched]
    · exact ih key
    · intro e hm
      rw [List.mem_singleton.mp hm]
      exact touch_ofHost he
  | late _ hl ih =>
    intro key
    rw [hl.viewOf_concat]
    exact ih key
  | call _ hr hm hmixed ih => exact ((agrees_of_returns hc ih hr hm).mingled hmixed).idle

/-- In a run whose calls attend to the steps they owe it, and whose late notes find their steps at work, the
derived status of the log is the status each call returned. -/
theorem deriveRunStatus_eq_returned (hc : Committed workflow) (h : Reaches workflow Attends Harmless log)
    (hr : Returns workflow call log (log ++ new) outcome) (hm : Attends log call new outcome)
    (hmixed : Mingled Harmless log new mixed) (hs : (log ++ mixed).any RunEvent.isRunStarted = true) :
    deriveRunStatus (log ++ mixed) = some (resultOf outcome).status :=
  ((agrees_of_returns hc (h.idle hc) hr hm).mingled hmixed).status hs

section Attempts

open StepRunner

/-- What the engine is told of an execution that settles: the notes taken until then. -/
def StepRunner.Execution.reply (execution : Execution) (outcome : StepOutcome) : StepReply :=
  { notes := (execution.notes.filter (·.1 ≤ execution.endedAt)).map (·.2), outcome := outcome }

theorem mingled_late (call : StepCall) {own more : List RunEvent} (notes : Notes)
    (h : Mingled (fun _ path _ => path = call.path) log own more) :
    Mingled (fun _ path _ => path = call.path) log own (more ++ notes.map (fun note => note.2.event call.path)) := by
  induction notes generalizing more with
  | nil => simpa using h
  | cons note rest ih =>
    have hlate : Mingled (fun _ path _ => path = call.path) log own (more ++ [note.2.event call.path]) := .late h rfl
    simpa using ih hlate

theorem emits_of_conclude (outcome : ExecOutcome) : Emits (conclude outcome) [] outcome := ⟨[], .refl _, rfl⟩

theorem emits_of_emit {code : Code} {effects : List Effect} (event : RunEvent) (h : Emits code effects outcome) :
    Emits (emit event code) (.recorded event :: effects) outcome := by
  obtain ⟨t, ht, rfl⟩ := h
  exact ⟨.did (.emit event) :: t, .head (.act _ _) ht, rfl⟩

theorem emits_of_emitAll {code : Code} {effects : List Effect} (events : List RunEvent)
    (h : Emits code effects outcome) : Emits (emitAll events code) (events.map Effect.recorded ++ effects) outcome := by
  induction events with
  | nil => exact h
  | cons event rest ih => exact emits_of_emit event ih

theorem emits_of_finishStep (path : NodePath) (isOptional : Bool) (reply : StepOutcome) :
    Emits (finishStep path isOptional reply)
      ((StepRunner.settlement path isOptional reply).1.toList.map Effect.recorded) (StepRunner.settlement path isOptional reply).2 := by
  rw [finishStep_eq_settlement]
  cases (StepRunner.settlement path isOptional reply).1 with
  | none => exact emits_of_conclude _
  | some event => exact emits_of_emit event (emits_of_conclude _)

/-- What an attempt records after the execution has settled comes behind what the engine records of the reply. -/
theorem mingled_runPolicies {execution : Execution} {reply : StepOutcome} (he : execution.ending = .settled reply)
    (call : StepCall) (isOptional : Bool) :
    ∃ effects, Emits (runPolicies call isOptional) effects (StepRunner.settlement call.path isOptional reply).2 ∧
      Mingled (fun _ path _ => path = call.path) log (recordedEvents effects)
        (execution.log call.path isOptional) := by
  obtain ⟨t, ht, heffects⟩ := emits_of_emitAll
    ((execution.reply reply).notes.map (StepNote.event call.path))
    (emits_of_finishStep call.path isOptional reply)
  refine ⟨effectsOf t, ⟨.heard call (execution.reply reply) :: t, .head (.call _ _ _) ht, rfl⟩, ?_⟩
  have hsettled : execution.settled call.path isOptional = (StepRunner.settlement call.path isOptional reply).1 := by
    rw [Execution.settled, he]
  rw [heffects, recordedEvents_append, recordedEvents_map, recordedEvents_map, Execution.log, hsettled,
    Execution.reply, List.map_map]
  exact mingled_late call _ (mingled_own _)

end Attempts

section Sample

def anySchema : Schema := { violations := fun _ => none }

def question (name : String) : StepDefinition :=
  .questionnaire { name := name, outputSchema := anySchema }

def asking (path : NodePath) : RunEvent := .questionnaireAsked path { questions := [] } [] none none none

def waitingOn (path : NodePath) : ExecOutcome := .blocked ⟨path, .questionnaire { questions := [] } [], none⟩

def approval : WorkflowDefinition := { name := "review", nodes := [.step (question "approve")] }

def approvalPath : NodePath := [{ name := "approve" }]

def approvalAsked : List RunEvent :=
  [.runStarted "run-1" "review" .null, .stepStarted approvalPath .undefined, asking approvalPath]

def approvalAnswered : List RunEvent :=
  [.answersProvided approvalPath [], .stepCompleted approvalPath (.object []), .runCompleted (.object [])]

theorem committed_approval : Committed approval :=
  .flat (show approval.nodes.flatMap bodiesOf = [] from rfl) rfl

theorem reaches_approvalAsked : Reaches approval Attends Harmless approvalAsked := by
  have hr : Returns approval (.run "run-1" .null) [] ([] ++ approvalAsked) (waitingOn approvalPath) :=
    returns_of_attempt [] 100 rfl
  have hm : Attends [] (.run "run-1" .null) approvalAsked (waitingOn approvalPath) := by
    refine ⟨?_, ?_, ?_⟩
    · rintro block - ⟨arm, event, asked, ha, -⟩
      simp [approvalAsked, asking] at ha
    · rintro - event he ⟨runId, name, input, rfl⟩ path hd
      cases hd
    · rintro output ho
      cases ho
  exact .call .start hr hm (mingled_own approvalAsked)

theorem attends_approvalAnswered :
    Attends approvalAsked (.answer [] none) approvalAnswered (.ok (.object [])) := by
  have hdone : Executed (staticKeyOf approvalPath) approvalAnswered :=
    ⟨.stepCompleted approvalPath (.object []), by simp [approvalAnswered], approvalPath, rfl, rfl⟩
  refine ⟨?_, ?_, ?_⟩
  · rintro block hb
    cases hb
  · rintro - event he ⟨path, rfl⟩ path' hd
    have hp : path = approvalPath := by simpa [approvalAnswered] using he
    cases hd
    rw [hp]
    exact hdone
  · rintro output - key hw
    have hkey : key = staticKeyOf approvalPath := by
      have hm := Dict.mem_of_get hw
      rw [show deriveStepStates approvalAsked = [(staticKeyOf approvalPath, .blocked)] from rfl] at hm
      simpa using hm
    rw [hkey]
    exact hdone

theorem deriveRunStatus_approvalAnswered :
    deriveRunStatus (approvalAsked ++ approvalAnswered) = some .completed :=
  deriveRunStatus_eq_returned committed_approval reaches_approvalAsked
    (returns_of_attempt [] 100 rfl) attends_approvalAnswered (mingled_own approvalAnswered) rfl

def gated : WorkflowDefinition :=
  { name := "release", nodes := [.branch "branch-1" [.mk "review" (fun _ => .ok true) approval.nodes]] }

def gatedPath : NodePath := [{ name := "review" }, { name := "approve" }]

def gatedAsked : List RunEvent :=
  [.runStarted "run-1" "release" .null, .nodeStarted [{ name := "branch-1" }] .branch,
    .branchArm [{ name := "review" }] true, .stepStarted gatedPath .undefined, asking gatedPath]

theorem committed_gated : Committed gated :=
  .assembled [approval] (List.forall_mem_singleton.mpr committed_approval) (show gated.nodes.flatMap bodiesOf = _ from rfl) rfl

theorem gated_status_differs : Committed gated ∧
    Returns gated (.run "run-1" .null) [] gatedAsked (waitingOn gatedPath) ∧
    (resultOf (waitingOn gatedPath)).status = .blocked ∧ deriveRunStatus gatedAsked = some .inProgress :=
  ⟨committed_gated, returns_of_attempt [] 100 rfl, rfl, by decide⟩

end Sample

end KimchiWorkflows.Engine
