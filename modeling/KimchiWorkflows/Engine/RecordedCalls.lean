import KimchiWorkflows.Engine.DriftCheck
import KimchiWorkflows.Engine.RecordedEvents
import KimchiWorkflows.Engine.ReloadedRun

/-!
What a call records, and under which paths: those of its nodes, and those it takes from the log before it.
-/

namespace KimchiWorkflows.Engine

open KimchiWorkflows.Flow Process Process.Proc Scheduling

def RunEvent.address : RunEvent → Option NodePath
  | .runResumed fromPath => fromPath
  | .runCrashed path _ => path
  | .runCancelled path _ => path
  | event => event.subject

def RunEvent.provides : RunEvent → Bool
  | .answersProvided _ _ => true
  | .interactionProvided _ _ => true
  | _ => false

/-- The paths a call takes over: of a top-level node, of what a recorded event is about, or the key of that. -/
inductive TakenOver (workflow : WorkflowDefinition) (log : List RunEvent) : NodePath → Prop where
  | node {node : WorkflowNode} : node ∈ workflow.nodes → TakenOver workflow log [{ name := nodeName node }]
  | path {event : RunEvent} {path : NodePath} : event ∈ log → event.subject = some path → TakenOver workflow log path
  | key {event : RunEvent} {path : NodePath} : event ∈ log → event.subject = some path →
      TakenOver workflow log (staticKeyOf path)

/-- What a call can record: its opening, what the nodes of the workflow can, an end of the run, and the
abandonment of what the log before it left waiting. -/
inductive Recordable (workflow : WorkflowDefinition) (log : List RunEvent) (call : EngineCall) : RunEvent → Prop where
  | opening {event : RunEvent} : call.opens event → (∀ path, event.address = some path → TakenOver workflow log path) →
      Recordable workflow log call event
  | ended {event : RunEvent} : event.terminal.isSome → (∀ path, event.address = some path → TakenOver workflow log path) →
      Recordable workflow log call event
  | emitted {node : WorkflowNode} {event : RunEvent} : node ∈ workflow.nodes → Emitted [] node event →
      Recordable workflow log call event
  | abandoned {asked : Asked} : asked ∈ pendingHumanInputs log → Recordable workflow log call (.stepCancelled asked.path)

variable {workflow : WorkflowDefinition} {log : List RunEvent} {call : EngineCall} {launched : Launched}
  {event : RunEvent}

theorem takenOver_asked {asked : Asked} (h : asked ∈ askedInputs log) : TakenOver workflow log asked.path := by
  obtain ⟨⟨event, index⟩, he, hasked⟩ := List.mem_filterMap.mp h
  have hm : event ∈ log := (List.mem_zipIdx' he).2 ▸ List.getElem_mem _
  cases event with
  | questionnaireAsked path questionnaire conversation violation elapsedMs tokensUsed =>
    cases hasked
    exact .path hm rfl
  | interactionRequested path request violation =>
    cases hasked
    exact .path hm rfl
  | _ => cases hasked

theorem takenOver_completed {key : NodePath} (h : key ∈ completedStepKeys log) : TakenOver workflow log key := by
  have hstanding := mem_completedStepKeys.mp h
  unfold standing at hstanding
  cases hlast : (log.filterMap (RunEvent.standing key)).getLast? with
  | none =>
    rw [hlast] at hstanding
    cases hstanding
  | some opened =>
    obtain ⟨event, hm, hevent⟩ := List.mem_filterMap.mp (List.mem_of_getLast? hlast)
    have hkey : ∃ path, event.subject = some path ∧ staticKeyOf path = key := by
      cases event <;> simp only [RunEvent.standing, reduceCtorEq, Option.ite_none_right_eq_some] at hevent <;>
        exact ⟨_, rfl, hevent.1⟩
    obtain ⟨path, hsubject, rfl⟩ := hkey
    exact .key hm hsubject

theorem takenOver_drift {runId : String} {drift : String × NodePath}
    (h : checkDrift workflow log (rebuildStepOutputs log) runId = some drift) : TakenOver workflow log drift.2 := by
  obtain ⟨key, hm, hdrift⟩ := List.exists_of_findSome?_eq_some h
  have hkey : drift.2 = key := by
    unfold driftAt at hdrift
    split at hdrift
    · cases hdrift
      rfl
    · obtain ⟨violation, -, rfl⟩ := Option.map_eq_some_iff.mp hdrift
      rfl
  rw [hkey]
  exact takenOver_completed hm

theorem address_of_resumeWithInput {keep : Asked → Bool} {asked : Option NodePath} {missing : String}
    {overtaken : String → String → String} {provided : NodePath → RunEvent} {deliver : Asked → Reentry} {event : RunEvent}
    {rest : Code} {path : NodePath} (hprovided : ∀ target, (provided target).address = some target)
    (h : resumeWithInput workflow log keep asked missing overtaken provided deliver = .ok launched)
    (hcode : launched.code = emit event rest) (ha : event.address = some path) : TakenOver workflow log path := by
  unfold resumeWithInput at h
  split at h
  · cases h
  · split at h
    · cases h
    · rename_i pending hselect
      split at h
      · cases h
      · split at h
        · rename_i drift hdrift
          cases h
          cases hcode
          obtain rfl := Option.some.inj ha
          exact takenOver_drift hdrift
        · cases h
          cases hcode
          rw [hprovided] at ha
          obtain rfl := Option.some.inj ha
          exact takenOver_asked (mem_askedInputs_of_select hselect)

theorem address_of_launch {event : RunEvent} {rest : Code} {path : NodePath} (hl : launch workflow log call = .ok launched)
    (hcode : launched.code = emit event rest) (ha : event.address = some path) : TakenOver workflow log path := by
  cases call with
  | run runId input =>
    simp only [launch, Except.ok.injEq, runWorkflow] at hl
    subst hl
    split at hcode
    · cases hcode
      cases ha
    · cases hcode
      cases ha
  | resume =>
    simp only [launch, resumeWorkflow] at hl
    split at hl
    · cases hl
    · split at hl
      · rename_i drift hdrift
        cases hl
        cases hcode
        obtain rfl := Option.some.inj ha
        exact takenOver_drift hdrift
      · cases hl
        cases hcode
        obtain ⟨node, hn, rfl⟩ := Option.map_eq_some_iff.mp ha
        exact .node (List.mem_of_getElem? hn)
  | answer answers asked =>
    simp only [launch, resumeWithAnswer] at hl
    exact address_of_resumeWithInput (fun _ => rfl) hl hcode ha
  | respond response asked =>
    simp only [launch, resumeWithInteraction] at hl
    exact address_of_resumeWithInput (fun _ => rfl) hl hcode ha

theorem pendingAllowed_cursor {cursor : ExecutionCursor}
    (h : cursor.pendingBlocks = [] ∨ ∃ target, cursor.pendingBlocks = pendingBlocksExcept log target) :
    PendingAllowed (envOf workflow cursor) (Recordable workflow log call) := by
  intro key block hb
  rw [envOf] at hb
  obtain h | ⟨target, h⟩ := h
  · rw [h] at hb
    cases hb
  · rw [h] at hb
    obtain ⟨asked, hm, -, -, rfl⟩ := get_pendingBlocksExcept hb
    rw [path_pendingBlockFromEvent]
    exact .abandoned hm

theorem records_launch (hl : launch workflow log call = .ok launched) :
    Records (Recordable workflow log call) launched.code := by
  obtain ⟨error, path, hcode⟩ | ⟨opening, cursor, rfl, ho, hpending⟩ := launch_cases hl
  · have hended : Recordable workflow log call (.runCrashed path error) :=
      .ended rfl (fun _ ha => address_of_launch hl hcode ha)
    rw [hcode]
    refine records_emit hended (records_conclude ?_)
    cases path with
    | none => trivial
    | some path => exact hended
  · have hopening : Recordable workflow log call opening := .opening ho (fun _ ha => address_of_launch hl rfl ha)
    refine records_emit hopening (records_andThen (records_runNodeSequence (speaks_walked _)
      (pendingAllowed_cursor hpending) ?_) ?_)
    · intro node hm event he
      exact .emitted (walked_mem hm) he
    · intro outcome hend
      cases outcome with
      | blocked block => exact records_conclude hend
      | ok output => exact records_emit (.ended rfl (fun _ ha => by cases ha)) (records_conclude trivial)
      | crashed error path =>
        cases path with
        | none => exact records_emit (.ended rfl (fun _ ha => by cases ha)) (records_conclude trivial)
        | some path => exact records_emit hend (records_conclude hend)
      | cancelled path source =>
        cases path with
        | none => exact records_emit (.ended rfl (fun _ ha => by cases ha)) (records_conclude trivial)
        | some path => exact records_emit hend (records_conclude hend)

theorem recordable_of_run {t : Trace} {code : Code} (hl : launch workflow log call = .ok launched)
    (hr : Proc.Run launched.code t code) {event : RunEvent} (he : Label.did (.emit event) ∈ t) :
    Recordable workflow log call event :=
  (only_run (records_launch hl) hr).1 _ he event rfl

theorem mem_recordedEvents {t : Trace} {event : RunEvent} :
    event ∈ recordedEvents (effectsOf t) ↔ Label.did (.emit event) ∈ t := by
  rw [recordedEvents_eq, effectsOf, List.filterMap_filterMap, List.mem_filterMap]
  constructor
  · rintro ⟨label, hm, he⟩
    cases label with
    | did action =>
      cases action <;> cases he
      exact hm
    | _ => cases he
  · exact fun hm => ⟨_, hm, rfl⟩

def Answers (log : List RunEvent) (event : RunEvent) : Prop :=
  event.provides = true → ∀ path, event.subject = some path → ∃ asked ∈ askedInputs log, asked.path = path

theorem answers_of_not_provides (h : event.provides = false) : Answers log event := by
  intro hp
  rw [h] at hp
  cases hp

theorem provides_stepEvent (h : event.isStepEvent = true) : event.provides = false := by
  cases event <;> first | rfl | cases h

theorem provides_emitted {parentPath : NodePath} {node : WorkflowNode} (h : Emitted parentPath node event) : event.provides = false := by
  induction h with
  | step he => exact provides_stepEvent he.kind
  | armStep _ he => exact provides_stepEvent he.kind
  | inside _ _ _ ih => exact ih
  | _ => rfl

theorem answers_resumeWithInput {keep : Asked → Bool} {asked : Option NodePath} {missing : String}
    {overtaken : String → String → String} {provided : NodePath → RunEvent} {deliver : Asked → Reentry} {rest : Code}
    (hprovided : ∀ target, (provided target).subject = some target)
    (h : resumeWithInput workflow log keep asked missing overtaken provided deliver = .ok launched)
    (hcode : launched.code = emit event rest) : Answers log event := by
  unfold resumeWithInput at h
  split at h
  · cases h
  · split at h
    · cases h
    · rename_i pending hselect
      split at h
      · cases h
      · split at h
        · cases h
          cases hcode
          exact answers_of_not_provides rfl
        · cases h
          cases hcode
          intro _ path hs
          rw [hprovided] at hs
          exact ⟨pending, mem_askedInputs_of_select hselect, Option.some.inj hs⟩

theorem answers_launch {rest : Code} (hl : launch workflow log call = .ok launched)
    (hcode : launched.code = emit event rest) : Answers log event := by
  cases call with
  | answer answers asked =>
    simp only [launch, resumeWithAnswer] at hl
    exact answers_resumeWithInput (fun _ => rfl) hl hcode
  | respond response asked =>
    simp only [launch, resumeWithInteraction] at hl
    exact answers_resumeWithInput (fun _ => rfl) hl hcode
  | run runId input =>
    obtain ⟨error, path, hcrash⟩ | ⟨opening, cursor, rfl, ⟨_, _, _, rfl⟩, -⟩ := launch_cases hl
    · rw [hcrash] at hcode
      cases hcode
      exact answers_of_not_provides rfl
    · cases hcode
      exact answers_of_not_provides rfl
  | resume =>
    obtain ⟨error, path, hcrash⟩ | ⟨opening, cursor, rfl, ⟨_, rfl⟩, -⟩ := launch_cases hl
    · rw [hcrash] at hcode
      cases hcode
      exact answers_of_not_provides rfl
    · cases hcode
      exact answers_of_not_provides rfl

/-- Only the opening of a call gives what a human provided. -/
theorem records_answers (hl : launch workflow log call = .ok launched) : Records (Answers log) launched.code := by
  have hcode : ∀ event rest, launched.code = emit event rest → Answers log event := fun _ _ => answers_launch hl
  obtain ⟨error, path, hcrash⟩ | ⟨opening, cursor, rfl, ho, hpending⟩ := launch_cases hl
  · rw [hcrash]
    refine records_emit (answers_of_not_provides rfl) (records_conclude ?_)
    cases path with
    | none => trivial
    | some path => exact answers_of_not_provides rfl
  · refine records_emit (hcode _ _ rfl) (records_andThen (records_runNodeSequence (speaks_walked _)
      (fun _ _ _ => answers_of_not_provides rfl) ?_) ?_)
    · intro node _ event he
      exact answers_of_not_provides (provides_emitted he)
    · intro outcome hend
      cases outcome with
      | blocked block => exact records_conclude hend
      | ok output => exact records_emit (answers_of_not_provides rfl) (records_conclude trivial)
      | crashed error path => exact records_emit (answers_of_not_provides rfl) (records_conclude hend)
      | cancelled path source => exact records_emit (answers_of_not_provides rfl) (records_conclude hend)

end KimchiWorkflows.Engine
