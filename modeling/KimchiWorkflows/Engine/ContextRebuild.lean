import KimchiWorkflows.Engine.BranchReentry
import KimchiWorkflows.Engine.KeptFanOuts
import KimchiWorkflows.Engine.PlainAsks

/-!
The outputs a blocked call holds in memory, against those a re-entry rebuilds from the log it left.
-/

namespace KimchiWorkflows.Engine

open KimchiWorkflows.Flow Process Process.Proc Scheduling

variable {workflow : WorkflowDefinition} {call : EngineCall} {log new : List RunEvent} {memory memory' : RunMemory}
  {launched : Launched} {key : NodePath} {t : Trace} {outcome : ExecOutcome} {nodes : List WorkflowNode}
  {begun : StepOutputs}

def RunEvent.marks (key : NodePath) (event : RunEvent) : Option Mark :=
  match event.completes key with
  | some _ => some .completed
  | none => if event.fails key then some .failed else none

def lastMark (log : List RunEvent) (key : NodePath) : Option Mark :=
  (log.filterMap (RunEvent.marks key)).getLast?

theorem mark_hear (note : Note) (event : RunEvent) :
    (note.hear key event).mark = (event.marks key).or note.mark := by
  unfold Note.hear RunEvent.marks
  cases event.completes key with
  | some output => rfl
  | none =>
    dsimp only
    split_ifs <;> rfl

theorem mark_after (note : Note) (t : Trace) : ((noteGhost key).after note t).mark =
    (lastMark (recordedEvents (effectsOf t)) key).or note.mark := by
  refine @read_after key _ Note.mark (RunEvent.marks key) mark_hear ?_ note t
  intro note stored output
  unfold Note.next
  dsimp only
  split_ifs <;> rfl

theorem stored_after (note : Note) (begun : Option Value)
    (hbegun : Dict.get memory.stepOutputs key = note.stored.or begun)
    (hr : Replay (engineWorld workflow) memory t memory') :
    Dict.get memory'.stepOutputs key = ((noteGhost key).after note t).stored.or begun := by
  induction hr generalizing note with
  | nil s => exact hbegun
  | @did action s s' t _ _ ih =>
    refine ih (note.next key action) ?_
    cases action with
    | emit event =>
      show Dict.get s.stepOutputs key = (note.hear key event).stored.or begun
      rw [stored_hear]
      exact hbegun
    | setStepOutput stored output =>
      show Dict.get (Dict.set s.stepOutputs stored output) key = Option.or (Note.stored (if stored = key then _ else _)) begun
      rw [Dict.get_set]
      by_cases h : key = stored
      · rw [if_pos h, if_pos h.symm, Option.some_or]
      · rw [if_neg h, if_neg (Ne.symm h)]
        exact hbegun
    | _ => exact hbegun
  | saw _ ih => exact ih note hbegun
  | heard _ _ ih => exact ih note hbegun
  | outside ho _ ih => exact ih note (by rw [show _ = _ from ho]; exact hbegun)

theorem carries_execute (hc : Committed workflow) {cursor : ExecutionCursor}
    (hp : cursor.pendingBlocks = [] ∨ ∃ target, cursor.pendingBlocks = pendingBlocksExcept log target)
    (key : NodePath) : Carries (armIn workflow.nodes key) key (execute workflow cursor) := by
  obtain ⟨hnodup, hunique⟩ := (Bool.and_eq_true _ _).mp hc.scopesUnique
  have hfst := map_fst_walked (envOf workflow cursor) workflow.nodes
  refine carries_andThen (carries_runNodeSequence ?_ ?_ ?_) ?_
  · exact bookkept_walked (pendingByKey_of_launch hp) workflow.nodes (of_decide_eq_true hnodup) hunique
  · rw [hfst]
    exact of_decide_eq_true hnodup
  · rintro segment rest rfl
    rw [hfst]
    rfl
  · intro outcome
    cases outcome with
    | blocked block => exact carries_conclude _
    | _ => exact carries_emit (fun _ _ => rfl) (carries_conclude _)

theorem kept_of_launch (hc : Committed workflow) (hl : launch workflow log call = .ok launched)
    (ht : Traces launched.code t (.ok outcome)) (key : NodePath) :
    ((noteGhost key).after {} t).Kept (armIn workflow.nodes key) := by
  have hcarries : Carries (armIn workflow.nodes key) key launched.code := by
    obtain ⟨error, path, hcode⟩ | ⟨opening, cursor, rfl, ho, hp⟩ := launch_cases hl
    · rw [hcode]
      exact carries_emit (fun _ _ => rfl) (carries_conclude _)
    · refine carries_emit (fun _ note => ?_) (carries_execute hc hp key)
      exact forall_opening (P := fun event => note.hear key event = note) ho (fun _ _ _ => rfl) (fun _ => rfl)
        (fun _ _ => rfl) (fun _ _ => rfl)
  have hfresh : Note.Kept (armIn workflow.nodes key) {} := by
    cases armIn workflow.nodes key with
    | true => rfl
    | false => exact ⟨rfl, rfl⟩
  exact tracks_run (hcarries {} hfresh) ht (seen_noteGhost {} t)

/-- What was settled in a call, and what the log held before it, rebuild the outputs the call began with
and stored. -/
structure Rebuildable (nodes : List WorkflowNode) (begun : StepOutputs) (log new : List RunEvent) : Prop where
  arms : ∀ key output, armIn nodes key = true → lastCompletion new key = some output →
    (Dict.get begun key).getD .undefined = output
  failures : ∀ key, armIn nodes key = false → lastMark new key = some .failed →
    (lastCompletion (log ++ new) key).getD .undefined = .undefined
  unsettled : ∀ key, lastCompletion new key = none → (armIn nodes key = false → lastMark new key = none) →
    (Dict.get begun key).getD .undefined = (lastCompletion log key).getD .undefined

def rebuilt (memory : RunMemory) : RunMemory := { memory with stepOutputs := rebuildStepOutputs memory.log }

theorem outputAt_rebuilt (memory : RunMemory) (key : NodePath) :
    (rebuilt memory).outputAt key = (lastCompletion memory.log key).getD .undefined := by
  rw [RunMemory.outputAt, rebuilt, get_rebuildStepOutputs]

section Call

variable (hc : Committed workflow) (hl : launch workflow log call = .ok launched)
  (hx : Executes (engineWorld workflow) launched.code (launched.memory log) t (.ok outcome) memory)

include hx in
theorem outputAt_rebuilt_launch (key : NodePath) : (rebuilt memory).outputAt key =
    ((lastCompletion (recordedEvents (effectsOf t)) key).or (lastCompletion log key)).getD .undefined := by
  have hlog : memory.log = log ++ recordedEvents (effectsOf t) := log_replay hx.2
  rw [outputAt_rebuilt, hlog, lastCompletion_append]

include hx in
theorem outputAt_live (key : NodePath) : memory.outputAt key =
    (((noteGhost key).after {} t).stored.or (Dict.get launched.stepOutputs key)).getD .undefined := by
  have hlive : Dict.get memory.stepOutputs key =
      ((noteGhost key).after {} t).stored.or (Dict.get launched.stepOutputs key) := stored_after {} _ rfl hx.2
  rw [RunMemory.outputAt, hlive]

theorem recorded_of_run (t : Trace) (key : NodePath) :
    ((noteGhost key).after {} t).recorded = lastCompletion (recordedEvents (effectsOf t)) key :=
  (recorded_after {} t).trans Option.or_none

theorem mark_of_run (t : Trace) (key : NodePath) :
    ((noteGhost key).after {} t).mark = lastMark (recordedEvents (effectsOf t)) key :=
  (mark_after {} t).trans Option.or_none

include hc hl hx

theorem stored_arm {key : NodePath} (ha : armIn workflow.nodes key = true) :
    ((noteGhost key).after {} t).stored = none := by
  have hstored := kept_of_launch hc hl hx.1 key
  rwa [ha] at hstored

theorem balanced_node {key : NodePath} (ha : armIn workflow.nodes key = false) :
    ((noteGhost key).after {} t).Balanced := by
  have hbalanced := kept_of_launch hc hl hx.1 key
  rwa [ha] at hbalanced

theorem outputAt_arm {key : NodePath} (ha : armIn workflow.nodes key = true) :
    memory.outputAt key = (Dict.get launched.stepOutputs key).getD .undefined := by
  rw [outputAt_live hx, stored_arm hc hl hx ha, Option.none_or]

theorem rebuildable_of_agrees (hagree : ∀ key, (rebuilt memory).outputAt key = memory.outputAt key) :
    Rebuildable workflow.nodes launched.stepOutputs log (recordedEvents (effectsOf t)) := by
  refine ⟨?_, ?_, ?_⟩
  · intro key output ha hcompletion
    rw [← outputAt_arm hc hl hx ha, ← hagree key, outputAt_rebuilt_launch hx, hcompletion]
    rfl
  · intro key ha hfailed
    have hbalanced := balanced_node hc hl hx ha
    rw [Note.Balanced, mark_of_run, hfailed] at hbalanced
    rw [lastCompletion_append, ← outputAt_rebuilt_launch hx, hagree key, outputAt_live hx, hbalanced]
    rfl
  · intro key hcompletion hmarks
    have hstored : ((noteGhost key).after {} t).stored = none := by
      cases ha : armIn workflow.nodes key with
      | true => exact stored_arm hc hl hx ha
      | false =>
        have hbalanced := balanced_node hc hl hx ha
        rw [Note.Balanced, mark_of_run, hmarks ha] at hbalanced
        exact hbalanced.2
    have hkey := hagree key
    rw [outputAt_rebuilt_launch hx, hcompletion, Option.none_or, outputAt_live hx, hstored, Option.none_or] at hkey
    exact hkey.symm

theorem agrees_of_rebuildable (h : Rebuildable workflow.nodes launched.stepOutputs log (recordedEvents (effectsOf t)))
    (key : NodePath) : (rebuilt memory).outputAt key = memory.outputAt key := by
  cases ha : armIn workflow.nodes key with
  | true =>
    rw [outputAt_arm hc hl hx ha, outputAt_rebuilt_launch hx]
    cases hcompletion : lastCompletion (recordedEvents (effectsOf t)) key with
    | some output => exact (h.arms key output ha hcompletion).symm
    | none => exact (h.unsettled key hcompletion (by simp [ha])).symm
  | false =>
    have hbalanced := balanced_node hc hl hx ha
    rw [outputAt_rebuilt_launch hx, outputAt_live hx]
    rw [Note.Balanced, mark_of_run] at hbalanced
    cases hlast : lastMark (recordedEvents (effectsOf t)) key with
    | none =>
      rw [hlast] at hbalanced
      obtain ⟨hnone, hstored⟩ := hbalanced
      rw [recorded_of_run] at hnone
      rw [hstored, hnone]
      exact (h.unsettled key hnone (fun _ => hlast)).symm
    | some mark =>
      rw [hlast] at hbalanced
      cases mark with
      | completed =>
        obtain ⟨output, houtput, hstored⟩ := hbalanced
        rw [recorded_of_run] at houtput
        rw [hstored, houtput]
        rfl
      | failed =>
        have hstored : ((noteGhost key).after {} t).stored = some .undefined := hbalanced
        have hfailed := h.failures key ha hlast
        rw [lastCompletion_append] at hfailed
        rw [hstored, hfailed]
        rfl

theorem outputAt_rebuilt_iff : (∀ key, (rebuilt memory).outputAt key = memory.outputAt key) ↔
    Rebuildable workflow.nodes launched.stepOutputs log (recordedEvents (effectsOf t)) :=
  ⟨rebuildable_of_agrees hc hl hx, agrees_of_rebuildable hc hl hx⟩

end Call

theorem resolveStepResult_congr {env : RunEnv} {seen : RunMemory}
    (ho : ∀ key, seen.outputAt key = memory.outputAt key) (hf : seen.inFlight = memory.inFlight)
    (scope : NodePath) (name : String) :
    resolveStepResult env seen scope name = resolveStepResult env memory scope name := by
  have hresolve : ∀ scopes, resolveIn env seen name scopes = resolveIn env memory name scopes := by
    intro scopes
    induction scopes with
    | nil => rfl
    | cons scope outward ih => simp only [resolveIn, hf, ih, ho]
  simp only [resolveStepResult, hresolve]

/-- In a call that leaves the run blocked and its outputs on record, every read is the same over the
outputs in memory and over those rebuilt from the log; and only then are the outputs themselves the same. -/
theorem reads_rebuilt (hc : Committed workflow) {block : PendingBlock}
    (hl : launch workflow log call = .ok launched)
    (hx : Executes (engineWorld workflow) launched.code (launched.memory log) t (.ok (.blocked block)) memory) :
    (Rebuildable workflow.nodes launched.stepOutputs log (recordedEvents (effectsOf t)) →
      ∀ env scope name, resolveStepResult env (rebuilt memory) scope name = resolveStepResult env memory scope name) ∧
    ((∀ key, (rebuilt memory).outputAt key = memory.outputAt key) →
      Rebuildable workflow.nodes launched.stepOutputs log (recordedEvents (effectsOf t))) := by
  have hiff := outputAt_rebuilt_iff hc hl hx
  exact ⟨fun h env scope name => resolveStepResult_congr (hiff.mpr h) rfl scope name, hiff.mp⟩

section Sample

def advisory : WorkflowDefinition :=
  { name := "advisory"
    nodes := [.step (.function { name := "lint", isOptional := true }), .step (question "approve")] }

theorem committed_advisory : Committed advisory :=
  .flat (show advisory.nodes.flatMap bodiesOf = [] from rfl) rfl

def advisoryAsked : List RunEvent :=
  [.runStarted "run-1" "advisory" .null, .stepStarted [{ name := "lint" }] .undefined,
    .stepFailed [{ name := "lint" }] "style", .stepStarted [{ name := "approve" }] .undefined,
    asking [{ name := "approve" }]]

def advisoryMemory : RunMemory := { stepOutputs := [([{ name := "lint" }], .undefined)], log := advisoryAsked }

def advisoryEnv : RunEnv := envOf advisory { runId := "run-1", initialInput := .null, previousOutput := .null }

/-- A check that failed reads as nothing, in memory and rebuilt. -/
theorem reads_advisory : resolveStepResult advisoryEnv (rebuilt advisoryMemory) [] "lint" =
    resolveStepResult advisoryEnv advisoryMemory [] "lint" := by
  have hdrive : drive (engineWorld advisory) 100 (runWorkflow advisory "run-1" .null).code
      [{ outcome := .crashed "style" }] ((runWorkflow advisory "run-1" .null).memory []) =
      some (.ok (waitingOn [{ name := "approve" }]), [], advisoryMemory) := rfl
  obtain ⟨t, ht⟩ := drive_sound hdrive
  have hrecorded : advisoryAsked = recordedEvents (effectsOf t) := log_replay ht.2
  have hnone : ∀ key, lastCompletion advisoryAsked key = none :=
    fun key => lastCompletion_eq_none_iff.mpr (by simp [advisoryAsked, asking, RunEvent.completes, RunEvent.completion])
  have hlaunch : launch advisory [] (.run "run-1" .null) = .ok (runWorkflow advisory "run-1" .null) := rfl
  refine (reads_rebuilt committed_advisory hlaunch ht).1 ?_ advisoryEnv [] "lint"
  rw [← hrecorded]
  refine ⟨?_, ?_, fun _ _ _ => rfl⟩
  · intro key output ha
    simp [advisory, armIn, armAt] at ha
  · intro key _ _
    rw [List.nil_append, hnone]
    rfl

def triageMemory : RunMemory :=
  { stepOutputs := [(triagePath "first" "work", .null)], log := triageAsked }

def triageEnv : RunEnv := envOf triage { runId := "run-1", initialInput := .null, previousOutput := .null }

/-- An arm that has completed reads as nothing while the run waits, and as its output once rebuilt. -/
theorem triage_rereads_first : Committed triage ∧
    (∃ t, Executes (engineWorld triage) (runWorkflow triage "run-1" .null).code
      ((runWorkflow triage "run-1" .null).memory []) t (.ok (waitingOn (triagePath "second" "approve"))) triageMemory) ∧
    resolveStepResult triageEnv triageMemory [] "first" = .ok .undefined ∧
    resolveStepResult triageEnv (rebuilt triageMemory) [] "first" = .ok .null := by
  refine ⟨committed_triage, ?_, rfl, rfl⟩
  have hdrive : drive (engineWorld triage) 100 (runWorkflow triage "run-1" .null).code
      [{ outcome := .ok .null }] ((runWorkflow triage "run-1" .null).memory []) =
      some (.ok (waitingOn (triagePath "second" "approve")), [], triageMemory) := rfl
  exact drive_sound hdrive

end Sample

end KimchiWorkflows.Engine
