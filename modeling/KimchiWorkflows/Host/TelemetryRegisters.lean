import KimchiWorkflows.Lib.Registers
import KimchiWorkflows.Host.Telemetry

/-!
What an event says of each thing the mapper reads, and the mapper's state as what was said last.
-/

namespace KimchiWorkflows.Host.Telemetry

open KimchiWorkflows.Engine

variable {states : States} {runId : String} {path : NodePath}

def LoggedEvent.names (runId : String) (e : LoggedEvent) : Option String :=
  match e.event with
  | .runStarted _ workflowName _ => if e.runId = runId then some workflowName else none
  | _ => none

def LoggedEvent.opens (runId : String) (e : LoggedEvent) : Option String :=
  match e.event with
  | .runStarted _ _ _ => if e.runId = runId then some e.stamp else none
  | _ => none

def LoggedEvent.settles (runId : String) (path : NodePath) (e : LoggedEvent) : Bool :=
  match e.event with
  | .stepCompleted settled _ => e.runId = runId ∧ settled = path
  | .stepFailed settled _ => e.runId = runId ∧ settled = path
  | .stepCancelled settled => e.runId = runId ∧ settled = path
  | .runCompleted _ => e.runId = runId
  | .runCrashed _ _ => e.runId = runId
  | .runCancelled _ _ => e.runId = runId
  | _ => false

def LoggedEvent.starts (runId : String) (path : NodePath) (e : LoggedEvent) : Option (Option String) :=
  match e.event with
  | .stepStarted started _ => if e.runId = runId ∧ started = path then some (some e.stamp) else none
  | _ => if e.settles runId path then some none else none

def LoggedEvent.errs (runId : String) (path : NodePath) (e : LoggedEvent) :
    Option (Option AgentTurnErrorKind) :=
  match e.event with
  | .agentError failed _ kind _ _ _ => if e.runId = runId ∧ failed = path then some (some kind) else none
  | _ => if e.settles runId path then some none else none

theorem get_settle (change : RunTelemetryState → RunTelemetryState) (other : String) :
    Dict.get (settle states other change) runId =
      if runId = other then (Dict.get states runId).map change else Dict.get states runId := by
  by_cases h : runId = other
  · subst h
    cases hg : Dict.get states runId with
    | none => simp [settle, hg]
    | some state => simp [settle, hg]
  · cases hg : Dict.get states other with
    | none => simp [settle, hg, h]
    | some state => simp [settle, hg, h, Dict.get_set]

theorem get_learn_of_ne {e : LoggedEvent} (h : e.runId ≠ runId) :
    Dict.get (learn states e) runId = Dict.get states runId := by
  obtain ⟨other, stamp, event⟩ := e
  have hne : runId ≠ other := fun heq => h heq.symm
  cases event <;> simp [learn, get_settle, Dict.get_set, hne]

theorem silent_of_ne {e : LoggedEvent} (h : e.runId ≠ runId) (path : NodePath) :
    e.names runId = none ∧ e.opens runId = none ∧ e.starts runId path = none ∧ e.errs runId path = none := by
  obtain ⟨other, stamp, event⟩ := e
  have hne : other ≠ runId := h
  cases event <;>
    simp [LoggedEvent.names, LoggedEvent.opens, LoggedEvent.starts, LoggedEvent.errs, LoggedEvent.settles, hne]

@[simp] theorem stepStart_settleStep (state : RunTelemetryState) (settled : NodePath) :
    Dict.get (state.settleStep settled).stepStartedAt path =
      if settled = path then none else Dict.get state.stepStartedAt path := by
  by_cases h : settled = path
  · simp [RunTelemetryState.settleStep, Dict.get_restrict, h]
  · simp [RunTelemetryState.settleStep, Dict.get_restrict, h, Ne.symm h]

@[simp] theorem errorKind_settleStep (state : RunTelemetryState) (settled : NodePath) :
    Dict.get (state.settleStep settled).agentErrorKind path =
      if settled = path then none else Dict.get state.agentErrorKind path := by
  by_cases h : settled = path
  · simp [RunTelemetryState.settleStep, Dict.get_restrict, h]
  · simp [RunTelemetryState.settleStep, Dict.get_restrict, h, Ne.symm h]

@[simp] theorem identity_settleStep (state : RunTelemetryState) (settled : NodePath) :
    (state.settleStep settled).workflowName = state.workflowName ∧
      (state.settleStep settled).startedAt = state.startedAt := ⟨rfl, rfl⟩

@[simp] theorem settleRun_fields (state : RunTelemetryState) :
    state.settleRun.workflowName = state.workflowName ∧ state.settleRun.startedAt = state.startedAt ∧
      state.settleRun.stepStartedAt = [] ∧ state.settleRun.agentErrorKind = [] := ⟨rfl, rfl, rfl, rfl⟩

theorem workflowName_learn (states : States) (e : LoggedEvent) :
    workflowNameOf (learn states e) runId = (e.names runId).getD (workflowNameOf states runId) := by
  by_cases h : e.runId = runId
  · subst h
    obtain ⟨runId, stamp, event⟩ := e
    cases hg : Dict.get states runId <;>
      cases event <;> simp [learn, stateOf, workflowNameOf, LoggedEvent.names, get_settle, hg]
  · rw [workflowNameOf, get_learn_of_ne h, (silent_of_ne h []).1]
    rfl

theorem startedAt_learn (states : States) (e : LoggedEvent) :
    startedAtOf (learn states e) runId = (startedAtOf states runId).or (e.opens runId) := by
  by_cases h : e.runId = runId
  · subst h
    obtain ⟨runId, stamp, event⟩ := e
    cases hg : Dict.get states runId <;>
      cases event <;> simp [learn, stateOf, startedAtOf, LoggedEvent.opens, get_settle, hg]
  · rw [startedAtOf, get_learn_of_ne h, (silent_of_ne h []).2.1, Option.or_none]
    rfl

theorem stepStart_learn (states : States) (e : LoggedEvent) :
    stepStartOf (learn states e) runId path = (e.starts runId path).getD (stepStartOf states runId path) := by
  by_cases h : e.runId = runId
  · subst h
    obtain ⟨runId, stamp, event⟩ := e
    cases hg : Dict.get states runId <;>
      cases event <;> simp [learn, stateOf, stepStartOf, LoggedEvent.starts, LoggedEvent.settles, get_settle,
        Dict.get_set, hg] <;> split_ifs <;> simp_all
  · rw [stepStartOf, get_learn_of_ne h, (silent_of_ne h path).2.2.1]
    rfl

theorem errorKind_learn (states : States) (e : LoggedEvent) :
    errorKindOf (learn states e) runId path = (e.errs runId path).getD (errorKindOf states runId path) := by
  by_cases h : e.runId = runId
  · subst h
    obtain ⟨runId, stamp, event⟩ := e
    cases hg : Dict.get states runId <;>
      cases event <;> simp [learn, stateOf, errorKindOf, LoggedEvent.errs, LoggedEvent.settles, get_settle,
        Dict.get_set, hg] <;> split_ifs <;> simp_all
  · rw [errorKindOf, get_learn_of_ne h, (silent_of_ne h path).2.2.2]
    rfl

end KimchiWorkflows.Host.Telemetry
