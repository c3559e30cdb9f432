import Mathlib
import KimchiWorkflows.Engine.CallStatus
import KimchiWorkflows.Host.Completions
import KimchiWorkflows.Host.Naming
import KimchiWorkflows.Lib.Stepping

/-!
The commands that name a run: how the name is resolved, what is done to the runs that are recorded, and
what a sequence of command lines leaves of them.
-/

namespace KimchiWorkflows.Host.CommandLines

open Json KimchiWorkflows.Engine Completions Stepping

inductive RunExecutionLeaseState where
  | owned | live | dead | foreign
  deriving DecidableEq

structure RunExecutionLease where
  host : Text
  pid : Nat
  state : RunExecutionLeaseState

structure RunEntry where
  runId : Text
  events : List RunEvent
  startedAt : Text
  lease : Option RunExecutionLease := none

def stateOf : RunStatus → StepState
  | .inProgress => .inProgress
  | .blocked => .blocked
  | .completed => .completed
  | .cancelled => .cancelled
  | .crashed => .crashed

def currentStepName (status : RunStatus) (states : StepStates) : Option NodePath :=
  if status = .completed then none else (states.find? (fun entry => entry.2 = stateOf status)).map Prod.fst

def startedBy : RunEvent → Option (String × String)
  | .runStarted runId workflowName _ => some (runId, workflowName)
  | _ => none

def summarizeRun (entry : RunEntry) : Option RunSummary :=
  (entry.events.findSome? startedBy).bind (fun started =>
    (deriveRunStatus entry.events).map (fun status =>
      { runId := started.1.toList
        workflowName := started.2.toList
        status := status
        startedAt := entry.startedAt
        currentStep := (currentStepName status (deriveStepStates entry.events)).map
          (fun key => (formatPath key).toList) }))

inductive RunIdMatch where
  | ok (runId : Text)
  | unknown
  | ambiguous (candidates : List Text)

def pick : List Text → Option RunIdMatch
  | [] => none
  | [runId] => some (.ok runId)
  | candidates => some (.ambiguous candidates)

/-- An exact id, or the one run of a tail, or the one run of a prefix. -/
def matchRunId (known : List Text) (arg : Text) : RunIdMatch :=
  if arg = [] then .unknown
  else if known.contains arg then .ok arg
  else ((pick (known.filter (fun id => runIdHash (String.ofList id) = arg))).or
    (pick (known.filter (fun id => arg.isPrefixOf id)))).getD .unknown

inductive Outcome where
  | refused (text : Text)
  | shown (runId : Text)
  | resumed (runId : Text) (action : ResumeAction)
  | aborted (runId : Text)
  | cancelled (runId : Text)
  | deleted (runId : Text)
  | elsewhere (command : Completions.Command)

section Commands

variable (localeOrder : Text → Text → Bool) (active : List Text)

def listRuns (runs : List RunEntry) : List RunSummary :=
  (runs.filterMap summarizeRun).mergeSort (fun a b => localeOrder a.startedAt b.startedAt)

def resolveRunRef (runs : List RunEntry) (arg verb : Text) : Except Text Text :=
  match matchRunId ((listRuns localeOrder runs).map RunSummary.runId) arg with
  | .ok runId => .ok runId
  | .ambiguous candidates =>
    .error ("workflow: \"".toList ++ arg ++ "\" matches ".toList ++ (toString candidates.length).toList ++
      " runs (".toList ++ ", ".toList.intercalate candidates ++
      "); use a longer prefix or the full run-id.".toList)
  | .unknown => .error ("workflow: no run \"".toList ++ arg ++ "\" to ".toList ++ verb ++ ['.'])

def entryOf (runs : List RunEntry) (runId : Text) : Option RunEntry :=
  runs.find? (fun entry => decide (entry.runId = runId))

def loadEvents (runs : List RunEntry) (runId : Text) : List RunEvent :=
  ((entryOf runs runId).map RunEntry.events).getD []

def inspect (runs : List RunEntry) (runId : Text) : Option RunExecutionLease :=
  (entryOf runs runId).bind RunEntry.lease

def onRun (runs : List RunEntry) (runId : Text) (change : RunEntry → RunEntry) : List RunEntry :=
  runs.map (fun entry => if entry.runId = runId then change entry else entry)

def exited (lease : RunExecutionLease) : String :=
  "workflow executor PID " ++ toString lease.pid ++ " on " ++ String.ofList lease.host ++
    " exited without recording a terminal event"

def disappeared : String := "workflow executor disappeared without an execution lease or terminal event"

/-- A run in progress whose owner is dead or gone is recorded as crashed; a dead owner's lease is removed. -/
def reconciled (entry : RunEntry) : RunEntry :=
  if active.contains entry.runId then entry
  else
    match entry.lease with
    | none =>
      if deriveRunStatus entry.events = some .inProgress then
        { entry with events := entry.events ++ [.runCrashed none disappeared] }
      else entry
    | some lease =>
      if lease.state = .dead then
        if deriveRunStatus entry.events = some .inProgress then
          { entry with events := entry.events ++ [.runCrashed none (exited lease)], lease := none }
        else { entry with lease := none }
      else entry

def reconcileAbandonedRun (runs : List RunEntry) (runId : Text) : List RunEntry :=
  onRun runs runId (reconciled active)

def ownedBy (runId how : Text) (lease : RunExecutionLease) (hint : Text) : Text :=
  "workflow: run ".toList ++ runId ++ how ++ " PID ".toList ++ (toString lease.pid).toList ++
    " on ".toList ++ lease.host ++ hint

def noRun (runId verb : Text) : Text := "workflow: no run \"".toList ++ runId ++ "\" to ".toList ++ verb ++ ['.']

def showRun (runs : List RunEntry) (runId : Text) : Outcome × List RunEntry :=
  if (loadEvents runs runId).isEmpty then
    (.refused ("workflow: run \"".toList ++ runId ++ "\" has no recorded events.".toList), runs)
  else (.shown runId, runs)

def handleStatus (runs : List RunEntry) (runRef : Option Text) : Outcome × List RunEntry :=
  match runRef with
  | some runRef =>
    match resolveRunRef localeOrder runs runRef "show".toList with
    | .error text => (.refused text, runs)
    | .ok runId => showRun runs runId
  | none =>
    match active.eraseDups with
    | [] => (.refused "workflow: no run is executing; pass a run-id to show a recorded one.".toList, runs)
    | [runId] => showRun runs runId
    | ids =>
      (.refused ("workflow: ".toList ++ (toString ids.length).toList ++ " runs are executing (".toList ++
        ", ".toList.intercalate ids ++ "); pass a run-id to show one.".toList), runs)

def handleResume (runs : List RunEntry) (runRef : Text) : Outcome × List RunEntry :=
  match resolveRunRef localeOrder runs runRef "resume".toList with
  | .error text => (.refused text, runs)
  | .ok runId =>
    let runs := reconcileAbandonedRun active runs runId
    match deriveRunStatus (loadEvents runs runId), inspect runs runId with
    | none, _ => (.refused ("workflow: run \"".toList ++ runId ++ "\" has no recorded events.".toList), runs)
    | some _, some lease =>
      (.refused (ownedBy runId " is still owned by".toList lease
        "; wait for that execution to settle before resuming it.".toList), runs)
    | some status, none =>
      match resumeAction status with
      | .error reason =>
        (.refused ("workflow: cannot resume run ".toList ++ runId ++ ": ".toList ++ reason.toList ++ ['.']), runs)
      | action => (.resumed runId action, runs)

/-- The run that a bare cancel stops: the only one that executes here, or else the only blocked one. -/
def soleBlockedRun (runs : List RunEntry) : Option Text :=
  match (listRuns localeOrder runs).filter (fun run => run.status = .blocked) with
  | [run] => some run.runId
  | _ => none

def coldCancel (runs : List RunEntry) (runId : Text) : Outcome × List RunEntry :=
  let runs := reconcileAbandonedRun active runs runId
  match deriveRunStatus (loadEvents runs runId), inspect runs runId with
  | none, _ => (.refused (noRun runId "cancel".toList), runs)
  | some status, lease =>
    if status = .cancelled then (.refused ("workflow: run ".toList ++ runId ++ " is already cancelled.".toList), runs)
    else
      match lease with
      | some lease =>
        (.refused (ownedBy runId " is owned by".toList lease "; cancel it from that runner.".toList), runs)
      | none =>
        if status = .blocked then
          (.cancelled runId, onRun runs runId (fun entry =>
            { entry with events := entry.events ++ [.runCancelled none (some .command)] }))
        else
          (.refused ("workflow: run ".toList ++ runId ++ " is ".toList ++ statusText status ++
            "; only its executing runner or a blocked run can cancel it.".toList), runs)

def handleCancel (runs : List RunEntry) (runRef : Option Text) : Outcome × List RunEntry :=
  match runRef with
  | some runRef =>
    if active.contains runRef then (.aborted runRef, runs)
    else
      match resolveRunRef localeOrder runs runRef "cancel".toList with
      | .error text => (.refused text, runs)
      | .ok runId => if active.contains runId then (.aborted runId, runs) else coldCancel active runs runId
  | none =>
    match active.eraseDups with
    | [runId] => (.aborted runId, runs)
    | [] =>
      match soleBlockedRun localeOrder runs with
      | some runId => coldCancel active runs runId
      | none =>
        (.refused ("workflow: nothing to cancel — no local run is executing and no single blocked run is ".toList ++
          "available. Pass a run-id.".toList), runs)
    | ids =>
      (.refused ("workflow: ".toList ++ (toString ids.length).toList ++ " runs are executing (".toList ++
        ", ".toList.intercalate ids ++ "); pass a run-id to cancel one.".toList), runs)

/-- Unlike the other commands it reconciles a run whoever executes it. -/
def handleDelete (runs : List RunEntry) (runRef : Text) : Outcome × List RunEntry :=
  match resolveRunRef localeOrder runs runRef "delete".toList with
  | .error text => (.refused text, runs)
  | .ok runId =>
    let runs := reconcileAbandonedRun [] runs runId
    match deriveRunStatus (loadEvents runs runId) with
    | none => (.refused (noRun runId "delete".toList), runs)
    | some status =>
      if isLiveRun status then
        (.refused ("workflow: run ".toList ++ runId ++ " is ".toList ++ statusText status ++
          "; cancel it first (\"/workflow cancel ".toList ++ runId ++ "\"), then delete.".toList), runs)
      else
        match inspect runs runId with
        | some lease =>
          (.refused (ownedBy runId " is still settling under".toList lease
            "; wait for its execution to stop before deleting it.".toList), runs)
        | none => (.deleted runId, runs.filter (fun entry => decide (entry.runId ≠ runId)))

def perform (runs : List RunEntry) : Completions.Command → Outcome × List RunEntry
  | .status runRef => handleStatus localeOrder active runs runRef
  | .resume runRef => handleResume localeOrder active runs runRef
  | .cancel runRef => handleCancel localeOrder active runs runRef
  | .delete runRef => handleDelete localeOrder runs runRef
  | command => (.elsewhere command, runs)

end Commands

/-- Nobody holds the run: it has no lease, or a dead owner's. -/
def Free (entry : RunEntry) : Prop := ∀ lease, entry.lease = some lease → lease.state = .dead

/-- A directory of runs: each log names its own run, and the runs that execute here are owned. -/
structure Sound (active : List Text) (runs : List RunEntry) : Prop where
  distinct : (runs.map RunEntry.runId).Nodup
  named : ∀ entry ∈ runs, ∀ summary, summarizeRun entry = some summary → summary.runId = entry.runId
  typed : ∀ entry ∈ runs, OneWord entry.runId
  owned : ∀ entry ∈ runs, entry.runId ∈ active → ∃ lease, entry.lease = some lease ∧ lease.state = .owned

/-- The command of a verb has done on a run what the verb says. -/
def Done (verb runId : Text) : Outcome → Prop
  | .shown done => verb = status.name ∧ done = runId
  | .resumed done _ => verb = resume.name ∧ done = runId
  | .aborted done => verb = cancel.name ∧ done = runId
  | .cancelled done => verb = cancel.name ∧ done = runId
  | .deleted done => verb = delete.name ∧ done = runId
  | _ => False

/-- When a verb can be done on a run of a status. -/
def Admits (active : List Text) (verb : Text) (entry : RunEntry) (status : RunStatus) : Prop :=
  if verb = Completions.status.name then True
  else if verb = resume.name then Free entry ∧ status ≠ .completed
  else if verb = cancel.name then entry.runId ∈ active ∨ Free entry ∧ status = .blocked
  else Free entry ∧ status ≠ .blocked

section Resolving

variable {localeOrder : Text → Text → Bool} {active known : List Text} {runs : List RunEntry} {entry : RunEntry}
  {id verb : Text} {summary : RunSummary} {change : RunEntry → RunEntry} {log : List RunEvent}

theorem matchRunId_exact (hne : id ≠ []) (h : id ∈ known) : matchRunId known id = .ok id := by
  rw [matchRunId, if_neg hne, if_pos (List.contains_iff_mem.mpr h)]

theorem entryOf_mem (hd : (runs.map RunEntry.runId).Nodup) (h : entry ∈ runs) :
    entryOf runs entry.runId = some entry := by
  induction runs with
  | nil => simp at h
  | cons first rest ih =>
    obtain ⟨hfirst, hrest⟩ := List.nodup_cons.mp hd
    unfold entryOf at ih ⊢
    obtain rfl | hm := List.mem_cons.mp h
    · rw [List.find?_cons_of_pos (by simp)]
    · have hne : first.runId ≠ entry.runId := by
        intro he
        exact hfirst (he ▸ List.mem_map_of_mem hm)
      rw [List.find?_cons_of_neg (by simpa using hne)]
      exact ih hrest hm

theorem entryOf_onRun (hc : ∀ entry, (change entry).runId = entry.runId) :
    entryOf (onRun runs id change) id = (entryOf runs id).map change := by
  induction runs with
  | nil => rfl
  | cons first rest ih =>
    unfold entryOf onRun at ih ⊢
    rw [List.map_cons]
    by_cases hid : first.runId = id
    · rw [if_pos hid, List.find?_cons_of_pos (by simpa [hc] using hid), List.find?_cons_of_pos (by simpa using hid)]
      rfl
    · rw [if_neg hid, List.find?_cons_of_neg (by simpa using hid), List.find?_cons_of_neg (by simpa using hid)]
      exact ih

theorem resolve_exact (hs : Sound active runs) (he : entry ∈ runs) (hsum : summarizeRun entry = some summary)
    (verb : Text) : resolveRunRef localeOrder runs entry.runId verb = .ok entry.runId := by
  have hknown : entry.runId ∈ (listRuns localeOrder runs).map RunSummary.runId := by
    refine List.mem_map.mpr ⟨summary, ?_, hs.named entry he summary hsum⟩
    exact List.mem_mergeSort.mpr (List.mem_filterMap.mpr ⟨entry, he, hsum⟩)
  rw [resolveRunRef, matchRunId_exact (hs.typed entry he).1 hknown]

theorem status_of_summary (h : summarizeRun entry = some summary) :
    deriveRunStatus entry.events = some summary.status := by
  obtain ⟨started, _, hs⟩ := Option.bind_eq_some_iff.mp h
  obtain ⟨status, hstatus, rfl⟩ := Option.map_eq_some_iff.mp hs
  exact hstatus

theorem status_crashed (h : deriveRunStatus log = some .inProgress) (error : String) :
    deriveRunStatus (log ++ [.runCrashed none error]) = some .crashed := by
  have hstarted : log.any RunEvent.isRunStarted = true := by
    by_contra hn
    rw [deriveRunStatus, if_neg hn] at h
    cases h
  apply deriveRunStatus_closed
  · rw [List.any_append, hstarted, Bool.true_or]
  · exact closed_of_terminal (.inl rfl)
  · rw [lastTerminal_append]
    rfl

/-- All that reconciling can do to a run: it lets the lease go, or records what became of it at the end of the log. -/
theorem reconciled_eq (active : List Text) (entry : RunEntry) :
    ∃ added lease, reconciled active entry = { entry with events := entry.events ++ added, lease := lease } := by
  have hsame : ∃ added lease, entry = { entry with events := entry.events ++ added, lease := lease } :=
    ⟨[], entry.lease, by rw [List.append_nil]⟩
  unfold reconciled
  by_cases ha : active.contains entry.runId = true
  · rw [if_pos ha]
    exact hsame
  · rw [if_neg ha]
    cases entry.lease with
    | none =>
      simp only
      split_ifs
      · exact ⟨[.runCrashed none disappeared], none, rfl⟩
      · exact hsame
    | some lease =>
      simp only
      split_ifs
      · exact ⟨[.runCrashed none (exited lease)], none, rfl⟩
      · exact ⟨[], none, by rw [List.append_nil]⟩
      · exact hsame

theorem reconciled_runId (active : List Text) (entry : RunEntry) : (reconciled active entry).runId = entry.runId := by
  obtain ⟨added, lease, h⟩ := reconciled_eq active entry
  rw [h]

theorem reconciled_free (hf : Free entry) (ha : entry.runId ∉ active) :
    (reconciled active entry).lease = none ∧
      deriveRunStatus (reconciled active entry).events =
        if deriveRunStatus entry.events = some .inProgress then some .crashed else deriveRunStatus entry.events := by
  rw [reconciled, if_neg (fun h => ha (List.contains_iff_mem.mp h))]
  cases hl : entry.lease with
  | none =>
    simp only
    split_ifs with hp
    · exact ⟨rfl, status_crashed hp _⟩
    · exact ⟨hl, rfl⟩
  | some lease =>
    simp only [hf lease hl, if_true]
    split_ifs with hp
    · exact ⟨rfl, status_crashed hp _⟩
    · exact ⟨rfl, rfl⟩

theorem reconciled_held (h : ¬ Free entry) :
    reconciled active entry = entry ∧ ∃ lease, entry.lease = some lease := by
  unfold Free at h
  push Not at h
  obtain ⟨lease, hl, hn⟩ := h
  refine ⟨?_, lease, hl⟩
  rw [reconciled, hl]
  simp [hn]

theorem not_free_of_active (hs : Sound active runs) (he : entry ∈ runs) (ha : entry.runId ∈ active) : ¬ Free entry := by
  intro hf
  obtain ⟨lease, hl, ho⟩ := hs.owned entry he ha
  have := hf lease hl
  rw [ho] at this
  cases this

theorem entryOf_reconciled (hd : (runs.map RunEntry.runId).Nodup) (he : entry ∈ runs) (here : List Text) :
    entryOf (reconcileAbandonedRun here runs entry.runId) entry.runId = some (reconciled here entry) := by
  rw [reconcileAbandonedRun, entryOf_onRun (reconciled_runId here), entryOf_mem hd he]
  rfl

theorem shown_of_summary (hs : Sound active runs) (he : entry ∈ runs) (hsum : summarizeRun entry = some summary) :
    (handleStatus localeOrder active runs (some entry.runId)).1 = .shown entry.runId := by
  have hevents : loadEvents runs entry.runId = entry.events := by
    rw [loadEvents, entryOf_mem hs.distinct he]
    rfl
  have hne : entry.events.isEmpty = false := by
    cases hev : entry.events with
    | nil => simp [summarizeRun, hev] at hsum
    | cons event rest => rfl
  simp only [handleStatus, showRun, resolve_exact hs he hsum, hevents, hne, Bool.false_eq_true, if_false]

theorem found_reconciled (hd : (runs.map RunEntry.runId).Nodup) (he : entry ∈ runs) (here : List Text) :
    loadEvents (reconcileAbandonedRun here runs entry.runId) entry.runId = (reconciled here entry).events ∧
      inspect (reconcileAbandonedRun here runs entry.runId) entry.runId = (reconciled here entry).lease := by
  rw [loadEvents, inspect, entryOf_reconciled hd he]
  exact ⟨rfl, rfl⟩

theorem resumed_iff (hs : Sound active runs) (he : entry ∈ runs) (hsum : summarizeRun entry = some summary) :
    (∃ action, (handleResume localeOrder active runs entry.runId).1 = .resumed entry.runId action) ↔
      Free entry ∧ summary.status ≠ .completed := by
  obtain ⟨hevents, hlease⟩ := found_reconciled hs.distinct he active
  have hstatus := status_of_summary hsum
  simp only [handleResume, resolve_exact hs he hsum, hevents, hlease]
  by_cases hf : Free entry
  · obtain ⟨hl, hst⟩ := reconciled_free hf (fun ha => not_free_of_active hs he ha hf)
    rw [hl, hst, hstatus]
    cases summary.status <;> simp [resumeAction, hf]
  · obtain ⟨hsame, lease, hl⟩ : reconciled active entry = entry ∧ ∃ lease, entry.lease = some lease := reconciled_held hf
    simp [hsame, hl, hstatus, hf]

theorem deleted_iff (hs : Sound active runs) (he : entry ∈ runs) (hsum : summarizeRun entry = some summary) :
    (handleDelete localeOrder runs entry.runId).1 = .deleted entry.runId ↔
      Free entry ∧ summary.status ≠ .blocked := by
  obtain ⟨hevents, hlease⟩ := found_reconciled hs.distinct he []
  have hstatus := status_of_summary hsum
  simp only [handleDelete, resolve_exact hs he hsum, hevents, hlease]
  by_cases hf : Free entry
  · obtain ⟨hl, hst⟩ := reconciled_free hf (List.not_mem_nil (a := entry.runId))
    rw [hl, hst, hstatus]
    cases summary.status <;> simp [isLiveRun, hf]
  · obtain ⟨hsame, lease, hl⟩ : reconciled [] entry = entry ∧ ∃ lease, entry.lease = some lease := reconciled_held hf
    cases hlive : isLiveRun summary.status <;> simp [hsame, hl, hstatus, hf, hlive]

theorem stopped_iff (hs : Sound active runs) (he : entry ∈ runs) (hsum : summarizeRun entry = some summary) :
    (handleCancel localeOrder active runs (some entry.runId)).1 = .aborted entry.runId ∨
      (handleCancel localeOrder active runs (some entry.runId)).1 = .cancelled entry.runId ↔
        entry.runId ∈ active ∨ Free entry ∧ summary.status = .blocked := by
  by_cases ha : entry.runId ∈ active
  · simp [handleCancel, ha]
  obtain ⟨hevents, hlease⟩ := found_reconciled hs.distinct he active
  have hstatus := status_of_summary hsum
  simp only [handleCancel, List.contains_iff_mem, ha, if_false, resolve_exact hs he hsum, coldCancel, hevents, hlease, false_or]
  by_cases hf : Free entry
  · obtain ⟨hl, hst⟩ := reconciled_free hf ha
    rw [hl, hst, hstatus]
    cases summary.status <;> simp [hf]
  · obtain ⟨hsame, lease, hl⟩ : reconciled active entry = entry ∧ ∃ lease, entry.lease = some lease := reconciled_held hf
    by_cases hc : summary.status = .cancelled <;> simp [hsame, hl, hstatus, hf, hc]

variable {outcome : Outcome}

theorem done_status : Done Completions.status.name id outcome ↔ outcome = .shown id := by
  cases outcome <;> simp [Done]

theorem done_resume : Done resume.name id outcome ↔ ∃ action, outcome = .resumed id action := by
  cases outcome <;> simp [Done]

theorem done_cancel : Done cancel.name id outcome ↔ outcome = .aborted id ∨ outcome = .cancelled id := by
  cases outcome <;> simp [Done]

theorem done_delete : Done delete.name id outcome ↔ outcome = .deleted id := by
  cases outcome <;> simp [Done]

/-- A verb with a recorded run behind it, as it is completed or typed, is done on that run exactly where
nobody else holds the run and its status admits the verb. A run whose owner is dead is held by nobody: it
counts as crashed, whatever its log says. -/
theorem typed_verb_done_iff {verb : Verb} (hs : Sound active runs) (he : entry ∈ runs)
    (hsum : summarizeRun entry = some summary) (hverb : verb ∈ runVerbs) :
    Done verb.name entry.runId
      (perform localeOrder active runs (Completions.dispatch (verb.name ++ ' ' :: entry.runId))).1 ↔
    Admits active verb.name entry summary.status := by
  rw [dispatch_ref hverb (hs.typed entry he)]
  obtain rfl | rfl | rfl | rfl := mem_runVerbs.mp hverb
  · rw [done_status]
    exact iff_of_true (shown_of_summary hs he hsum) (by simp [Admits])
  · rw [done_resume]
    exact (resumed_iff hs he hsum).trans (by simp [Admits])
  · rw [done_cancel]
    exact (stopped_iff hs he hsum).trans (by simp [Admits])
  · rw [done_delete]
    exact (deleted_iff hs he hsum).trans (by simp [Admits])

/-- Of a run that nobody holds, completion offers each verb just the runs it can be done on, but where the
run was abandoned in progress: there it offers what is refused, and does not offer what would be done. -/
theorem admits_iff_accepts {verb : Verb} {status : RunStatus} (hf : Free entry) (ha : entry.runId ∉ active)
    (hverb : verb ∈ runVerbs) :
    Admits active verb.name entry status ↔
      (Completions.accepts verb.name status = true ↔ status ≠ .inProgress ∨ verb.name = Completions.status.name) := by
  obtain rfl | rfl | rfl | rfl := mem_runVerbs.mp hverb
  all_goals cases status <;> simp [Admits, Completions.accepts, hf, ha, isLiveRun, resumeAction, isError]

def abandonedId : Text := "workflow-review-3f2a1c4b".toList

theorem oneWord_abandoned : OneWord "workflow-review-3f2a1c4b".toList := ⟨by simp, by simp [isSpace]⟩

def abandonedRun : RunEntry where
  runId := abandonedId
  events := [.runStarted "workflow-review-3f2a1c4b" "review" .null]
  startedAt := "2026".toList
  lease := some ⟨"host".toList, 7, .dead⟩

def abandonedSummary : RunSummary where
  runId := abandonedId
  workflowName := "review".toList
  status := .inProgress
  startedAt := "2026".toList
  currentStep := none

theorem summary_abandoned : summarizeRun abandonedRun = some abandonedSummary := rfl

theorem sound_abandoned : Sound [] [abandonedRun] where
  distinct := by simp
  named := by
    intro entry he summary hsum
    obtain rfl := List.mem_singleton.mp he
    rw [summary_abandoned] at hsum
    obtain rfl := Option.some.inj hsum
    rfl
  typed := by
    intro entry he
    obtain rfl := List.mem_singleton.mp he
    exact oneWord_abandoned
  owned := by
    intro entry he ha
    cases ha

theorem free_abandoned : Free abandonedRun := by
  intro lease hl
  obtain rfl := Option.some.inj hl
  rfl

theorem typed_verb_done_iff_abandoned :
    Done resume.name abandonedRun.runId
      (perform (fun a b => decide (a ≤ b)) [] [abandonedRun]
        (Completions.dispatch (resume.name ++ ' ' :: abandonedRun.runId))).1 := by
  apply (typed_verb_done_iff sound_abandoned List.mem_cons_self summary_abandoned
    (mem_runVerbs.mpr (.inr (.inl rfl)))).mpr
  have hstatus : abandonedSummary.status ≠ .completed := nofun
  simp [Admits, free_abandoned, hstatus]

end Resolving

/-- A run that was deleted: by which line, and the runs there were when the line was resolved, when it loaded the
log, and when it looked for a lease. -/
structure Removal where
  args : Text
  runId : Text
  asked : List RunEntry
  looked : List RunEntry := []
  inspected : List RunEntry := []

inductive Deletion where
  | idle
  | resolved (removal : Removal)
  | stopped (removal : Removal)
  | free (removal : Removal)

structure Desk where
  runs : List RunEntry := []
  deletions : Nat → Deletion := fun _ => .idle
  removals : List Removal := []

/-- A line that deletes goes on, or something else happens to a run: it begins, an event is appended to its log, its
lease is taken or given up. All that executions and other lines do to the runs is of the latter kind. -/
inductive Move where
  | delete (k : Nat) (args : Text)
  | look (k : Nat)
  | inspect (k : Nat)
  | remove (k : Nat)
  | begin (entry : RunEntry)
  | record (runId : Text) (event : RunEvent)
  | lease (runId : Text) (lease : Option RunExecutionLease)

def Desk.put (desk : Desk) (k : Nat) (deletion : Deletion) : Desk :=
  { desk with deletions := Function.update desk.deletions k deletion }

/-- What a line that deletes does once it has loaded the log. -/
def lookedAt (runs : List RunEntry) (removal : Removal) : Deletion :=
  match deriveRunStatus (loadEvents runs removal.runId) with
  | none => .idle
  | some status => if isLiveRun status then .idle else .stopped { removal with looked := runs }

/-- An event appended to a log that is not there makes a new one. -/
def appended (runs : List RunEntry) (runId : Text) (event : RunEvent) : List RunEntry :=
  if (runs.map RunEntry.runId).contains runId then
    onRun runs runId (fun entry => { entry with events := entry.events ++ [event] })
  else runs ++ [{ runId := runId, events := [event], startedAt := [] }]

def step (localeOrder : Text → Text → Bool) (desk : Desk) : Move → Option Desk
  | .delete k args =>
    match desk.deletions k, Completions.dispatch args with
    | .idle, .delete runRef =>
      match resolveRunRef localeOrder desk.runs runRef "delete".toList with
      | .ok runId => some (desk.put k (.resolved { args := args, runId := runId, asked := desk.runs }))
      | .error _ => some desk
    | _, _ => none
  | .look k =>
    match desk.deletions k with
    | .resolved removal => some (desk.put k (lookedAt desk.runs removal))
    | _ => none
  | .inspect k =>
    match desk.deletions k with
    | .stopped removal =>
      match inspect desk.runs removal.runId with
      | some _ => some (desk.put k .idle)
      | none => some (desk.put k (.free { removal with inspected := desk.runs }))
    | _ => none
  | .remove k =>
    match desk.deletions k with
    | .free removal =>
      some { desk.put k .idle with
        runs := desk.runs.filter (fun entry => decide (entry.runId ≠ removal.runId))
        removals := desk.removals ++ [removal] }
    | _ => none
  | .begin entry =>
    if (desk.runs.map RunEntry.runId).contains entry.runId then none else some { desk with runs := desk.runs ++ [entry] }
  | .record runId event => some { desk with runs := appended desk.runs runId event }
  | .lease runId lease =>
    some { desk with runs := onRun desk.runs runId (fun entry => { entry with lease := lease }) }

/-- The same run, its log at most longer. -/
def Grown (entry entry' : RunEntry) : Prop := entry'.runId = entry.runId ∧ entry.events <+: entry'.events

/-- The line named the run, saw it stopped when it loaded its log, and saw no lease of it after that. -/
structure Warranted (localeOrder : Text → Text → Bool) (entry : RunEntry) (removal : Removal) : Prop where
  named : ∃ runRef, Completions.dispatch removal.args = .delete runRef ∧
    resolveRunRef localeOrder removal.asked runRef "delete".toList = .ok entry.runId
  stopped : ∃ entry' ∈ removal.looked, Grown entry entry' ∧
    ∃ status, deriveRunStatus entry'.events = some status ∧ isLiveRun status = false
  free : ∃ entry' ∈ removal.inspected, Grown entry entry' ∧ entry'.lease = none

section Histories

variable {localeOrder : Text → Text → Bool} {active : List Text} {runs runs' : List RunEntry} {entry : RunEntry}
  {id : Text} {change : RunEntry → RunEntry} {start desk desk' : Desk} {move : Move} {moves : List Move} {k : Nat}
  {removal : Removal}

theorem Grown.refl (entry : RunEntry) : Grown entry entry := ⟨rfl, List.prefix_refl _⟩

theorem Grown.trans {entry' entry'' : RunEntry} (h : Grown entry entry') (h' : Grown entry' entry'') :
    Grown entry entry'' :=
  ⟨h'.1.trans h.1, h.2.trans h'.2⟩

/-- The run is there, its log at most longer than it was. -/
def Kept (entry : RunEntry) (runs : List RunEntry) : Prop := ∃ entry' ∈ runs, Grown entry entry'

theorem Kept.onRun (h : Kept entry runs) (hc : ∀ entry, Grown entry (change entry)) :
    Kept entry (onRun runs id change) := by
  obtain ⟨entry', he, hg⟩ := h
  refine ⟨_, List.mem_map_of_mem he, ?_⟩
  split_ifs
  · exact hg.trans (hc entry')
  · exact hg

theorem ids_onRun (hc : ∀ entry, Grown entry (change entry)) :
    (onRun runs id change).map RunEntry.runId = runs.map RunEntry.runId := by
  unfold onRun
  rw [List.map_map]
  apply List.map_congr_left
  intro entry _
  simp only [Function.comp_apply]
  split_ifs
  · exact (hc entry).1
  · rfl

theorem grown_event (event : RunEvent) (entry : RunEntry) :
    Grown entry { entry with events := entry.events ++ [event] } := ⟨rfl, List.prefix_append _ _⟩

theorem grown_lease (lease : Option RunExecutionLease) (entry : RunEntry) : Grown entry { entry with lease := lease } :=
  ⟨rfl, List.prefix_refl _⟩

theorem nodup_concat (h : (runs.map RunEntry.runId).Nodup) (hn : entry.runId ∉ runs.map RunEntry.runId) :
    ((runs ++ [entry]).map RunEntry.runId).Nodup := by
  rw [List.map_append, List.nodup_append]
  refine ⟨h, by simp, ?_⟩
  rintro a ha b hb rfl
  simp only [List.map_cons, List.map_nil, List.mem_singleton] at hb
  exact hn (hb ▸ ha)

theorem Kept.appended (h : Kept entry runs) (runId : Text) (event : RunEvent) :
    Kept entry (appended runs runId event) := by
  unfold CommandLines.appended
  split_ifs
  · exact h.onRun (grown_event event)
  · obtain ⟨entry', he, hg⟩ := h
    exact ⟨entry', List.mem_append_left _ he, hg⟩

theorem nodup_appended (h : (runs.map RunEntry.runId).Nodup) (runId : Text) (event : RunEvent) :
    ((appended runs runId event).map RunEntry.runId).Nodup := by
  unfold appended
  split_ifs with hc
  · rw [ids_onRun (grown_event event)]
    exact h
  · exact nodup_concat h (fun hm => hc (List.contains_iff_mem.mpr hm))

/-- What a line that deletes relies on about a run that it may delete. -/
def Relies (localeOrder : Text → Text → Bool) (entry : RunEntry) : Deletion → Prop
  | .idle => True
  | .resolved removal => ∃ runRef, Completions.dispatch removal.args = .delete runRef ∧
      resolveRunRef localeOrder removal.asked runRef "delete".toList = .ok removal.runId
  | .stopped removal => (∃ runRef, Completions.dispatch removal.args = .delete runRef ∧
      resolveRunRef localeOrder removal.asked runRef "delete".toList = .ok removal.runId) ∧
      (removal.runId = entry.runId → ∃ entry' ∈ removal.looked, Grown entry entry' ∧
        ∃ status, deriveRunStatus entry'.events = some status ∧ isLiveRun status = false)
  | .free removal => removal.runId = entry.runId → Warranted localeOrder entry removal

/-- A run that is there, and what the lines under way rely on about it. -/
structure Standing (localeOrder : Text → Text → Bool) (entry : RunEntry) (desk : Desk) : Prop where
  distinct : (desk.runs.map RunEntry.runId).Nodup
  kept : Kept entry desk.runs
  relies : ∀ k, Relies localeOrder entry (desk.deletions k)

theorem standing_put {deletion : Deletion} (h : Standing localeOrder entry desk)
    (hd : Relies localeOrder entry deletion) : Standing localeOrder entry (desk.put k deletion) := by
  refine ⟨h.distinct, h.kept, fun j => ?_⟩
  simp only [Desk.put, Function.update_apply]
  split_ifs
  · exact hd
  · exact h.relies j

/-- The entry a look finds under the id of a run that is there is that run's. -/
theorem entryOf_kept (h : Standing localeOrder entry desk) :
    ∃ entry', entryOf desk.runs entry.runId = some entry' ∧ entry' ∈ desk.runs ∧ Grown entry entry' := by
  obtain ⟨entry', he, hg⟩ := h.kept
  have hfound := entryOf_mem h.distinct he
  rw [hg.1] at hfound
  exact ⟨entry', hfound, he, hg⟩

theorem standing_look (h : Standing localeOrder entry desk) (hk : desk.deletions k = .resolved removal) :
    Standing localeOrder entry (desk.put k (lookedAt desk.runs removal)) := by
  have hnamed := h.relies k
  rw [hk] at hnamed
  apply standing_put h
  unfold lookedAt
  split
  · trivial
  · rename_i status hstatus
    split_ifs with hlive
    · trivial
    · refine ⟨hnamed, fun hid => ?_⟩
      obtain ⟨entry', hfound, he, hg⟩ := entryOf_kept h
      rw [loadEvents, hid, hfound] at hstatus
      exact ⟨entry', he, hg, status, hstatus, Bool.eq_false_iff.mpr hlive⟩

theorem standing_inspect (h : Standing localeOrder entry desk) (hk : desk.deletions k = .stopped removal)
    (hl : inspect desk.runs removal.runId = none) :
    Standing localeOrder entry (desk.put k (.free { removal with inspected := desk.runs })) := by
  have hrelies := h.relies k
  rw [hk] at hrelies
  obtain ⟨hnamed, hstopped⟩ := hrelies
  apply standing_put h
  intro hid
  have hid : removal.runId = entry.runId := hid
  obtain ⟨entry', hfound, he, hg⟩ := entryOf_kept h
  rw [inspect, hid, hfound] at hl
  exact ⟨hid ▸ hnamed, hstopped hid, entry', he, hg, hl⟩

/-- One move leaves a run, unless it is the removal of a line that has seen it stopped and free. -/
theorem step_spares (h : Standing localeOrder entry desk) (hs : step localeOrder desk move = some desk') :
    Standing localeOrder entry desk' ∨ ∃ removal ∈ desk'.removals, Warranted localeOrder entry removal := by
  cases move with
  | delete k args =>
    simp only [step] at hs
    split at hs
    · rename_i runRef _ hdispatch
      split at hs <;> cases hs
      · rename_i runId hres
        exact .inl (standing_put h ⟨runRef, hdispatch, hres⟩)
      · exact .inl h
    · cases hs
  | look k =>
    simp only [step] at hs
    split at hs <;> cases hs
    rename_i removal hk
    exact .inl (standing_look h hk)
  | inspect k =>
    simp only [step] at hs
    split at hs
    · rename_i removal hk
      split at hs <;> cases hs
      · exact .inl (standing_put h trivial)
      · rename_i hl
        exact .inl (standing_inspect h hk hl)
    · cases hs
  | remove k =>
    simp only [step] at hs
    split at hs <;> cases hs
    rename_i removal hk
    have hput : Standing localeOrder entry (desk.put k .idle) := standing_put h trivial
    have hrelies := h.relies k
    rw [hk] at hrelies
    by_cases hid : removal.runId = entry.runId
    · exact .inr ⟨removal, by simp, hrelies hid⟩
    · refine .inl ⟨h.distinct.sublist (List.filter_sublist.map _), ?_, hput.relies⟩
      obtain ⟨entry', he, hg⟩ := h.kept
      refine ⟨entry', List.mem_filter.mpr ⟨he, ?_⟩, hg⟩
      rw [hg.1]
      simpa using Ne.symm hid
  | begin other =>
    simp only [step] at hs
    split_ifs at hs with hc
    cases hs
    obtain ⟨entry', he, hg⟩ := h.kept
    exact .inl ⟨nodup_concat h.distinct (fun hm => hc (List.contains_iff_mem.mpr hm)),
      ⟨entry', List.mem_append_left _ he, hg⟩, h.relies⟩
  | record runId event =>
    cases hs
    exact .inl ⟨nodup_appended h.distinct runId event, h.kept.appended runId event, h.relies⟩
  | lease runId lease =>
    cases hs
    refine .inl ⟨?_, h.kept.onRun (grown_lease lease), h.relies⟩
    rw [ids_onRun (grown_lease lease)]
    exact h.distinct

theorem removals_step (hs : step localeOrder desk move = some desk') : ∀ removal ∈ desk.removals, removal ∈ desk'.removals := by
  intro removal hm
  cases move with
  | remove k =>
    simp only [step] at hs
    split at hs <;> cases hs
    exact List.mem_append_left _ hm
  | delete k args =>
    simp only [step] at hs
    split at hs
    · split at hs <;> cases hs <;> exact hm
    · cases hs
  | inspect k =>
    simp only [step] at hs
    split at hs
    · split at hs <;> cases hs <;> exact hm
    · cases hs
  | look k =>
    simp only [step] at hs
    split at hs <;> cases hs
    exact hm
  | begin other =>
    simp only [step] at hs
    split_ifs at hs
    cases hs
    exact hm
  | _ =>
    cases hs
    exact hm

def Spared (localeOrder : Text → Text → Bool) (entry : RunEntry) (desk : Desk) : Prop :=
  Standing localeOrder entry desk ∨ ∃ removal ∈ desk.removals, Warranted localeOrder entry removal

theorem spared_step (h : Spared localeOrder entry desk) (hs : step localeOrder desk move = some desk') :
    Spared localeOrder entry desk' := by
  obtain hstands | ⟨removal, hm, hw⟩ := h
  · exact step_spares hstands hs
  · exact .inr ⟨removal, removals_step hs removal hm, hw⟩

/-- However the lines that delete are interleaved with each other, with all the other lines and with the executions,
a run's log is never rewritten, and the run is gone only by a line that named it, saw it stopped, and saw no lease of it
after that. -/
theorem histories_kept (hd : (start.runs.map RunEntry.runId).Nodup) (hidle : ∀ k, start.deletions k = .idle)
    (h : Run (step localeOrder) Unconditional start moves desk) (he : entry ∈ start.runs) :
    (∃ entry' ∈ desk.runs, Grown entry entry') ∨ ∃ removal ∈ desk.removals, Warranted localeOrder entry removal := by
  have hstart : Standing localeOrder entry start := by
    refine ⟨hd, ⟨entry, he, .refl entry⟩, fun k => ?_⟩
    rw [hidle k]
    trivial
  have hspared : Spared localeOrder entry start := .inl hstart
  have hend : Spared localeOrder entry desk := h.keeps hspared (fun _ _ _ hstands _ hs => spared_step hstands hs)
  exact hend.imp_left Standing.kept

/-- A line that is carried out with nothing in between takes the runs to others by these moves. -/
def Alone (localeOrder : Text → Text → Bool) (runs runs' : List RunEntry) : Prop :=
  ∀ desk : Desk, desk.runs = runs → ∃ moves desk', Run (step localeOrder) Unconditional desk moves desk' ∧
    desk'.runs = runs' ∧ desk'.deletions = desk.deletions

theorem Alone.refl (runs : List RunEntry) : Alone localeOrder runs runs := fun desk h => ⟨[], desk, .nil, h, rfl⟩

theorem Alone.trans {runs'' : List RunEntry} (h : Alone localeOrder runs runs') (h' : Alone localeOrder runs' runs'') :
    Alone localeOrder runs runs'' := by
  intro desk hdesk
  obtain ⟨moves, desk', hrun, hruns, hsame⟩ := h desk hdesk
  obtain ⟨moves', desk'', hrun', hruns', hsame'⟩ := h' desk' hruns
  exact ⟨moves ++ moves', desk'', hrun.trans hrun', hruns', hsame'.trans hsame⟩

theorem alone_lease (runId : Text) (lease : Option RunExecutionLease) :
    Alone localeOrder runs (onRun runs runId (fun entry => { entry with lease := lease })) := by
  rintro desk rfl
  exact ⟨[.lease runId lease], _, .single rfl trivial, rfl, rfl⟩

theorem onRun_absent (h : id ∉ runs.map RunEntry.runId) : onRun runs id change = runs := by
  refine (List.map_congr_left ?_).trans (List.map_id runs)
  intro entry he
  have hne : entry.runId ≠ id := by
    rintro rfl
    exact h (List.mem_map_of_mem he)
  rw [if_neg hne]
  rfl

theorem alone_record (runId : Text) (event : RunEvent) :
    Alone localeOrder runs (onRun runs runId (fun entry => { entry with events := entry.events ++ [event] })) := by
  by_cases hin : runId ∈ runs.map RunEntry.runId
  · rintro desk rfl
    refine ⟨[.record runId event], _, .single rfl trivial, ?_, rfl⟩
    exact if_pos (List.contains_iff_mem.mpr hin)
  · rw [onRun_absent hin]
    exact .refl runs

theorem onRun_onRun {change' : RunEntry → RunEntry} (hc : ∀ entry, (change entry).runId = entry.runId) :
    onRun (onRun runs id change) id change' = onRun runs id (change' ∘ change) := by
  unfold onRun
  rw [List.map_map]
  apply List.map_congr_left
  intro entry _
  simp only [Function.comp_apply]
  split_ifs with h h'
  · rfl
  · exact absurd ((hc entry).trans h) h'
  · rfl

theorem alone_events (runId : Text) (added : List RunEvent) :
    Alone localeOrder runs (onRun runs runId (fun entry => { entry with events := entry.events ++ added })) := by
  induction added using List.reverseRecOn with
  | nil =>
    have hsame : onRun runs runId (fun entry => { entry with events := entry.events ++ [] }) = runs := by
      refine (List.map_congr_left ?_).trans (List.map_id runs)
      intro entry _
      simp
    rw [hsame]
    exact .refl runs
  | append_singleton added event ih =>
    have hsplit : onRun runs runId (fun entry => { entry with events := entry.events ++ (added ++ [event]) }) =
        onRun (onRun runs runId (fun entry => { entry with events := entry.events ++ added })) runId
          (fun entry => { entry with events := entry.events ++ [event] }) := by
      rw [onRun_onRun]
      · simp [Function.comp_def]
      · exact fun _ => rfl
    rw [hsplit]
    exact ih.trans (alone_record runId event)

theorem alone_reconcile (hd : (runs.map RunEntry.runId).Nodup) (active : List Text) (runId : Text) :
    Alone localeOrder runs (reconcileAbandonedRun active runs runId) := by
  unfold reconcileAbandonedRun
  by_cases hin : runId ∈ runs.map RunEntry.runId
  · obtain ⟨entry, he, rfl⟩ := List.mem_map.mp hin
    obtain ⟨added, lease, heq⟩ := reconciled_eq active entry
    have hchange : onRun runs entry.runId (reconciled active) =
        onRun (onRun runs entry.runId (fun entry => { entry with events := entry.events ++ added })) entry.runId
          (fun entry => { entry with lease := lease }) := by
      rw [onRun_onRun]
      swap
      · exact fun _ => rfl
      apply List.map_congr_left
      intro other ho
      split_ifs with hid
      · have hsame : other = entry := by
          have hfound := entryOf_mem hd ho
          rw [hid, entryOf_mem hd he] at hfound
          exact (Option.some.inj hfound).symm
        rw [hsame, heq]
        rfl
      · rfl
    rw [hchange]
    exact (alone_events _ added).trans (alone_lease _ lease)
  · rw [onRun_absent hin]
    exact .refl runs

theorem runs_showRun : (showRun runs id).2 = runs := by
  unfold showRun
  split_ifs <;> rfl

theorem runs_handleStatus (runRef : Option Text) : (handleStatus localeOrder active runs runRef).2 = runs := by
  unfold handleStatus
  cases runRef with
  | none =>
    simp only
    split
    · rfl
    · exact runs_showRun
    · rfl
  | some runRef =>
    simp only
    cases resolveRunRef localeOrder runs runRef "show".toList with
    | error text => rfl
    | ok runId => exact runs_showRun

theorem alone_handleResume (hd : (runs.map RunEntry.runId).Nodup) (runRef : Text) :
    Alone localeOrder runs (handleResume localeOrder active runs runRef).2 := by
  unfold handleResume
  cases resolveRunRef localeOrder runs runRef "resume".toList with
  | error text => exact .refl _
  | ok runId =>
    have hrec : Alone localeOrder runs (reconcileAbandonedRun active runs runId) := alone_reconcile hd active runId
    simp only
    split
    · exact hrec
    · exact hrec
    · split <;> exact hrec

theorem alone_coldCancel (hd : (runs.map RunEntry.runId).Nodup) (runId : Text) :
    Alone localeOrder runs (coldCancel active runs runId).2 := by
  have hrec : Alone localeOrder runs (reconcileAbandonedRun active runs runId) := alone_reconcile hd active runId
  simp only [coldCancel]
  cases deriveRunStatus (loadEvents (reconcileAbandonedRun active runs runId) runId) with
  | none => exact hrec
  | some status =>
    simp only
    by_cases hc : status = .cancelled
    · rw [if_pos hc]
      exact hrec
    · rw [if_neg hc]
      cases inspect (reconcileAbandonedRun active runs runId) runId with
      | some lease => exact hrec
      | none =>
        simp only
        split_ifs
        · exact hrec.trans (alone_record runId _)
        · exact hrec

theorem alone_handleCancel (hd : (runs.map RunEntry.runId).Nodup) (runRef : Option Text) :
    Alone localeOrder runs (handleCancel localeOrder active runs runRef).2 := by
  unfold handleCancel
  cases runRef with
  | none =>
    simp only
    split
    · exact .refl _
    · cases soleBlockedRun localeOrder runs with
      | none => exact .refl _
      | some runId => exact alone_coldCancel hd runId
    · exact .refl _
  | some runRef =>
    simp only
    split_ifs
    · exact .refl _
    · cases resolveRunRef localeOrder runs runRef "cancel".toList with
      | error text => exact .refl _
      | ok runId =>
        simp only
        split_ifs
        · exact .refl _
        · exact alone_coldCancel hd runId

theorem alone_handleDelete (hd : (runs.map RunEntry.runId).Nodup) {args runRef : Text}
    (hargs : Completions.dispatch args = .delete runRef) (hk : desk.deletions k = .idle) (hdesk : desk.runs = runs) :
    ∃ moves desk', Run (step localeOrder) Unconditional desk (.delete k args :: moves) desk' ∧
      desk'.runs = (handleDelete localeOrder runs runRef).2 ∧ desk'.deletions k = .idle := by
  subst hdesk
  unfold handleDelete
  cases hres : resolveRunRef localeOrder desk.runs runRef "delete".toList with
  | error text =>
    refine ⟨[], desk, .single ?_ trivial, rfl, hk⟩
    simp only [step, hk, hargs, hres]
  | ok runId =>
    let removal : Removal := { args := args, runId := runId, asked := desk.runs }
    have hnamed : step localeOrder desk (.delete k args) = some (desk.put k (.resolved removal)) := by
      simp only [step, hk, hargs, hres, removal]
    obtain ⟨moves, found, hrun, hruns, hsame⟩ :=
      (alone_reconcile hd [] runId : Alone localeOrder _ _) (desk.put k (.resolved removal)) rfl
    have hstage : found.deletions k = .resolved removal := by
      rw [hsame]
      simp [Desk.put]
    have hbefore : Run (step localeOrder) Unconditional desk (.delete k args :: moves) found :=
      (Run.single hnamed trivial).trans hrun
    have hlooked : step localeOrder found (.look k) = some (found.put k (lookedAt found.runs removal)) := by
      simp [step, hstage]
    have hlook := hbefore.snoc hlooked trivial
    simp only [← hruns]
    cases hstatus : deriveRunStatus (loadEvents found.runs runId) with
    | none =>
      refine ⟨_, _, hlook, rfl, ?_⟩
      simp [Desk.put, lookedAt, removal, hstatus]
    | some status =>
      simp only
      by_cases hlive : isLiveRun status = true
      · rw [if_pos hlive]
        refine ⟨_, _, hlook, rfl, ?_⟩
        simp [Desk.put, lookedAt, removal, hstatus, hlive]
      · rw [if_neg hlive]
        let stopped : Removal := { removal with looked := found.runs }
        have hseen : lookedAt found.runs removal = .stopped stopped := by
          simp [lookedAt, removal, stopped, hstatus, hlive]
        rw [hseen] at hlook
        cases hl : inspect found.runs runId with
        | some lease =>
          have hinspected : step localeOrder (found.put k (.stopped stopped)) (.inspect k) =
              some ((found.put k (.stopped stopped)).put k .idle) := by
            simp [step, Desk.put, stopped, removal, hl]
          refine ⟨_, _, hlook.snoc hinspected trivial, rfl, ?_⟩
          simp [Desk.put]
        | none =>
          let free : Removal := { stopped with inspected := found.runs }
          have hinspected : step localeOrder (found.put k (.stopped stopped)) (.inspect k) =
              some ((found.put k (.stopped stopped)).put k (.free free)) := by
            simp [step, Desk.put, stopped, removal, free, hl]
          have hremoved : step localeOrder ((found.put k (.stopped stopped)).put k (.free free)) (.remove k) =
              some { found.put k .idle with
                runs := found.runs.filter (fun entry => decide (entry.runId ≠ runId))
                removals := found.removals ++ [free] } := by
            simp [step, Desk.put, free, stopped, removal]
          refine ⟨_, _, (hlook.snoc hinspected trivial).snoc hremoved trivial, rfl, ?_⟩
          simp [Desk.put]

/-- A line that is carried out with nothing in between is one of these runs. -/
theorem line_carried_out (hd : (runs.map RunEntry.runId).Nodup) (args : Text) :
    ∃ moves desk', Run (step localeOrder) Unconditional { runs := runs } moves desk' ∧
      desk'.runs = (perform localeOrder active runs (Completions.dispatch args)).2 := by
  have halone : ∀ {runs' : List RunEntry}, Alone localeOrder runs runs' →
      ∃ moves desk', Run (step localeOrder) Unconditional { runs := runs } moves desk' ∧ desk'.runs = runs' := by
    intro runs' h
    obtain ⟨moves, desk', hrun, hruns, _⟩ := h { runs := runs } rfl
    exact ⟨moves, desk', hrun, hruns⟩
  cases hcommand : Completions.dispatch args with
  | status runRef =>
    rw [perform, runs_handleStatus]
    exact halone (.refl runs)
  | resume runRef => exact halone (alone_handleResume hd runRef)
  | cancel runRef => exact halone (alone_handleCancel hd runRef)
  | delete runRef =>
    have hidle : ({ runs := runs } : Desk).deletions 0 = .idle := rfl
    obtain ⟨moves, desk', hrun, hruns, _⟩ := alone_handleDelete hd hcommand hidle rfl
    exact ⟨_, desk', hrun, hruns⟩
  | _ => exact halone (.refl runs)

def deleteLine : Text := delete.name ++ ' ' :: abandonedRun.runId

theorem histories_kept_deleting : ∃ moves desk,
    Run (step (fun a b => decide (a ≤ b))) Unconditional { runs := [abandonedRun] } (.delete 0 deleteLine :: moves) desk ∧
    ((∃ entry' ∈ desk.runs, Grown abandonedRun entry') ∨
      ∃ removal ∈ desk.removals, Warranted (fun a b => decide (a ≤ b)) abandonedRun removal) := by
  have hidle : ({ runs := [abandonedRun] } : Desk).deletions 0 = .idle := rfl
  have hdispatch : Completions.dispatch deleteLine = .delete abandonedRun.runId := by
    have hword : OneWord abandonedRun.runId := oneWord_abandoned
    rw [deleteLine, dispatch_ref (mem_runVerbs.mpr (.inr (.inr (.inr rfl)))) hword]
    rfl
  obtain ⟨moves, desk, hrun, -, -⟩ := alone_handleDelete sound_abandoned.distinct hdispatch hidle rfl
  exact ⟨moves, desk, hrun, histories_kept sound_abandoned.distinct (fun _ => rfl) hrun List.mem_cons_self⟩

end Histories

end KimchiWorkflows.Host.CommandLines
