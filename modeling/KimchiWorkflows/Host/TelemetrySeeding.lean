import KimchiWorkflows.Host.TelemetryRegisters

/-!
A mapper that has observed a log is told a prefix of it again: which payloads of what follows change.
-/

namespace KimchiWorkflows.Host.Telemetry

open KimchiWorkflows.Engine Registers

section Seeding

variable (dateParse : String → Option Int)

def observed (log : List LoggedEvent) : States := log.foldl (fun states e => (observe dateParse states e).1) []

def reasonOf (kind : Option AgentTurnErrorKind) : WorkflowRetryReason := retryReason kind .agentError

def LoggedEvent.published (e : LoggedEvent) : Bool := (payload (fun _ => none) [] e).isSome

def LoggedEvent.measured (e : LoggedEvent) : Option NodePath :=
  match e.event with
  | .stepCompleted path _ => some path
  | .stepFailed path _ => some path
  | _ => none

/-- The step whose last agent error gives the reason of the retry. -/
def LoggedEvent.attributed (e : LoggedEvent) : Option NodePath :=
  match e.event with
  | .stepRetry path _ .agentError _ => some path
  | _ => none

/-- `first` is told again once `log` has been observed, `before` follows and then `e`: what `first` says
last of what `e` reads, and `before` says nothing of, reads as what `log` says last of it. -/
structure Settled (first log before : List LoggedEvent) (e : LoggedEvent) : Prop where
  name : e.published → lastSaid (·.names e.runId) (before ++ [e]) = none →
    ∀ said, lastSaid (·.names e.runId) first = some said → lastSaid (·.names e.runId) log = some said
  start : ∀ path ∈ e.measured, lastSaid (·.starts e.runId path) before = none →
    ∀ said, lastSaid (·.starts e.runId path) first = some said →
      elapsed dateParse said e.stamp =
        elapsed dateParse ((lastSaid (·.starts e.runId path) log).getD none) e.stamp
  error : ∀ path ∈ e.attributed, lastSaid (·.errs e.runId path) before = none →
    ∀ said, lastSaid (·.errs e.runId path) first = some said →
      reasonOf said = reasonOf ((lastSaid (·.errs e.runId path) log).getD none)

end Seeding

variable {dateParse : String → Option Int} {states states' : States} {runId : String} {path : NodePath}

theorem seed_eq (states : States) (log : List LoggedEvent) : seed dateParse states log = log.foldl learn states := rfl

theorem workflowName_foldl (states : States) (log : List LoggedEvent) :
    workflowNameOf (log.foldl learn states) runId =
      (lastSaid (·.names runId) log).getD (workflowNameOf states runId) :=
  read_foldl (fun states => workflowNameOf states runId) workflowName_learn states log

theorem stepStart_foldl (states : States) (log : List LoggedEvent) :
    stepStartOf (log.foldl learn states) runId path =
      (lastSaid (·.starts runId path) log).getD (stepStartOf states runId path) :=
  read_foldl (fun states => stepStartOf states runId path) stepStart_learn states log

theorem errorKind_foldl (states : States) (log : List LoggedEvent) :
    errorKindOf (log.foldl learn states) runId path =
      (lastSaid (·.errs runId path) log).getD (errorKindOf states runId path) :=
  read_foldl (fun states => errorKindOf states runId path) errorKind_learn states log

theorem startedAt_foldl (states : States) (log : List LoggedEvent) :
    startedAtOf (log.foldl learn states) runId = (startedAtOf states runId).or (log.findSome? (·.opens runId)) :=
  kept_foldl (fun states => startedAtOf states runId) startedAt_learn states log

theorem payload_congr_iff {e : LoggedEvent} (h : startedAtOf states e.runId = startedAtOf states' e.runId) :
    payload dateParse states e = payload dateParse states' e ↔
      (e.published → workflowNameOf (learn states e) e.runId = workflowNameOf (learn states' e) e.runId) ∧
      (∀ path ∈ e.measured, elapsed dateParse (stepStartOf states e.runId path) e.stamp =
        elapsed dateParse (stepStartOf states' e.runId path) e.stamp) ∧
      (∀ path ∈ e.attributed, reasonOf (errorKindOf states e.runId path) =
        reasonOf (errorKindOf states' e.runId path)) := by
  obtain ⟨runId, stamp, event⟩ := e
  cases event with
  | stepRetry path attempt reason error =>
    cases reason <;>
      simp [payload, LoggedEvent.published, LoggedEvent.measured, LoggedEvent.attributed, retryReason, reasonOf]
  | _ => simp_all [payload, LoggedEvent.published, LoggedEvent.measured, LoggedEvent.attributed]

theorem observeAll_eq (states : States) (log : List LoggedEvent) :
    observeAll dateParse states log = outputs learn (payload dateParse) states log := by
  induction log generalizing states with
  | nil => rfl
  | cons e rest ih => exact congrArg (_ :: ·) (ih _)

theorem startedAt_seeded {first log : List LoggedEvent} (h : first <+: log) (before : List LoggedEvent) :
    startedAtOf (before.foldl learn (first.foldl learn (log.foldl learn []))) runId =
      startedAtOf (before.foldl learn (log.foldl learn [])) runId := by
  simp only [startedAt_foldl]
  obtain ⟨rest, rfl⟩ := h
  rw [List.findSome?_append]
  cases first.findSome? (·.opens runId) <;> simp

theorem name_seeded_iff {first log : List LoggedEvent} (h : first <+: log) (before : List LoggedEvent)
    (e : LoggedEvent) :
    workflowNameOf (learn (before.foldl learn (first.foldl learn (log.foldl learn []))) e) runId =
        workflowNameOf (learn (before.foldl learn (log.foldl learn [])) e) runId ↔
      (lastSaid (·.names runId) (before ++ [e]) = none → ∀ said, lastSaid (·.names runId) first = some said →
        lastSaid (·.names runId) log = some said) := by
  have hfold : ∀ states, learn (before.foldl learn states) e = (before ++ [e]).foldl learn states :=
    fun states => by rw [List.foldl_append, List.foldl_cons, List.foldl_nil]
  simp only [hfold, workflowName_foldl]
  rw [told_again_iff (fun name => name)]
  refine imp_congr_right fun _ => forall_congr' fun said => imp_congr_right fun hsaid => ?_
  obtain ⟨value, hvalue⟩ := Option.isSome_iff_exists.mp (said_earlier h (Option.isSome_of_eq_some hsaid))
  rw [hvalue, Option.getD_some, Option.some.injEq]
  exact eq_comm

theorem start_seeded_iff {first log : List LoggedEvent} (before : List LoggedEvent) (stamp : String) :
    elapsed dateParse (stepStartOf (before.foldl learn (first.foldl learn (log.foldl learn []))) runId path)
        stamp = elapsed dateParse (stepStartOf (before.foldl learn (log.foldl learn [])) runId path) stamp ↔
      (lastSaid (·.starts runId path) before = none → ∀ said, lastSaid (·.starts runId path) first = some said →
        elapsed dateParse said stamp =
          elapsed dateParse ((lastSaid (·.starts runId path) log).getD none) stamp) := by
  simp only [stepStart_foldl]
  exact told_again_iff (fun start => elapsed dateParse start stamp) _ _ _ _

theorem error_seeded_iff {first log : List LoggedEvent} (before : List LoggedEvent) :
    reasonOf (errorKindOf (before.foldl learn (first.foldl learn (log.foldl learn []))) runId path) =
        reasonOf (errorKindOf (before.foldl learn (log.foldl learn [])) runId path) ↔
      (lastSaid (·.errs runId path) before = none → ∀ said, lastSaid (·.errs runId path) first = some said →
        reasonOf said = reasonOf ((lastSaid (·.errs runId path) log).getD none)) := by
  simp only [errorKind_foldl]
  exact told_again_iff reasonOf _ _ _ _

theorem seeded_iff {first log : List LoggedEvent} (h : first <+: log) (continuation : List LoggedEvent) :
    observeAll dateParse (seed dateParse (observed dateParse log) first) continuation =
        observeAll dateParse (observed dateParse log) continuation ↔
      ∀ before e, before ++ [e] <+: continuation → Settled dateParse first log before e := by
  rw [observeAll_eq, observeAll_eq, outputs_eq_iff]
  refine forall_congr' fun before => forall_congr' fun e => imp_congr_right fun _ => ?_
  show payload dateParse (before.foldl learn (first.foldl learn (log.foldl learn []))) e =
    payload dateParse (before.foldl learn (log.foldl learn [])) e ↔ _
  rw [payload_congr_iff (startedAt_seeded h before)]
  constructor
  · rintro ⟨hname, hstart, herror⟩
    exact {
      name := fun hp => (name_seeded_iff h before e).mp (hname hp)
      start := fun path hpath => (start_seeded_iff before e.stamp).mp (hstart path hpath)
      error := fun path hpath => (error_seeded_iff before).mp (herror path hpath) }
  · intro hsettled
    refine ⟨?_, ?_, ?_⟩
    · intro hp
      exact (name_seeded_iff h before e).mpr (hsettled.name hp)
    · intro path hpath
      exact (start_seeded_iff before e.stamp).mpr (hsettled.start path hpath)
    · intro path hpath
      exact (error_seeded_iff before).mpr (hsettled.error path hpath)

/-- Payloads are unmoved by a prefix told again exactly where the prefix's last word reads as the log's. -/
theorem seed_prefix_iff (dateParse : String → Option Int) (first rest continuation : List LoggedEvent) :
    observeAll dateParse (seed dateParse (observed dateParse (first ++ rest)) first) continuation =
        observeAll dateParse (observed dateParse (first ++ rest)) continuation ↔
      ∀ before e, before ++ [e] <+: continuation → Settled dateParse first (first ++ rest) before e :=
  seeded_iff (List.prefix_append first rest) continuation

/-- A log read back whole is what the store seeds with, and it changes nothing. -/
theorem seed_whole_log (log continuation : List LoggedEvent) :
    observeAll dateParse (seed dateParse (observed dateParse log) log) continuation =
      observeAll dateParse (observed dateParse log) continuation := by
  refine (seeded_iff (List.prefix_refl log) continuation).mpr ?_
  intro before e _
  refine { name := fun _ _ said hsaid => hsaid, start := ?_, error := ?_ }
  · intro path _ _ said hsaid
    rw [hsaid, Option.getD_some]
  · intro path _ _ said hsaid
    rw [hsaid, Option.getD_some]

section Example

def clock (second : String) : String := "2026-01-01T00:00:" ++ second ++ ".000Z"

def readClock (stamp : String) : Option Int :=
  [(clock "00", 1767225600000), (clock "01", 1767225601000), (clock "10", 1767225610000),
    (clock "12", 1767225612000)].lookup stamp

def lint : NodePath := [{ name := "lint" }]

def interrupted : List LoggedEvent :=
  [⟨"r", clock "00", .runStarted "r" "wf" .null⟩, ⟨"r", clock "01", .stepStarted lint .null⟩]

def restarted : List LoggedEvent :=
  [⟨"r", clock "10", .runResumed (some lint)⟩, ⟨"r", clock "10", .stepStarted lint .null⟩]

/-- The step took two seconds; after the prefix is told again, eleven. -/
theorem seed_prefix_stale_start :
    observeAll readClock (seed readClock (observed readClock (interrupted ++ restarted)) interrupted)
        [⟨"r", clock "12", .stepCompleted lint .null⟩] ≠
      observeAll readClock (observed readClock (interrupted ++ restarted))
        [⟨"r", clock "12", .stepCompleted lint .null⟩] := by
  decide

end Example

end KimchiWorkflows.Host.Telemetry
