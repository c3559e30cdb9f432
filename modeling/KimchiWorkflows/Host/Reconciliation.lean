import KimchiWorkflows.Engine.RunStatus
import KimchiWorkflows.Engine.StepNodes
import KimchiWorkflows.Host.RunLease
import Mathlib.Logic.Function.Basic

/-!
The processes that execute a run one after the other, and others that find out whether it was abandoned.
-/

namespace KimchiWorkflows.Host

open KimchiWorkflows.Engine

def announces : RunEvent → Option String
  | .runExecutionStarted executionId => some executionId
  | _ => none

def latestExecutionId (events : List RunEvent) : Option String :=
  events.foldl (fun latest event => (announces event).or latest) none

/-- The executions that have recorded a terminal event, or one that asks a human. -/
structure Tenure where
  current : Option String := none
  settled : List String := []

def Tenure.next (tenure : Tenure) (event : RunEvent) : Tenure :=
  match announces event with
  | some executionId => { tenure with current := some executionId }
  | none =>
    if event.terminal.isSome || event.block?.isSome then
      { tenure with settled := tenure.current.toList ++ tenure.settled }
    else tenure

def tenureOf (log : List RunEvent) : Tenure := log.foldl Tenure.next {}

def inProgress (events : List RunEvent) : Bool := decide (deriveRunStatus events = some .inProgress)

inductive Purpose where
  | reconcile | project
  deriving DecidableEq

/-- A call of a process that looks for an abandoned run, or that releases the lease of its own execution.
What it has loaded and read may be out of date. -/
inductive Watcher where
  | idle
  | loaded (purpose : Purpose) (events : List RunEvent)
  | judging (purpose : Purpose) (events : List RunEvent) (executionId : String)
  | unowned (events : List RunEvent)
  | absent (events : List RunEvent)
  | retiring (executionId : String) (crash : Bool) (retry : Nat)
  | reading (executionId : String) (crash : Bool) (retry : Nat)
  | doubting (owner : Nat) (executionId : String) (crash : Bool) (retry : Nat)
  | sweeping (executionId : String) (crash : Bool) (retry : Nat)
  | marked (executionId : String) (crash : Bool)
  | checked (executionId : String)
  | removing (executionId : String)
  | clearing
  | fallen

def Watcher.isFallen : Watcher → Bool
  | .fallen => true
  | _ => false

/-- A run found abandoned: whose execution, on which log, who then owned the run, whose process was dead and
who had died at work. -/
structure Verdict where
  execution : Option String
  log : List RunEvent
  lease : Option String
  dead : List String
  lost : List String

/-- The log, the two files, the executions there have been, those at work, those whose process is dead and
those that died at work. -/
structure Site where
  log : List RunEvent
  lease : Option String := none
  marker : Option Nat := none
  known : List String := []
  active : List String := []
  dead : List String := []
  lost : List String := []
  watchers : Nat → Watcher := fun _ => .idle
  verdicts : List Verdict := []

/-- One file operation or look of one party. A `straggle` is what an attempt that was given up still records. -/
inductive Turn where
  | acquire (executionId : String)
  | append (executionId : String) (event : RunEvent)
  | straggle (event : RunEvent)
  | release (k : Nat) (executionId : String)
  | die (executionId : String)
  | fall (k : Nat)
  | load (k : Nat) (purpose : Purpose)
  | inspect (k : Nat)
  | judge (k : Nat)
  | inspectAgain (k : Nat)
  | record (k : Nat) (error : String)
  | mark (k : Nat)
  | read (k : Nat)
  | doubt (k : Nat)
  | sweep (k : Nat)
  | check (k : Nat)
  | recordDead (k : Nat) (error : String)
  | failRecord (k : Nat)
  | remove (k : Nat)
  | clear (k : Nat)

def Announced (log : List RunEvent) (executionId : String) : Prop :=
  ∃ event ∈ log, announces event = some executionId

instance (log : List RunEvent) (executionId : String) : Decidable (Announced log executionId) :=
  inferInstanceAs (Decidable (∃ event ∈ log, announces event = some executionId))

namespace Site

def put (s : Site) (k : Nat) (watcher : Watcher) : Site :=
  { s with watchers := Function.update s.watchers k watcher }

def judge (s : Site) (execution : Option String) : Site :=
  { s with verdicts := s.verdicts ++ [⟨execution, s.log, s.lease, s.dead, s.lost⟩] }

def recordCrash (s : Site) (execution : Option String) (error : String) : Site :=
  { s.judge execution with log := s.log ++ [.runCrashed none error] }

def inspect (s : Site) (k : Nat) (purpose : Purpose) (events : List RunEvent) : Site :=
  match s.lease, purpose, inProgress events with
  | some e, .reconcile, _ => s.put k (.judging .reconcile events e)
  | some e, .project, true => s.put k (.judging .project events e)
  | none, .reconcile, true => s.put k (.unowned events)
  | none, .project, true => (s.judge (latestExecutionId events)).put k .idle
  | _, _, false => s.put k .idle

/-- An owner that is not dead stays the owner. A dead one's run is crashed if it seemed in progress; of any
other run only the stale lease is removed. -/
def weigh (s : Site) (k : Nat) (purpose : Purpose) (events : List RunEvent) (e : String) : Site :=
  if e ∈ s.dead then
    match purpose with
    | .project => (s.judge (some e)).put k .idle
    | .reconcile => s.put k (.retiring e (inProgress events) 0)
  else s.put k .idle

def step (s : Site) : Turn → Option Site
  | .acquire e =>
    if s.lease = none ∧ e ∉ s.known then
      some { s with lease := some e, known := e :: s.known, active := e :: s.active }
    else none
  | .append e event =>
    if e ∈ s.active ∧ (announces event = some e ∨ announces event = none ∧ Announced s.log e) then
      some { s with log := s.log ++ [event] }
    else none
  | .straggle event =>
    if announces event = none ∧ event.terminal = none ∧ event.block? = none then
      some { s with log := s.log ++ [event] }
    else none
  | .release k e =>
    match s.watchers k with
    | .idle =>
      if e ∈ s.active then some { s.put k (.retiring e false 0) with active := s.active.filter (· ≠ e) } else none
    | _ => none
  | .die e =>
    if e ∈ s.known then
      some { s with
        dead := e :: s.dead
        active := s.active.filter (· ≠ e)
        lost := if e ∈ s.active then e :: s.lost else s.lost }
    else none
  | .fall k => some (s.put k .fallen)
  | .load k purpose =>
    match s.watchers k with
    | .idle => some (s.put k (.loaded purpose s.log))
    | _ => none
  | .inspect k =>
    match s.watchers k with
    | .loaded purpose events => some (s.inspect k purpose events)
    | _ => none
  | .judge k =>
    match s.watchers k with
    | .judging purpose events e => some (s.weigh k purpose events e)
    | _ => none
  | .inspectAgain k =>
    match s.watchers k with
    | .unowned events =>
      match s.lease with
      | some e => some (s.put k (.judging .reconcile events e))
      | none => some (s.put k (.absent events))
    | _ => none
  | .record k error =>
    match s.watchers k with
    | .absent events => some ((s.recordCrash (latestExecutionId events) error).put k .idle)
    | _ => none
  | .mark k =>
    match s.watchers k with
    | .retiring e crash retry =>
      if s.marker = none then some { s.put k (.marked e crash) with marker := some k }
      else some (s.put k (.reading e crash retry))
    | _ => none
  | .read k =>
    match s.watchers k with
    | .reading e crash retry =>
      match s.marker with
      | some owner => some (s.put k (.doubting owner e crash retry))
      | none => some (s.put k .idle)
    | _ => none
  | .doubt k =>
    match s.watchers k with
    | .doubting owner e crash retry =>
      if (s.watchers owner).isFallen then some (s.put k (.sweeping e crash retry)) else some (s.put k .idle)
    | _ => none
  | .sweep k =>
    match s.watchers k with
    | .sweeping e crash retry =>
      some { s.put k (if retry = maxLeaseRaceRetries then .idle else .retiring e crash (retry + 1)) with
        marker := none }
    | _ => none
  | .check k =>
    match s.watchers k with
    | .marked e crash =>
      if s.lease = some e then some (s.put k (if crash then .checked e else .removing e))
      else some (s.put k .clearing)
    | _ => none
  | .recordDead k error =>
    match s.watchers k with
    | .checked e => some ((s.recordCrash (some e) error).put k (.removing e))
    | _ => none
  | .failRecord k =>
    match s.watchers k with
    | .checked _ => some (s.put k .clearing)
    | .absent _ => some (s.put k .idle)
    | _ => none
  | .remove k =>
    match s.watchers k with
    | .removing _ => some { s.put k .clearing with lease := none }
    | _ => none
  | .clear k =>
    match s.watchers k with
    | .clearing => some { s.put k .idle with marker := none }
    | _ => none

end Site

end KimchiWorkflows.Host
