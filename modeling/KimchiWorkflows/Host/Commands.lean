import KimchiWorkflows.Engine.Calls
import KimchiWorkflows.Engine.RunStatus
import KimchiWorkflows.Lib.Stepping
import Mathlib.Logic.Function.Basic

/-!
The resume and cancel commands of any number of processes on one run: they share its log and its lease,
and everything else they know they have read at some earlier moment.
-/

namespace KimchiWorkflows.Host

open KimchiWorkflows.Flow KimchiWorkflows.Engine

inductive ResumeAction where
  | answer
  | rerun
  | error (reason : String)
  deriving DecidableEq

def resumeAction : RunStatus → ResumeAction
  | .blocked => .answer
  | .crashed => .rerun
  | .cancelled => .rerun
  | .completed => .error "run is already completed; start a new run instead"
  | .inProgress => .error "run is currently in progress"

/-- The action for the status a log summarizes to; a log without a run has none. -/
def actionFor (events : List RunEvent) : Option ResumeAction := (deriveRunStatus events).map resumeAction

inductive Route where
  | rerun
  | answer (answers : Record) (path : NodePath)
  | respond (response : Value) (path : NodePath)

def Route.call : Route → EngineCall
  | .rerun => .resume
  | .answer answers path => .answer answers (some path)
  | .respond response path => .respond response (some path)

def Route.action : Route → ResumeAction
  | .rerun => .rerun
  | _ => .answer

def Route.target : Route → Option NodePath
  | .rerun => none
  | .answer _ path => some path
  | .respond _ path => some path

inductive Command where
  | idle
  | resume
  | loaded (events : List RunEvent)
  | rerun (events : List RunEvent)
  | attend (path : NodePath)
  | answer (route : Route)
  | granted (route : Route) (events atGrant : List RunEvent)
  | started (route : Route) (events atGrant : List RunEvent)
  | called (route : Route) (atGrant given : List RunEvent)
  | running
  | stopped
  | dead
  | cancel
  | cancelLoaded (events : List RunEvent)
  | cancelFree

/-- A call of the engine, with the log as it stood when its lease was granted, as the engine was handed
it, and as it stood when the call recorded its first event. -/
structure Call where
  route : Route
  atGrant : List RunEvent
  given : List RunEvent
  openedOn : List RunEvent

structure RunFile where
  log : List RunEvent
  lease : Option Nat := none
  commands : Nat → Command := fun _ => .idle
  calls : List Call := []

inductive Move where
  | resume (i : Nat)
  | cancel (i : Nat)
  | load (i : Nat)
  | inspect (i : Nat)
  | respond (i : Nat) (route : Option Route)
  | acquire (i : Nat)
  | begin (i : Nat) (executionId : String)
  | call (i : Nat)
  | opens (i : Nat) (event : RunEvent)
  | emit (i : Nat) (event : RunEvent)
  | cancelActive (i : Nat) (path : Option NodePath)
  | finish (i : Nat) (blocked : Option NodePath)
  | record (i : Nat)
  | die (i : Nat)
  | reclaim (i : Nat) (error : String)
  | crash (error : String)

namespace RunFile

def put (s : RunFile) (i : Nat) (command : Command) : RunFile :=
  { s with commands := Function.update s.commands i command }

def append (s : RunFile) (event : RunEvent) : RunFile := { s with log := s.log ++ [event] }

/-- A lease is free or refused; a refused command ends. -/
def acquire (s : RunFile) (i : Nat) (route : Route) (events : List RunEvent) : RunFile :=
  match s.lease with
  | some _ => s.put i .idle
  | none => { s with lease := some i }.put i (.granted route events s.log)

/-- A resume goes on only where no execution owns the run; its routing is that of the events it loaded. -/
def routed (s : RunFile) (i : Nat) (events : List RunEvent) : RunFile :=
  if s.lease.isSome then s.put i .idle
  else match actionFor events with
    | some .rerun => s.put i (.rerun events)
    | some .answer =>
      match (pendingHumanInputs events).head? with
      | some pending => s.put i (.attend pending.path)
      | none => s.put i .idle
    | _ => s.put i .idle

def holds : Command → Bool
  | .granted _ _ _ => true
  | .started _ _ _ => true
  | .called _ _ _ => true
  | .running => true
  | .stopped => true
  | _ => false

variable (workflow : WorkflowDefinition)

/-- What the engine is handed: a rerun keeps the events it was decided on, an answer loads them now. -/
def handed (route : Route) (events log : List RunEvent) : List RunEvent :=
  match route with
  | .rerun => events
  | _ => log

def step (s : RunFile) : Move → Option RunFile
  | .resume i =>
    match s.commands i with
    | .idle => some (s.put i .resume)
    | _ => none
  | .cancel i =>
    match s.commands i with
    | .idle => some (s.put i .cancel)
    | _ => none
  | .load i =>
    match s.commands i with
    | .resume => some (s.put i (.loaded s.log))
    | .cancel => some (s.put i (.cancelLoaded s.log))
    | _ => none
  | .inspect i =>
    match s.commands i with
    | .loaded events => some (s.routed i events)
    | .cancelLoaded events =>
      if s.lease = none ∧ deriveRunStatus events = some .blocked then some (s.put i .cancelFree)
      else some (s.put i .idle)
    | _ => none
  | .respond i route =>
    match s.commands i, route with
    | .attend path, some route => if route.target = some path then some (s.put i (.answer route)) else none
    | .attend _, none => some (s.put i .idle)
    | _, _ => none
  | .acquire i =>
    match s.commands i with
    | .rerun events => some (s.acquire i .rerun events)
    | .answer route => some (s.acquire i route [])
    | _ => none
  | .begin i executionId =>
    match s.commands i with
    | .granted route events atGrant =>
      some ((s.append (.runExecutionStarted executionId)).put i (.started route events atGrant))
    | _ => none
  | .call i =>
    match s.commands i with
    | .started route events atGrant => some (s.put i (.called route atGrant (handed route events s.log)))
    | _ => none
  | .opens i event =>
    match s.commands i with
    | .called route atGrant given =>
      match launch workflow given route.call with
      | .error _ => none
      | .ok _ => some { (s.append event).put i .running with
          calls := s.calls ++ [⟨route, atGrant, given, s.log⟩] }
    | _ => none
  | .emit i event =>
    match s.commands i with
    | .running => some (s.append event)
    | _ => none
  | .cancelActive i path =>
    if holds (s.commands i) then some ((s.append (.runCancelled path (some .command))).put i .stopped)
    else none
  | .finish i blocked =>
    if holds (s.commands i) then
      some ({ s with lease := none }.put i (blocked.elim .idle .attend))
    else none
  | .record i =>
    match s.commands i with
    | .cancelFree => some ((s.append (.runCancelled none (some .command))).put i .idle)
    | _ => none
  | .die i => some (s.put i .dead)
  | .reclaim i error =>
    match s.commands i with
    | .dead => if s.lease = some i then some { s.append (.runCrashed none error) with lease := none } else none
    | _ => none
  | .crash error => some (s.append (.runCrashed none error))

end RunFile

end KimchiWorkflows.Host
