import Mathlib.Logic.Basic
import KimchiWorkflows.Engine.Calls

/-!
One tracked execution: the engine's emits through the host port, the appends of the store to its run in
the order they were requested, any number of cancellations, and the way the call is wound up.
-/

namespace KimchiWorkflows.Host

open KimchiWorkflows.Engine

/-! The gates of one execution that this process owns: for its events, for a cancellation, and for its end. -/

inductive ActiveState where
  | running | persistingCancellation | cancelled | settling
  deriving DecidableEq

/-- `cancellation` holds while a cancellation is being persisted, and from then on if it was. -/
structure ActiveRun where
  state : ActiveState := .running
  cancellation : Bool := false
  deriving DecidableEq

inductive CancelAnswer where
  | persists | alreadyRecorded | alreadySettled
  deriving DecidableEq

inductive SettleAnswer where
  | settled (cancelled : Bool)
  | waits
  deriving DecidableEq

namespace ActiveRun

def acceptsEvents (run : ActiveRun) : Bool := decide (run.state = .running)

def cancellationRecorded (run : ActiveRun) : Bool := decide (run.state = .cancelled)

/-- A caller that finds a cancellation waits for it; the first one starts to persist its own. -/
def cancel (run : ActiveRun) : CancelAnswer × ActiveRun :=
  if run.cancellation then (.alreadyRecorded, run)
  else if run.state = .settling then (.alreadySettled, run)
  else (.persists, { state := .persistingCancellation, cancellation := true })

def persisted (run : ActiveRun) : ActiveRun := { run with state := .cancelled }

def rejected (_ : ActiveRun) : ActiveRun := { state := .running, cancellation := false }

def settle (run : ActiveRun) : SettleAnswer × ActiveRun :=
  if run.state = .running then (.settled false, { run with state := .settling })
  else if run.state = .settling then (.settled false, run)
  else if run.state = .persistingCancellation ∧ run.cancellation = true then (.waits, run)
  else (.settled run.cancellationRecorded, run)

end ActiveRun

inductive Origin where
  | tracker | engine | cancel
  deriving DecidableEq

structure Append where
  origin : Origin
  event : RunEvent

/-- Where the tracking call stands; from the `finally` block on, with what it is about to return. -/
inductive Phase where
  | starting
  | executing
  | returned (outcome : ExecOutcome)
  | settling (outcome : ExecOutcome)
  | unwinding (result : Option RunResult)
  | waiting (result : Option RunResult)
  | releasing (result : Option RunResult)
  | released (result : Option RunResult)

/-- `emitted` and `turnedAway` only record what the engine has done: all it has emitted, and what of it
found the gate closed since the latest cancellation was admitted. -/
structure Execution where
  run : ActiveRun := {}
  queue : List Append
  log : List RunEvent := []
  concluded : Option ExecOutcome := none
  phase : Phase := .starting
  emitted : List RunEvent := []
  turnedAway : List RunEvent := []
  lost : List RunEvent := []

inductive Act where
  | emit (event : RunEvent)
  | conclude (outcome : ExecOutcome)
  | land
  | fail
  | cancel (path : Option NodePath)
  | returns
  | throws
  | settle
  | release

def begun (executionId : String) : Execution :=
  { queue := [⟨.tracker, .runExecutionStarted executionId⟩] }

namespace Execution

def request (s : Execution) (origin : Origin) (event : RunEvent) : Execution :=
  { s with queue := s.queue ++ [⟨origin, event⟩] }

/-- The engine hands an event to the host port, which drops it while the gate is closed. -/
def offer (s : Execution) (event : RunEvent) : Execution :=
  let seen := { s with emitted := s.emitted ++ [event] }
  if s.run.acceptsEvents then seen.request .engine event
  else { seen with turnedAway := s.turnedAway ++ [event] }

def enter (s : Execution) (phase : Phase) : Execution := { s with phase := phase }

def cancelledResult (outcome : ExecOutcome) : RunResult :=
  { status := .cancelled, path := (resultOf outcome).path }

def live : Phase → Bool
  | .starting => false
  | .released _ => false
  | _ => true

def landed (s : Execution) (append : Append) (rest : List Append) : Execution :=
  let s := { s with queue := rest, log := s.log ++ [append.event] }
  match append.origin with
  | .tracker => s.enter .executing
  | .engine => s
  | .cancel =>
    let s := { s with run := s.run.persisted }
    match s.phase with
    | .settling outcome => s.enter (.unwinding (some (cancelledResult outcome)))
    | .waiting result => s.enter (.releasing result)
    | _ => s

/-- An append fails. The engine cannot go on when the event that ends its call is lost. -/
def failed (s : Execution) (append : Append) (rest : List Append) : Execution :=
  let s := { s with queue := rest }
  match append.origin with
  | .tracker => { s with lost := s.lost ++ [append.event] }.enter (.unwinding none)
  | .engine =>
    let s := { s with lost := s.lost ++ [append.event] }
    match s.phase with
    | .executing => if append.event.terminal.isSome then s.enter (.unwinding none) else s
    | _ => s
  | .cancel =>
    let s := { s with run := s.run.rejected }
    match s.phase with
    | .settling _ => s.enter (.unwinding none)
    | .waiting _ => s.enter (.releasing none)
    | _ => s

def cancel (s : Execution) (path : Option NodePath) : Execution :=
  match s.run.cancel with
  | (.persists, run) =>
    { s with run := run, turnedAway := [] }.request .cancel (.runCancelled path (some .command))
  | _ => s

/-- The answer of `settle` decides how the call goes on, unless a cancellation has to be waited for. -/
def settle (s : Execution) : Option Execution :=
  let s' := { s with run := s.run.settle.2 }
  match s.phase, s.run.settle.1 with
  | .returned outcome, .settled true => some (s'.enter (.unwinding (some (cancelledResult outcome))))
  | .returned outcome, .settled false => some (s'.enter (.unwinding (some (resultOf outcome))))
  | .returned outcome, .waits => some (s'.enter (.settling outcome))
  | .unwinding result, .settled _ => some (s'.enter (.releasing result))
  | .unwinding result, .waits => some (s'.enter (.waiting result))
  | _, _ => none

/-- The engine's call returns once the event that ends it is out of the queue. -/
def returns (s : Execution) : Option Execution :=
  match s.phase, s.concluded with
  | .executing, some outcome =>
    if s.queue.any (fun append => append.origin = .engine && append.event.terminal.isSome) then none
    else some (s.enter (.returned outcome))
  | _, _ => none

def step (s : Execution) : Act → Option Execution
  | .emit event =>
    if event.terminal.isNone && live s.phase then some (s.offer event) else none
  | .conclude outcome =>
    match s.phase, s.concluded with
    | .executing, none => some { (closingEvents outcome).foldl offer s with concluded := some outcome }
    | _, _ => none
  | .land =>
    match s.queue with
    | [] => none
    | append :: rest => some (s.landed append rest)
  | .fail =>
    match s.queue with
    | [] => none
    | append :: rest => some (s.failed append rest)
  | .cancel path =>
    match s.phase with
    | .released _ => none
    | _ => some (s.cancel path)
  | .returns => s.returns
  | .throws =>
    match s.phase with
    | .executing => some (s.enter (.unwinding none))
    | _ => none
  | .settle => s.settle
  | .release =>
    match s.phase with
    | .releasing result => some (s.enter (.released result))
    | _ => none

inductive Moves (s : Execution) : Act → Execution → Prop
  | emit {event} (hn : event.terminal = none) (hl : live s.phase = true) : Moves s (.emit event) (s.offer event)
  | conclude {outcome} (hp : s.phase = .executing) (hc : s.concluded = none) :
      Moves s (.conclude outcome) { (closingEvents outcome).foldl offer s with concluded := some outcome }
  | land {append rest} (hq : s.queue = append :: rest) : Moves s .land (s.landed append rest)
  | fail {append rest} (hq : s.queue = append :: rest) : Moves s .fail (s.failed append rest)
  | cancel {path} (hp : ∀ result, s.phase ≠ .released result) : Moves s (.cancel path) (s.cancel path)
  | returns {outcome} (hp : s.phase = .executing) (hc : s.concluded = some outcome)
      (hout : ∀ append ∈ s.queue, append.origin = .engine → append.event.terminal = none) :
      Moves s .returns (s.enter (.returned outcome))
  | throws (hp : s.phase = .executing) : Moves s .throws (s.enter (.unwinding none))
  | settle {s'} (hr : s.settle = some s') : Moves s .settle s'
  | release {result} (hp : s.phase = .releasing result) : Moves s .release (s.enter (.released result))

theorem any_terminal_iff (queue : List Append) :
    ¬ queue.any (fun append => append.origin = .engine && append.event.terminal.isSome) ↔
      ∀ append ∈ queue, append.origin = .engine → append.event.terminal = none := by
  simp only [List.any_eq_true, not_exists, not_and, Bool.and_eq_true, decide_eq_true_eq,
    Option.not_isSome_iff_eq_none]

theorem moves_of_step {s s' : Execution} {a : Act} (hs : s.step a = some s') : Moves s a s' := by
  cases a with
  | emit event =>
    simp only [step] at hs
    split_ifs at hs with hc
    obtain rfl := Option.some.inj hs
    simp only [Bool.and_eq_true, Option.isNone_iff_eq_none] at hc
    exact .emit hc.1 hc.2
  | conclude outcome =>
    simp only [step] at hs
    split at hs
    · rename_i hp hc
      obtain rfl := Option.some.inj hs
      exact .conclude hp hc
    · cases hs
  | land =>
    simp only [step] at hs
    split at hs
    · cases hs
    · rename_i append rest hq
      obtain rfl := Option.some.inj hs
      exact .land hq
  | fail =>
    simp only [step] at hs
    split at hs
    · cases hs
    · rename_i append rest hq
      obtain rfl := Option.some.inj hs
      exact .fail hq
  | cancel path =>
    simp only [step] at hs
    split at hs
    · cases hs
    · rename_i hp
      obtain rfl := Option.some.inj hs
      exact .cancel hp
  | returns =>
    simp only [step, returns] at hs
    split at hs
    · rename_i outcome hp hc
      split_ifs at hs with hany
      obtain rfl := Option.some.inj hs
      exact .returns hp hc ((any_terminal_iff s.queue).mp hany)
    · cases hs
  | throws =>
    simp only [step] at hs
    split at hs
    · rename_i hp
      obtain rfl := Option.some.inj hs
      exact .throws hp
    · cases hs
  | settle => exact .settle hs
  | release =>
    simp only [step] at hs
    split at hs
    · rename_i result hp
      obtain rfl := Option.some.inj hs
      exact .release hp
    · cases hs

end Execution

end KimchiWorkflows.Host
