import Mathlib.Data.List.DropRight
import KimchiWorkflows.Host.Telemetry
import KimchiWorkflows.Host.TurnReading
import KimchiWorkflows.Lib.Stepping

/-!
The process of a subagent: its pipes are drained as it talks, its exit is awaited without waiting for a pipe
that someone else holds open, and an abort ends it for good.
-/

namespace KimchiWorkflows.Host.SubagentProcess

open Json Stepping KimchiWorkflows.Host.Transcript KimchiWorkflows.Host.Telemetry

inductive Signal where
  | sigterm | sigkill
  deriving DecidableEq

inductive Pipe where
  | stdout | stderr
  deriving DecidableEq

inductive ExitOutcome where
  | resolved (code : Option Int)
  | rejected (error : String)

def stderrTailChars : Nat := 8 * 1024

/-- `text.slice(-limit)` -/
def sliceTail {α : Type} (limit : Nat) (text : List α) : List α := if limit = 0 then text else text.rtake limit

def units (text : Text) : List Nat := text.flatMap codeUnits

structure Subagent where
  stdoutOpen : Bool
  stderrOpen : Bool
  exited : Bool := false
  exitCode : Option Int := none
  idle : Bool := false
  destroyed : Bool := false
  settled : Option ExitOutcome := none
  chunks : List Text := []
  stderrTail : List Nat := []
  watching : Bool := false
  killing : Bool := false
  escalation : Bool := false
  reaped : Bool := false
  signals : List Signal := []

/-- What the process and its pipes, the timers, the abort of the attempt and the caller's cleanup do, in any order. -/
inductive SubagentEvent where
  | data (pipe : Pipe) (chunk : Text)
  | ended (pipe : Pipe)
  | pipeFailed (pipe : Pipe)
  | failed (error : String)
  | exit (code : Option Int)
  | close (code : Option Int)
  | idleFired
  | abort
  | escalated
  | reaped

def Subagent.isOpen (child : Subagent) : Pipe → Bool
  | .stdout => child.stdoutOpen
  | .stderr => child.stderrOpen

def Subagent.openPipes (child : Subagent) : Nat := child.stdoutOpen.toNat + child.stderrOpen.toNat

def Subagent.finish (child : Subagent) (code : Option Int) : Subagent :=
  if child.settled.isSome then child
  else { child with settled := some (.resolved code), idle := false, destroyed := true }

def Subagent.armIdle (child : Subagent) : Subagent := { child with idle := true }

def Subagent.consume (child : Subagent) (chunk : Text) : Pipe → Subagent
  | .stdout => { child with chunks := child.chunks ++ [chunk] }
  | .stderr => { child with stderrTail := sliceTail stderrTailChars (child.stderrTail ++ units chunk) }

def Subagent.closePipe (child : Subagent) : Pipe → Subagent
  | .stdout => { child with stdoutOpen := false }
  | .stderr => { child with stderrOpen := false }

def Subagent.kill (child : Subagent) : Subagent :=
  { child with
    signals := child.signals ++ [.sigterm]
    escalation := child.escalation || !child.killing
    killing := true }

def Subagent.step (child : Subagent) : SubagentEvent → Option Subagent
  | .data pipe chunk =>
    if child.isOpen pipe && !child.destroyed then
      let read := child.consume chunk pipe
      some (if read.exited then read.armIdle else read)
    else none
  | .ended pipe =>
    if child.isOpen pipe && !child.destroyed then
      let left := child.closePipe pipe
      some (if left.exited && left.openPipes = 0 then left.finish left.exitCode else left)
    else none
  | .pipeFailed _ => some child
  | .failed error =>
    some (if child.settled.isSome then child else { child with settled := some (.rejected error), idle := false })
  | .exit code =>
    let gone := { child with exited := true, exitCode := code }
    some (if gone.openPipes = 0 then gone.finish code else gone.armIdle)
  | .close code => some (child.finish code)
  | .idleFired => if child.idle then some (Subagent.finish { child with idle := false } child.exitCode) else none
  | .abort => if child.watching then some (Subagent.kill { child with watching := false }) else none
  | .escalated =>
    if child.escalation then
      some { child with escalation := false, signals := child.signals ++ [.sigkill] }
    else none
  | .reaped =>
    if child.settled.isSome then some { child with reaped := true, escalation := false, watching := false } else none

inductive AbortSignal where
  | absent | pending | aborted

def spawned (stdout stderr : Bool) : AbortSignal → Subagent
  | .absent => { stdoutOpen := stdout, stderrOpen := stderr }
  | .pending => { stdoutOpen := stdout, stderrOpen := stderr, watching := true }
  | .aborted => Subagent.kill { stdoutOpen := stdout, stderrOpen := stderr }

structure SubagentResult where
  code : Int
  turn : ReadAssistantTurn
  stderrTail : List Nat

/-- What running a subagent answers, once its process has settled; none if reading its output throws. -/
def Subagent.answer (js : Runtime) (child : Subagent) : ExitOutcome → Option (Except String SubagentResult)
  | .resolved code => (readChunks js child.chunks).map (fun turn =>
      .ok { code := code.getD 0, turn := turn, stderrTail := child.stderrTail })
  | .rejected error => some (.error error)

def received (pipe : Pipe) (events : List SubagentEvent) : List Text :=
  events.filterMap (fun event => match event with
    | .data from_ chunk => if from_ = pipe then some chunk else none
    | _ => none)

def Reported (events : List SubagentEvent) : ExitOutcome → Prop
  | .resolved code => .exit code ∈ events ∨ .close code ∈ events
  | .rejected error => .failed error ∈ events

/-- What holds of a subagent's process at any moment: once it has exited something is due that settles it; it has
been read whole; and it is killed at most once, after it was asked to end. -/
structure Attended (events : List SubagentEvent) (child : Subagent) : Prop where
  due : child.exited = true → child.settled = none → child.idle = true ∧ 0 < child.openPipes
  outcome : ∀ outcome, child.settled = some outcome → Reported events outcome
  read : child.chunks = received .stdout events
  tail : child.stderrTail = sliceTail stderrTailChars (units (received .stderr events).flatten)
  signals : child.signals = [] ∨ child.signals = [.sigterm] ∨ child.signals = [.sigterm, .sigkill]
  pending : child.signals = [.sigterm] → child.escalation = true ∨ child.reaped = true

variable {events : List SubagentEvent} {event : SubagentEvent} {child child' : Subagent} {code : Option Int}

theorem received_concat (pipe : Pipe) (events : List SubagentEvent) (event : SubagentEvent) :
    received pipe (events ++ [event]) = received pipe events ++ received pipe [event] := List.filterMap_append

theorem sliceTail_append {α : Type} (limit : Nat) (text more : List α) :
    sliceTail limit (sliceTail limit text ++ more) = sliceTail limit (text ++ more) := by
  unfold sliceTail
  split_ifs with hzero
  · rfl
  · rw [List.rtake, List.rtake, List.rtake, List.length_append, List.length_append, List.length_drop, List.drop_append,
      List.drop_append, List.drop_drop]
    congr 1
    · congr 1
      omega
    · congr 1
      rw [List.length_drop]
      omega

theorem units_append (text more : Text) : units (text ++ more) = units text ++ units more := List.flatMap_append

theorem sliceTail_nil {α : Type} (limit : Nat) : sliceTail limit ([] : List α) = [] := by
  unfold sliceTail
  split_ifs
  · rfl
  · exact List.rtake_nil _

theorem consume_stdout (child : Subagent) (chunk : Text) :
    child.consume chunk .stdout = { child with chunks := child.chunks ++ [chunk] } := rfl

theorem consume_stderr (child : Subagent) (chunk : Text) : child.consume chunk .stderr =
    { child with stderrTail := sliceTail stderrTailChars (child.stderrTail ++ units chunk) } := rfl

end KimchiWorkflows.Host.SubagentProcess
