import KimchiWorkflows.Lib.Stepping
import Mathlib.Logic.Function.Basic

/-!
Processes of one host that acquire, inspect, retire and release the lease of one run, one file
operation at a time.
-/

namespace KimchiWorkflows.Host

structure Lease where
  executionId : Nat
  owner : Nat
  deriving DecidableEq

structure RetirementMarker where
  lease : Lease
  owner : Nat
  deriving DecidableEq

inductive LeaseState where
  | owned
  | live
  | dead
  deriving DecidableEq

inductive RetireStage where
  | marking (retry : Nat)
  | reading (retry : Nat)
  | judging (marker : RetirementMarker) (retry : Nat)
  | removing (retry : Nat)
  | checking
  | acting
  | unlinking
  | clearing (removed : Bool)
  | retired (removed : Bool)
  deriving DecidableEq

/-- What an operation on the lease does next, or how it ended. -/
inductive LeaseWork where
  | creating (retry : Nat)
  | colliding (retry : Nat)
  | acquired
  | refused
  | looking
  | judging (lease : Lease)
  | inspected (lease : Lease) (state : LeaseState)
  | absent
  | retiring (lease : Lease) (beforeRelease : Bool) (stage : RetireStage)
  deriving DecidableEq

structure LeaseOp where
  owner : Nat
  work : LeaseWork
  deriving DecidableEq

/-- The two files, the processes that are alive, the operations, and the leases whose `beforeRelease` ran. -/
structure LeaseFiles where
  lease : Option Lease
  marker : Option RetirementMarker
  alive : Nat → Bool
  ops : Nat → Option LeaseOp
  performed : List Lease

namespace LeaseFiles

def start : LeaseFiles := ⟨none, none, fun _ => true, fun _ => none, []⟩

def set (s : LeaseFiles) (op : Nat) (o : LeaseOp) : LeaseFiles :=
  { s with ops := Function.update s.ops op (some o) }

end LeaseFiles

/-- A process calls an operation, lets it go on by one file operation, or dies. A retirement is called with
a lease that the process inspected, a release also with one it acquired; `beforeRelease` may fail. -/
inductive LeaseAct where
  | acquire (op process : Nat)
  | inspect (op process : Nat)
  | retire (op source : Nat)
  | release (op source : Nat)
  | advance (op : Nat)
  | fail (op : Nat)
  | die (process : Nat)
  deriving DecidableEq

def maxLeaseRaceRetries : Nat := 3

/-- The lease that a caller of `retire` got from an earlier operation: it was found dead. -/
def deadLease : LeaseWork → Option Lease
  | .inspected lease .dead => some lease
  | _ => none

/-- The lease that a caller of `release` got from an earlier operation: its own, or a dead one. -/
def releasable (source : Nat) (o : LeaseOp) : Option Lease :=
  match o.work with
  | .acquired => some ⟨source, o.owner⟩
  | work => deadLease work

def leaseState (s : LeaseFiles) (process : Nat) (lease : Lease) : LeaseState :=
  if lease.owner = process then .owned else if s.alive lease.owner then .live else .dead

def advanceRetire (s : LeaseFiles) (op process : Nat) (lease : Lease) (beforeRelease : Bool)
    (stage : RetireStage) : Option LeaseFiles :=
  match stage with
  | .marking retry =>
    if s.marker.isNone then
      some ({ s with marker := some ⟨lease, process⟩ }.set op ⟨process, .retiring lease beforeRelease .checking⟩)
    else some (s.set op ⟨process, .retiring lease beforeRelease (.reading retry)⟩)
  | .reading retry =>
    match s.marker with
    | none => some (s.set op ⟨process, .retiring lease beforeRelease (.retired false)⟩)
    | some marker => some (s.set op ⟨process, .retiring lease beforeRelease (.judging marker retry)⟩)
  | .judging marker retry =>
    if s.alive marker.owner then some (s.set op ⟨process, .retiring lease beforeRelease (.retired false)⟩)
    else some (s.set op ⟨process, .retiring lease beforeRelease (.removing retry)⟩)
  | .removing retry =>
    let s := { s with marker := none }
    if retry = maxLeaseRaceRetries then some (s.set op ⟨process, .retiring lease beforeRelease (.retired false)⟩)
    else some (s.set op ⟨process, .retiring lease beforeRelease (.marking (retry + 1))⟩)
  | .checking =>
    if s.lease = some lease then some (s.set op ⟨process, .retiring lease beforeRelease .acting⟩)
    else some (s.set op ⟨process, .retiring lease beforeRelease (.clearing false)⟩)
  | .acting =>
    some ({ s with performed := if beforeRelease then s.performed ++ [lease] else s.performed }.set op
      ⟨process, .retiring lease beforeRelease .unlinking⟩)
  | .unlinking =>
    some ({ s with lease := none }.set op ⟨process, .retiring lease beforeRelease (.clearing true)⟩)
  | .clearing removed =>
    some ({ s with marker := none }.set op ⟨process, .retiring lease beforeRelease (.retired removed)⟩)
  | .retired _ => none

def advanceOp (s : LeaseFiles) (op process : Nat) : LeaseWork → Option LeaseFiles
  | .creating retry =>
    if s.lease.isNone then some ({ s with lease := some ⟨op, process⟩ }.set op ⟨process, .acquired⟩)
    else some (s.set op ⟨process, .colliding retry⟩)
  | .colliding retry =>
    if s.lease.isSome || retry = maxLeaseRaceRetries then some (s.set op ⟨process, .refused⟩)
    else some (s.set op ⟨process, .creating (retry + 1)⟩)
  | .looking =>
    match s.lease with
    | none => some (s.set op ⟨process, .absent⟩)
    | some lease => some (s.set op ⟨process, .judging lease⟩)
  | .judging lease => some (s.set op ⟨process, .inspected lease (leaseState s process lease)⟩)
  | .retiring lease beforeRelease stage => advanceRetire s op process lease beforeRelease stage
  | _ => none

/-- The call of an operation under a number that no operation has. -/
def callOp (s : LeaseFiles) (op process : Nat) (work : LeaseWork) : Option LeaseFiles :=
  if s.alive process && (s.ops op).isNone then some (s.set op ⟨process, work⟩) else none

def leaseStep (s : LeaseFiles) : LeaseAct → Option LeaseFiles
  | .acquire op process => callOp s op process (.creating 0)
  | .inspect op process => callOp s op process .looking
  | .retire op source => (s.ops source).bind fun o =>
    (deadLease o.work).bind fun lease => callOp s op o.owner (.retiring lease true (.marking 0))
  | .release op source => (s.ops source).bind fun o =>
    (releasable source o).bind fun lease => callOp s op o.owner (.retiring lease false (.marking 0))
  | .advance op => (s.ops op).bind fun o => if s.alive o.owner then advanceOp s op o.owner o.work else none
  | .fail op => (s.ops op).bind fun o =>
    match o.work with
    | .retiring lease true .acting =>
      if s.alive o.owner then some (s.set op ⟨o.owner, .retiring lease true (.clearing false)⟩) else none
    | _ => none
  | .die process => some { s with alive := Function.update s.alive process false }

end KimchiWorkflows.Host
