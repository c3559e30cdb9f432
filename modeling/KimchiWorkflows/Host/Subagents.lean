import KimchiWorkflows.Host.SessionFiles
import KimchiWorkflows.Flow.Questionnaire
import KimchiWorkflows.Lib.Stepping

/-!
The background sessions of one process: each call claims the session file it continues, runs a subagent on it
and gives the file back.
-/

namespace KimchiWorkflows.Host.Subagents

open Stepping

structure BackgroundRequest where
  workflowName : String
  runId : String
  path : String
  attempt : Nat
  stepName : String
  resumeKey : Option String := none
  model : Option String := none
  hasOutputSchema : Bool := false

/-- What the calls of other code come to while a call gets ready. -/
structure Surroundings where
  makesDirectory : Except String Unit := .ok ()
  findsModel : String → Bool := fun _ => true
  writesHandoff : Except String String := .ok "output-tools.json"
  resolvesInvocation : Except String Unit := .ok ()
  spawns : Except String Unit := .ok ()

inductive Child where
  | alive
  | exited (code : Int) (stderrTail : String) (reply : String)
  | failed (error : String)

structure PendingCall where
  id : Nat
  request : BackgroundRequest
  file : String
  handoff : Option String
  aborted : Bool
  child : Child

structure Seat where
  id : Nat
  request : BackgroundRequest
  file : String

def PendingCall.seat (call : PendingCall) : Seat := ⟨call.id, call.request, call.file⟩

structure HostProcess where
  liveResumeFiles : String → Option String := fun _ => none
  pending : List PendingCall := []
  outcomes : List (Nat × Except String String) := []

def HostProcess.seats (s : HostProcess) : List Seat := s.pending.map PendingCall.seat

def BackgroundRequest.key (request : BackgroundRequest) : Option String := request.resumeKey.filter (· ≠ "")

def BackgroundRequest.keyed (request : BackgroundRequest) : Bool := request.key.isSome

section Paths

-- the digits of a name's hash, and how a directory and a file name make a path
variable (hashOf : List Char → Nat → List Char) (join : String → List Char → String)

def sessionPath (dir : String) (request : BackgroundRequest) : String :=
  join dir (match request.key with
    | some resumeKey => resumeSessionFile hashOf request.workflowName resumeKey
    | none => traceSessionFile hashOf request.workflowName request.runId request.path request.attempt)

def claimedError (request : BackgroundRequest) (holder : String) : String :=
  "pi-agent bridge: step \"" ++ request.stepName ++ "\" (" ++ request.path ++ ") resolved resume key \"" ++
    request.resumeKey.getD "" ++ "\" while \"" ++ holder ++ "\" is still writing that same session file. Two " ++
    "subagents appending to one session interleave into nonsense (spec §2.2) — a per-execution resumable() must " ++
    "return a DISTINCT key for every concurrent execution, so include whatever distinguishes them (the .foreach " ++
    "item index) in it."

def claimResumeFile (table : String → Option String) (file : String) (request : BackgroundRequest) :
    Except String (String → Option String) :=
  if request.keyed then
    match table file with
    | some holder => .error (claimedError request holder)
    | none => .ok (Function.update table file (some request.path))
  else .ok table

def releaseResumeFile (table : String → Option String) (file : String) (request : BackgroundRequest) :
    String → Option String :=
  if request.keyed ∧ table file = some request.path then Function.update table file none else table

def unknownModel (model : String) : String := "unknown model \"" ++ model ++ "\" (expected provider/modelId)"

def checkModel (request : BackgroundRequest) (around : Surroundings) : Except String Unit :=
  match request.model.filter (· ≠ "") with
  | some model => if around.findsModel model then .ok () else .error (unknownModel model)
  | none => .ok ()

def writeHandoff (request : BackgroundRequest) (around : Surroundings) : Except String (Option String) :=
  if request.hasOutputSchema then around.writesHandoff.map some else .ok none

/-- What stands between the claim and the subagent: the model, the hand-off file and the invocation. -/
def prepare (request : BackgroundRequest) (around : Surroundings) : Except String (Option String) := do
  checkModel request around
  let handoff ← writeHandoff request around
  around.resolvesInvocation
  pure handoff

def settle (s : HostProcess) (id : Nat) (outcome : Except String String) : HostProcess :=
  { s with outcomes := s.outcomes ++ [(id, outcome)] }

def spawned : Except String Unit → Child
  | .ok () => .alive
  | .error error => .failed error

/-- A call up to its first pause: where it throws after the claim, the claim stays. -/
def sendAndAwaitEnd (s : HostProcess) (id : Nat) (dir : String) (request : BackgroundRequest) (aborted : Bool)
    (around : Surroundings) : HostProcess :=
  match around.makesDirectory with
  | .error error => settle s id (.error error)
  | .ok () =>
    match claimResumeFile s.liveResumeFiles (sessionPath hashOf join dir request) request with
    | .error error => settle s id (.error error)
    | .ok table =>
      match prepare request around with
      | .error error => settle { s with liveResumeFiles := table } id (.error error)
      | .ok handoff =>
        { s with
          liveResumeFiles := table
          pending := s.pending ++ [{ id := id, request := request, file := sessionPath hashOf join dir request
                                     handoff := handoff, aborted := aborted, child := spawned around.spawns }] }

def stderrText (stderrTail : String) : String :=
  match Flow.trimSpacing stderrTail.toList with
  | [] => "(no stderr)"
  | trimmed => String.ofList trimmed

def outcomeOf (call : PendingCall) : Except String String :=
  match call.child with
  | .failed error => .error error
  | .exited code stderrTail reply =>
    if call.aborted then .error ("background subagent step \"" ++ call.request.stepName ++ "\" was aborted")
    else if code ≠ 0 then .error ("background subagent step \"" ++ call.request.stepName ++ "\" exited with code " ++
      toString code ++ ": " ++ stderrText stderrTail)
    else .ok reply
  | .alive => .error "the child has not exited"

def finish (s : HostProcess) (call : PendingCall) (removes : Except String Unit) : HostProcess :=
  match call.handoff, removes with
  | some _, .error error =>
    settle { s with pending := s.pending.filter (·.id ≠ call.id) } call.id (.error error)
  | _, _ =>
    settle { s with
      pending := s.pending.filter (·.id ≠ call.id)
      liveResumeFiles := releaseResumeFile s.liveResumeFiles call.file call.request } call.id (outcomeOf call)

inductive ProcessAct where
  | send (id : Nat) (dir : String) (request : BackgroundRequest) (aborted : Bool) (around : Surroundings)
  | abort (id : Nat)
  | exit (id : Nat) (code : Int) (stderrTail reply : String)
  | fail (id : Nat) (error : String)
  | settle (id : Nat) (removes : Except String Unit)

def Child.isAlive : Child → Bool
  | .alive => true
  | _ => false

def PendingCall.ends (call : PendingCall) (child : Child) : PendingCall :=
  if call.child.isAlive then { call with child := child } else call

def onCall (s : HostProcess) (id : Nat) (f : PendingCall → PendingCall) : HostProcess :=
  { s with pending := s.pending.map (fun call => if call.id = id then f call else call) }

def HostProcess.knows (s : HostProcess) (id : Nat) : Bool := (s.pending.map PendingCall.id ++ s.outcomes.map Prod.fst).contains id

/-- One step; calls have numbers of their own, and a call settles once its child is gone. -/
def step (s : HostProcess) : ProcessAct → Option HostProcess
  | .send id dir request aborted around =>
    if s.knows id then none else some (sendAndAwaitEnd hashOf join s id dir request aborted around)
  | .abort id => some (onCall s id (fun call => { call with aborted := true }))
  | .exit id code stderrTail reply => some (onCall s id (·.ends (.exited code stderrTail reply)))
  | .fail id error => some (onCall s id (·.ends (.failed error)))
  | .settle id removes =>
    (s.pending.find? (·.id = id)).bind (fun call =>
      if call.child.isAlive then none else some (finish s call removes))

end Paths

end KimchiWorkflows.Host.Subagents
