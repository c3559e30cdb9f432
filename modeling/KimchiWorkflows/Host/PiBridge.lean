import KimchiWorkflows.Host.AgentMessages
import Mathlib.Logic.Function.Basic

/-!
The bridge that holds one in-session turn of the PI session, with everything that writes its one slot.
-/

namespace KimchiWorkflows.Host.PiBridge

open KimchiWorkflows.Engine.StepRunner

structure PiAgentControl where
  ui : Bool
  sessionManager : Bool

structure SessionRequest where
  stepName : String
  identity : StepSubmissionIdentity
  model : Option String := none
  signal : Option Nat := none
  finds : String → String → Bool := fun _ _ => false
  control : Option PiAgentControl := none

structure InFlight where
  session : Nat
  turn : Nat
  stepName : String
  identity : StepSubmissionIdentity
  signal : Option Nat
  control : Option PiAgentControl
  watchesUsage : Bool
  cursorCaptured : Bool
  sessionCursor : Option String
  terminal : AgentTurn := { text := "" }
  awaitingRetry : Bool := false
  retryInterrupted : Bool := false
  cancelled : Bool := false
  lastReportedTokens : Option Nat := none

inductive LifecycleEvent where
  | agentStart
  | messageUpdate (message : AgentMessage)
  | agentEnd (messages : AgentMessages)
  | agentSettled

/-- How a call settles; with a reply goes the entry of the session that its submission was read from. -/
inductive TurnOutcome where
  | resolved (reply : AgentTurn) (submittedIn : Option SessionEntry)
  | rejected (error : String)

structure Parked where
  session : Nat
  watchesUsage : Bool

/-- The bridge with what its sessions hold, the session of PI, and what its calls have come to. A loop goes by the
number of the call whose message triggered it. -/
structure Bridge where
  inFlight : Option InFlight := none
  requests : Nat → Option SessionRequest := fun _ => none
  conversations : Nat → AgentMessages := fun _ => []
  aborted : Nat → Bool := fun _ => false
  calls : Nat → Option Nat := fun _ => none
  parked : Nat → Option Parked := fun _ => none
  sent : Nat → Bool := fun _ => false
  branch : List SessionEntry := []
  writers : String → Option Nat := fun _ => none
  reported : List (Nat × Nat) := []
  settled : List (Nat × TurnOutcome) := []
  delivered : List (Nat × AgentMessages) := []

def getLeafId (b : Bridge) : Option String := b.branch.getLast?.map SessionEntry.id

def settle (b : Bridge) (call : Nat) (outcome : TurnOutcome) : Bridge :=
  { b with settled := b.settled ++ [(call, outcome)] }

def reject (b : Bridge) (call : Nat) (error : String) : Bridge := settle b call (.rejected error)

def stepPrefix (stepName : String) : String := "pi-agent bridge: step \"" ++ stepName ++ "\""

def crossTalkError (stepName other : String) : String :=
  stepPrefix stepName ++ " tried to start an in-session agent turn while step \"" ++ other ++
    "\"'s turn is still in flight. A PI session hosts one conversation at a time (spec §2.2) — this step should " ++
    "have been statically isolated (background subprocess); refusing to let the two turns cross-talk rather than " ++
    "resolving one with the other's reply."

def startedTurn (b : Bridge) (session call : Nat) (request : SessionRequest) (watchesUsage : Bool) : InFlight where
  session := session
  turn := call
  stepName := request.stepName
  identity := request.identity
  signal := request.signal
  control := request.control
  watchesUsage := watchesUsage
  cursorCaptured := request.control.any PiAgentControl.sessionManager
  sessionCursor := if request.control.any PiAgentControl.sessionManager then getLeafId b else none

/-- A call from where its last await is behind it; the slot is taken whatever it holds. -/
def beginTurn (b : Bridge) (session call : Nat) (request : SessionRequest) (watchesUsage : Bool)
    (sends : Except String Unit) : Bridge :=
  if request.signal.any b.aborted then
    reject b call (stepPrefix request.stepName ++ " was aborted before its turn started")
  else match sends with
    | .error error => reject { b with inFlight := none } call error
    | .ok () =>
      { b with inFlight := some (startedTurn b session call request watchesUsage)
               sent := Function.update b.sent call true }

def called (b : Bridge) (session call : Nat) : Bridge :=
  { b with calls := Function.update b.calls call (some session) }

def park (b : Bridge) (call : Nat) (waiting : Option Parked) : Bridge :=
  { b with parked := Function.update b.parked call waiting }

def sendAndAwaitEnd (b : Bridge) (session call : Nat) (request : SessionRequest) (watchesUsage : Bool)
    (sends : Except String Unit) : Bridge :=
  match b.inFlight with
  | some turn => reject (called b session call) call (crossTalkError request.stepName turn.stepName)
  | none =>
    match request.model with
    | none => beginTurn (called b session call) session call request watchesUsage sends
    | some model =>
      if resolveModel request.finds model then park (called b session call) call (some ⟨session, watchesUsage⟩)
      else reject (called b session call) call ("unknown model \"" ++ model ++ "\" (expected provider/modelId)")

/-- What a call goes on with once `pi.setModel` is back: the slot is not looked at again. -/
def modelSet (b : Bridge) (call : Nat) (waiting : Parked) (request : SessionRequest) (result : Except String Bool)
    (sends : Except String Unit) : Bridge :=
  match result with
  | .error error => reject (park b call none) call error
  | .ok false =>
    reject (park b call none) call ("no API key available for model \"" ++ request.model.getD "" ++ "\"")
  | .ok true => beginTurn (park b call none) waiting.session call request waiting.watchesUsage sends

/-- The usage that an update reports, if it is news to the turn. -/
def newUsage (turn : InFlight) (message : AgentMessage) : Option Nat :=
  if turn.watchesUsage then
    (lastAssistantUsage [message]).filter (fun total => 0 < total ∧ some total ≠ turn.lastReportedTokens)
  else none

def onMessageUpdate (b : Bridge) (turn : InFlight) (message : AgentMessage) : Bridge :=
  match newUsage turn message with
  | none => b
  | some total =>
    { b with inFlight := some { turn with lastReportedTokens := some total }
             reported := b.reported ++ [(turn.turn, total)] }

def onAgentStart (b : Bridge) (turn : InFlight) : Bridge :=
  { b with inFlight := some { turn with cursorCaptured := true
                                        sessionCursor := if turn.cursorCaptured then turn.sessionCursor
                                          else getLeafId b
                                        awaitingRetry := false
                                        retryInterrupted := false } }

def terminalOf (messages : AgentMessages) : AgentTurn where
  text := lastAssistantText messages
  usage := lastAssistantUsage messages
  cancelled := lastAssistantWasAborted messages
  error := lastAssistantError messages

def onAgentEnd (b : Bridge) (turn : InFlight) (messages : AgentMessages) : Bridge :=
  { b with inFlight := some { turn with terminal := terminalOf messages
                                        awaitingRetry := (lastAssistantError messages).isSome }
           conversations := Function.update b.conversations turn.session
             (b.conversations turn.session ++ messages) }

def wasCancelled (turn : InFlight) : Bool := turn.cancelled || turn.retryInterrupted || turn.terminal.cancelled

def submittedIn (b : Bridge) (turn : InFlight) : Option SessionEntry :=
  if turn.cursorCaptured then submissionEntry b.branch turn.sessionCursor turn.identity else none

def reply (b : Bridge) (turn : InFlight) : AgentTurn where
  text := turn.terminal.text
  usage := turn.terminal.usage
  cancelled := wasCancelled turn
  submitted := if turn.cursorCaptured
    then latestSubmissionAfterCursor b.branch turn.sessionCursor turn.identity else none
  error := if wasCancelled turn then none else turn.terminal.error

def onAgentSettled (b : Bridge) (turn : InFlight) : Bridge :=
  settle { b with inFlight := none } turn.turn (.resolved (reply b turn) (submittedIn b turn))

def onEvent (b : Bridge) (turn : InFlight) : LifecycleEvent → Bridge
  | .agentStart => onAgentStart b turn
  | .messageUpdate message => onMessageUpdate b turn message
  | .agentEnd messages => onAgentEnd b turn messages
  | .agentSettled => onAgentSettled b turn

/-- The listeners look at what is in flight, not at the loop the event is of. -/
def onLifecycle (b : Bridge) (event : LifecycleEvent) : Bridge := b.inFlight.elim b (fun turn => onEvent b turn event)

def endedWith (loop : Nat) : LifecycleEvent → List (Nat × AgentMessages)
  | .agentEnd messages => [(loop, messages)]
  | _ => []

def deliver (b : Bridge) (loop : Nat) (event : LifecycleEvent) : Bridge :=
  { onLifecycle b event with delivered := b.delivered ++ endedWith loop event }

def abortSignal (b : Bridge) (signal : Nat) : Bridge :=
  { b with aborted := Function.update b.aborted signal true
           inFlight := b.inFlight.map (fun turn =>
             if turn.signal = some signal ∧ b.aborted signal = false then { turn with cancelled := true } else turn) }

def onInterrupt (b : Bridge) : Bridge :=
  { b with inFlight := b.inFlight.map (fun turn =>
      if turn.control.any PiAgentControl.ui ∧ turn.awaitingRetry then { turn with retryInterrupted := true }
      else turn) }

def idleError (stepName : String) : Option String → String
  | none => stepPrefix stepName ++ " became idle without the run settling; the PI turn failed before its completion " ++
      "event. PI reports the underlying send_message failure separately through its extension-error output"
  | some error => "pi-agent bridge: could not verify completion of step \"" ++ stepName ++ "\": " ++ error

/-- The watcher of one call fails it, if it is still the one in flight. -/
def onIdle (b : Bridge) (call : Nat) (failure : Option String) : Bridge :=
  match b.inFlight with
  | none => b
  | some turn =>
    if turn.turn = call ∧ turn.control.isSome then
      reject { b with inFlight := none } call (idleError turn.stepName failure)
    else b

def dispose (b : Bridge) (session : Nat) : Bridge :=
  { b with inFlight := b.inFlight.filter (fun turn => turn.session ≠ session) }

inductive BridgeAct where
  | start (session : Nat) (request : SessionRequest)
  | send (session call : Nat) (watchesUsage : Bool) (sends : Except String Unit)
  | modelSet (call : Nat) (result : Except String Bool) (sends : Except String Unit)
  | lifecycle (loop : Nat) (event : LifecycleEvent)
  | wrote (loop : Option Nat) (entry : SessionEntry)
  | abort (signal : Nat)
  | interrupt
  | idle (call : Nat) (failure : Option String)
  | dispose (session : Nat)

/-- One step; sessions, calls and entries get numbers of their own, and only a loop that was triggered has events. -/
def bridgeStep (b : Bridge) : BridgeAct → Option Bridge
  | .start session request =>
    if (b.requests session).isNone then some { b with requests := Function.update b.requests session (some request) }
    else none
  | .send session call watchesUsage sends =>
    if (b.calls call).isNone then
      (b.requests session).map (fun request => sendAndAwaitEnd b session call request watchesUsage sends)
    else none
  | .modelSet call result sends =>
    (b.parked call).bind (fun waiting =>
      (b.requests waiting.session).map (fun request => modelSet b call waiting request result sends))
  | .lifecycle loop event => if b.sent loop then some (deliver b loop event) else none
  | .wrote loop entry =>
    if loop.all b.sent ∧ entry.id ∉ b.branch.map SessionEntry.id then
      some { b with branch := b.branch ++ [entry], writers := Function.update b.writers entry.id loop }
    else none
  | .abort signal => some (abortSignal b signal)
  | .interrupt => some (onInterrupt b)
  | .idle call failure => some (onIdle b call failure)
  | .dispose session => some (dispose b session)

end KimchiWorkflows.Host.PiBridge
