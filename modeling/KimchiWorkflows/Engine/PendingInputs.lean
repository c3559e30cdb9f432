import Mathlib.Data.List.Sort
import KimchiWorkflows.Engine.StepState
import KimchiWorkflows.Engine.RunContext

namespace KimchiWorkflows.Engine

open KimchiWorkflows.Flow

/-- A recorded request for human input, with its place in the log. -/
structure Asked where
  index : Nat
  path : NodePath
  input : HumanInput
  violation : Option String := none
  elapsedMs : Option Nat := none
  tokensUsed : Option Nat := none

def askedBy (event : RunEvent) (index : Nat) : Option Asked :=
  match event with
  | .questionnaireAsked path questionnaire conversation violation elapsedMs tokensUsed =>
    some ⟨index, path, .questionnaire questionnaire conversation, violation, elapsedMs, tokensUsed⟩
  | .interactionRequested path request violation =>
    some ⟨index, path, .interaction request, violation, none, none⟩
  | _ => none

def Asked.isQuestionnaire (asked : Asked) : Bool :=
  match asked.input with
  | .questionnaire _ _ => true
  | .interaction _ => false

def Asked.isInteraction (asked : Asked) : Bool := !asked.isQuestionnaire

def askedInputs (events : List RunEvent) : List Asked :=
  events.zipIdx.filterMap (fun entry => askedBy entry.1 entry.2)

def latestByKey (events : List RunEvent) : List (NodePath × Asked) :=
  (askedInputs events).foldl (fun latest asked => Dict.set latest (staticKeyOf asked.path) asked) []

def pendingHumanInputs (events : List RunEvent) : List Asked :=
  ((deriveStepStates events).filterMap (fun entry =>
    if entry.2 = .blocked then Dict.get (latestByKey events) entry.1 else none)).insertionSort
      (fun a b => a.index ≤ b.index)

/-- What overtook a request after it was recorded, if anything did. -/
def settlement (path : NodePath) : RunEvent → Option String
  | .runCancelled _ _ => some "cancelled"
  | .runCompleted _ => some "completed"
  | .runCrashed _ _ => some "crashed"
  | .stepCancelled p => if p = path then some "cancelled" else none
  | .stepCompleted p _ => if p = path then some "completed" else none
  | .stepFailed p _ => if p = path then some "crashed" else none
  | .answersProvided p _ => if p = path then some "resumed" else none
  | .interactionProvided p _ => if p = path then some "resumed" else none
  | _ => none

def settledAfter (events : List RunEvent) (pending : Asked) : Option String :=
  (events.drop (pending.index + 1)).findSome? (settlement pending.path)

def lastAsked (keep : Asked → Bool) (events : List RunEvent) : Option Asked :=
  ((askedInputs events).filter keep).getLast?

def findAskedAt (keep : Asked → Bool) (events : List RunEvent) (path : NodePath) : Option Asked :=
  ((askedInputs events).filter (fun asked => keep asked && asked.path = path)).getLast?

/-- The request a call is about: at the path it names, else the first pending one of its kind. -/
def selectPending (keep : Asked → Bool) (events : List RunEvent) : Option NodePath → Option Asked
  | some path => findAskedAt keep events path
  | none => (((pendingHumanInputs events).filter keep).head?).or (lastAsked keep events)

/-- A questionnaire left waiting is reported without the violation it was last asked with. -/
def pendingBlockFromEvent (asked : Asked) : PendingBlock :=
  match asked.input with
  | .questionnaire _ _ => ⟨asked.path, asked.input, none⟩
  | .interaction _ => ⟨asked.path, asked.input, asked.violation⟩

def pendingBlocksExcept (events : List RunEvent) (target : NodePath) : List (NodePath × PendingBlock) :=
  ((pendingHumanInputs events).filter (fun asked => asked.path ≠ target)).foldl
    (fun blocks asked => Dict.set blocks (staticKeyOf asked.path) (pendingBlockFromEvent asked)) []

end KimchiWorkflows.Engine
