import Mathlib.Data.List.Induction
import KimchiWorkflows.Engine.RunContext
import KimchiWorkflows.Engine.StepNodes

namespace KimchiWorkflows.Engine

open KimchiWorkflows.Flow

/-- Rebuild the outputs from every recorded completion; the latest one of a key wins. -/
def rebuildStepOutputs (events : List RunEvent) : StepOutputs :=
  (events.filterMap RunEvent.completion).foldl
    (fun outputs entry => Dict.set outputs (staticKeyOf entry.1) entry.2) []

def recordItem (history : ForeachItemHistory) (path : NodePath) (index : Nat) (output : Value) :
    ForeachItemHistory :=
  match path.getLast? with
  | some { name := name, index := some _ } =>
    let foreachKey := appendSegment path.dropLast name
    Dict.set history foreachKey (Dict.set ((Dict.get history foreachKey).getD []) index output)
  | _ => history

def buildForeachItemHistory (events : List RunEvent) : ForeachItemHistory :=
  events.foldl (fun history event =>
    match event with
    | .foreachItemCompleted path index output => recordItem history path index output
    | _ => history) []

structure CompletedKeys where
  completed : List NodePath := []
  ordered : List NodePath := []

def CompletedKeys.next (keys : CompletedKeys) : RunEvent → CompletedKeys
  | .stepCompleted path _ =>
    let key := staticKeyOf path
    { completed := keys.completed.insert key
      ordered := if key ∈ keys.completed then keys.ordered else keys.ordered ++ [key] }
  | .stepStarted path _ => { keys with completed := keys.completed.filter (· ≠ staticKeyOf path) }
  | .questionnaireAsked path _ _ _ _ _ =>
    { keys with completed := keys.completed.filter (· ≠ staticKeyOf path) }
  | .interactionRequested path _ _ =>
    { keys with completed := keys.completed.filter (· ≠ staticKeyOf path) }
  | _ => keys

/-- Static keys of steps that completed and were not opened again, in order of completion. -/
def completedStepKeys (events : List RunEvent) : List NodePath :=
  let keys := events.foldl CompletedKeys.next {}
  keys.ordered.filter (· ∈ keys.completed)

mutual

def resolveAtNode (head : String) (rest : List String) : WorkflowNode → Option StepDefinition
  | .step step => if step.name = head ∧ rest = [] then some step else none
  | .branch _ arms => resolveAtArms head rest arms
  | .loop name _ body _ _ => if name = head then resolveInScope rest body else none
  | .foreach name body _ _ _ => if name = head then resolveInScope rest body else none
  | .parallel name arms =>
    match rest with
    | [arm] => if name = head then arms.find? (fun step => step.name = arm) else none
    | _ => none
  | .workflow name nodes => if name = head then resolveInScope rest nodes else none

def resolveInScope (segments : List String) : List WorkflowNode → Option StepDefinition
  | [] => none
  | node :: nodes =>
    match segments with
    | [] => none
    | head :: rest => (resolveAtNode head rest node).or (resolveInScope segments nodes)

def resolveAtArms (head : String) (rest : List String) : List BranchArm → Option StepDefinition
  | [] => none
  | .mk name _ body :: arms =>
    if name = head then resolveInScope rest body else resolveAtArms head rest arms

end

def resolveStepAtStaticPath (nodes : List WorkflowNode) (segments : List String) : Option StepDefinition :=
  resolveInScope segments nodes

def driftAt (workflow : WorkflowDefinition) (runId : String) (stepOutputs : StepOutputs)
    (key : NodePath) : Option (String × NodePath) :=
  match resolveStepAtStaticPath workflow.nodes (key.map PathSegment.name) with
  | none => some ("cannot resume run " ++ runId ++ ": previously-completed step \"" ++ formatPath key ++
      "\" no longer exists in workflow \"" ++ workflow.name ++ "\" (definition drift, spec §8.7)", key)
  | some step =>
    (violationOf step.outputSchema ((Dict.get stepOutputs key).getD .undefined)).map (fun violation =>
      ("cannot resume run " ++ runId ++ ": previously-completed step \"" ++ formatPath key ++
        "\" no longer satisfies its current output schema (definition drift, spec §8.7): " ++ violation, key))

def checkDrift (workflow : WorkflowDefinition) (events : List RunEvent) (stepOutputs : StepOutputs)
    (runId : String) : Option (String × NodePath) :=
  (completedStepKeys events).findSome? (driftAt workflow runId stepOutputs)

def firstIncompleteTopLevelIndex (nodes : List WorkflowNode) (stepOutputs : StepOutputs) : Nat :=
  (nodes.findIdx? (fun node => !Dict.has stepOutputs [{ name := nodeName node }])).getD nodes.length

def inPrefix (nodes : List WorkflowNode) (startIndex : Nat) (key : NodePath) : Bool :=
  key.head?.any (fun root => (nodes.take startIndex).any (fun node => nodeName node = root.name))

variable {log first last : List RunEvent} {event : RunEvent} {key : NodePath}

def RunEvent.completes (key : NodePath) (event : RunEvent) : Option Value :=
  event.completion.bind (fun entry => if staticKeyOf entry.1 = key then some entry.2 else none)

def lastCompletion (log : List RunEvent) (key : NodePath) : Option Value :=
  (log.filterMap (RunEvent.completes key)).getLast?

theorem lastCompletion_append :
    lastCompletion (first ++ last) key = (lastCompletion last key).or (lastCompletion first key) := by
  rw [lastCompletion, List.filterMap_append, List.getLast?_append]
  rfl

theorem rebuildStepOutputs_concat (log : List RunEvent) (event : RunEvent) :
    rebuildStepOutputs (log ++ [event]) = event.completion.elim (rebuildStepOutputs log)
      (fun entry => Dict.set (rebuildStepOutputs log) (staticKeyOf entry.1) entry.2) := by
  unfold rebuildStepOutputs
  rw [List.filterMap_append, List.foldl_append]
  cases h : event.completion <;> simp [h]

theorem get_rebuildStepOutputs (log : List RunEvent) (key : NodePath) :
    Dict.get (rebuildStepOutputs log) key = lastCompletion log key := by
  induction log using List.reverseRecOn with
  | nil => rfl
  | append_singleton log event ih =>
    rw [rebuildStepOutputs_concat, lastCompletion_append]
    cases h : event.completion with
    | none => simpa [lastCompletion, RunEvent.completes, h] using ih
    | some entry =>
      rw [Option.elim_some, Dict.get_set, ih]
      by_cases hk : key = staticKeyOf entry.1
      · simp [lastCompletion, RunEvent.completes, h, hk]
      · simp [lastCompletion, RunEvent.completes, h, hk, Ne.symm hk]

theorem lastCompletion_eq_none_iff :
    lastCompletion log key = none ↔ ∀ event ∈ log, event.completes key = none := by
  simp [lastCompletion]

theorem completes_iff {output : Value} :
    event.completes key = some output ↔ ∃ path, event.completion = some (path, output) ∧ staticKeyOf path = key := by
  cases h : event.completion with
  | none => simp [RunEvent.completes, h]
  | some entry =>
    obtain ⟨path, value⟩ := entry
    by_cases hk : staticKeyOf path = key
    · simp [RunEvent.completes, h, hk]
    · simp [RunEvent.completes, h, hk]

end KimchiWorkflows.Engine
