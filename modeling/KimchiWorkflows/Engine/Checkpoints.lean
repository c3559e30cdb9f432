import KimchiWorkflows.Engine.Recovery
import KimchiWorkflows.Engine.LiveStatus

namespace KimchiWorkflows.Engine

open KimchiWorkflows.Flow Process Process.Proc

/-- What an event says about the latest execution of a top-level node: that it began or was cut off, or
that it finished. -/
def RunEvent.finishes (key : NodePath) : RunEvent → Option Bool
  | .stepStarted path _ => if staticKeyOf path = key then some false else none
  | .nodeStarted path _ => if staticKeyOf path = key then some false else none
  | .foreachStarted path _ => if staticKeyOf path = key then some false else none
  | .runCrashed (some path) _ => if staticKeyOf path = key then some false else none
  | .runCancelled (some path) _ => if staticKeyOf path = key then some false else none
  | .stepCompleted path _ => if staticKeyOf path = key then some true else none
  | .stepFailed path _ => if staticKeyOf path = key then some true else none
  | .nodeCompleted path _ => if staticKeyOf path = key then some true else none
  | _ => none

def topLevelKey (node : WorkflowNode) : NodePath := [{ name := nodeName node }]

def finished (log : List RunEvent) (node : WorkflowNode) : Bool :=
  ((log.filterMap (RunEvent.finishes (topLevelKey node))).getLast?).getD false

def everCompleted (log : List RunEvent) (node : WorkflowNode) : Bool :=
  log.any (fun event => (event.completes (topLevelKey node)).isSome)

variable {workflow : WorkflowDefinition} {log : List RunEvent} {nodes : List WorkflowNode}

section Sample

def lintPath : NodePath := [{ name := "lint" }]

end Sample

end KimchiWorkflows.Engine
