import KimchiWorkflows.Engine.StepNodes

namespace KimchiWorkflows.Engine

open KimchiWorkflows.Flow Process

/-- How a node is run: its input, the path of its scope, the frames around it, the re-entry. -/
abbrev NodeRunner := Value → NodePath → List ScopeFrame → Option Reentry → Code

abbrev Walked := WorkflowNode × NodeRunner

def leafNameOf (reentry : Reentry) : Option String := reentry.path.head?.map PathSegment.name

def emptyPathError : String := "resume: re-entry path is empty at a node boundary (definition drift?)"

def matchesReentryTarget (targetName : String) (node : WorkflowNode) : Bool :=
  match node with
  | .branch name arms => name = targetName || arms.any (fun arm => arm.name = targetName)
  | node => nodeName node = targetName

def lostTargetError (targetName : String) : String :=
  "cannot resume: previously-blocked step \"" ++ targetName ++
    "\" no longer exists in this workflow (definition drift, spec §8.7)"

/-- Walk the nodes with linear hand-off; the re-entry is meant for the first of them. -/
def walkNodes (parentPath : NodePath) (frames : List ScopeFrame) :
    List Walked → Value → Option Reentry → Code
  | [], output, _ => conclude (.ok output)
  | (node, run) :: rest, output, reentry =>
    .look (fun memory =>
      if memory.aborted then conclude (.cancelled none none)
      else ifOk (run output parentPath frames reentry) (fun output =>
        .act (.setStepOutput (staticChildKey parentPath (nodeName node)) output)
          (walkNodes parentPath frames rest output none)))

/-- The hand-off of the node a re-entry jumps to: what its predecessor is recorded with. -/
def recoveredInput (nodes : List Walked) (index : Nat) (previousOutput : Value)
    (parentPath : NodePath) (memory : RunMemory) : Value :=
  match index with
  | 0 => previousOutput
  | before + 1 =>
    (nodes[before]?).elim previousOutput (fun previous =>
      memory.outputAt (staticChildKey parentPath (nodeName previous.1)))

def runNodeSequence (nodes : List Walked) (previousOutput : Value) (parentPath : NodePath)
    (frames : List ScopeFrame) (startIndex : Nat) : Option Reentry → Code
  | none => walkNodes parentPath frames (nodes.drop startIndex) previousOutput none
  | some reentry =>
    match leafNameOf reentry with
    | none => raise emptyPathError
    | some targetName =>
      match nodes.findIdx? (fun node => matchesReentryTarget targetName node.1) with
      | none => conclude (.crashed (lostTargetError targetName) none)
      | some index => .look (fun memory =>
          walkNodes parentPath frames (nodes.drop index)
            (recoveredInput nodes index previousOutput parentPath memory) (some reentry))

/-- What a round leaves to the next one: its own output, or what it received when it made none. -/
def passThrough (output received : Value) : Value := if output.isUndefined then received else output

end KimchiWorkflows.Engine
