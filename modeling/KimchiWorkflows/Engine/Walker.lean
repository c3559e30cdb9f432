import KimchiWorkflows.Engine.ConcurrentNodes
import KimchiWorkflows.Engine.SequentialNodes

namespace KimchiWorkflows.Engine

open KimchiWorkflows.Flow Process

def runNestedWorkflowNode (name : String) (nodes : List Walked) : NodeRunner :=
  fun input parentPath frames reentry =>
    let nestedPath := appendSegment parentPath name
    emitAll (if reentry.isSome then [] else [.nodeStarted nestedPath .workflow]) <|
      ifOk (runNodeSequence nodes input nestedPath
          (frames ++ [{ kind := .workflow, name := name, input := input }]) 0 (reentry.map Reentry.descend))
        (fun output => emitNodeCompleted nestedPath output (conclude (.ok output)))

mutual

def runNode (env : RunEnv) : WorkflowNode → NodeRunner
  | .step step => runStepNode env step
  | .branch name arms => runBranchNode env name (walkedArms env arms)
  | .loop name mode body condition maxIterations =>
    runLoopNode env ⟨name, mode, condition, maxIterations⟩ (walked env body)
  | .foreach name body selector concurrency feedback =>
    runForeachNode env ⟨name, selector, concurrency, feedback⟩ (walked env body)
  | .parallel name arms => runParallelNode env name arms
  | .workflow name nodes => runNestedWorkflowNode name (walked env nodes)

def walked (env : RunEnv) : List WorkflowNode → List Walked
  | [] => []
  | node :: rest => (node, runNode env node) :: walked env rest

def walkedArms (env : RunEnv) : List BranchArm → List WalkedArm
  | [] => []
  | .mk name condition body :: rest =>
    (.mk name condition body, walked env body) :: walkedArms env rest

end

end KimchiWorkflows.Engine
