import KimchiWorkflows.Engine.NodeSequence

/-!
The constructs whose bodies run one after another: the taken arms of a branch, the iterations of a loop.
-/

namespace KimchiWorkflows.Engine

open KimchiWorkflows.Flow Process

abbrev WalkedArm := BranchArm × List Walked

abbrev DecidedArm := WalkedArm × Bool

/-- Every condition is evaluated before any arm runs; the first one to throw ends the branch. -/
def decideArms (branchName : String) (ctx : RunContext) : List WalkedArm → Except String (List DecidedArm)
  | [] => .ok []
  | arm :: rest =>
    match invokeCallback ("branch \"" ++ branchName ++ "\" condition for arm \"" ++ arm.1.name ++ "\"")
        (arm.1.condition ctx) with
    | .error error => .error error
    | .ok taken => (decideArms branchName ctx rest).map (fun decisions => (arm, taken) :: decisions)

/-- The body of a taken arm in the arm's own scope, closed by its checkpoint. -/
def runArm (body : List Walked) (input : Value) (parentPath : NodePath) (frames : List ScopeFrame)
    (armName : String) (armReentry : Option Reentry) (next : Value → Code) : Code :=
  .look (fun memory =>
    if memory.aborted then conclude (.cancelled none none)
    else ifOk (runNodeSequence body input (appendSegment parentPath armName)
        (frames ++ [{ kind := .branchArm, name := armName, input := input }]) 0 armReentry)
      (fun output => emitNodeCompleted (appendSegment parentPath armName) output (next output)))

/-- Run the taken arms in order. Before the target of a re-entry, a taken arm is recovered. -/
def runTakenArms (input : Value) (parentPath : NodePath) (frames : List ScopeFrame)
    (finish : Record → Code) : List DecidedArm → Record → Option Reentry → Code
  | [], result, _ => finish result
  | ((arm, body), taken) :: rest, result, reentry =>
    if taken then
      let run := fun armReentry => runArm body input parentPath frames arm.name armReentry (fun output =>
        runTakenArms input parentPath frames finish rest (assign result arm.name output) none)
      match reentry with
      | none => run none
      | some active =>
        match leafNameOf active with
        | none => raise emptyPathError
        | some target =>
          if target = arm.name then run (some active.descend)
          else .look (fun memory =>
            runTakenArms input parentPath frames finish rest
              (assign result arm.name (memory.outputAt (staticChildKey parentPath arm.name))) reentry)
    else runTakenArms input parentPath frames finish rest result reentry

def armEvents (parentPath : NodePath) (decisions : List DecidedArm) : List RunEvent :=
  decisions.map (fun decision => .branchArm (appendSegment parentPath decision.1.1.name) decision.2)

def runBranchNode (env : RunEnv) (name : String) (arms : List WalkedArm) : NodeRunner :=
  fun input parentPath frames reentry =>
    let branchPath := appendSegment parentPath name
    let opening := if reentry.isSome then [] else [.nodeStarted branchPath .branch]
    emitAll opening <| .look (fun memory =>
      match decideArms name (createRunContext env memory parentPath frames branchPath) arms with
      | .error error => conclude (.crashed error (some branchPath))
      | .ok decisions =>
        emitAll (if reentry.isSome then [] else armEvents parentPath decisions) <|
          runTakenArms input parentPath frames
            (fun result => emitNodeCompleted branchPath (.object result) (conclude (.ok (.object result))))
            decisions [] reentry)

structure LoopDefinition where
  name : String
  mode : LoopMode
  condition : RunContext → Value → Except String Bool
  maxIterations : Nat

def LoopMode.stops (mode : LoopMode) (conditionMet : Bool) : Bool :=
  match mode with
  | .dowhile => !conditionMet
  | .dountil => conditionMet

def loopFrame (name : String) (iteration : Nat) (input : Value) : ScopeFrame :=
  { kind := .loop, name := name, iteration := some iteration, input := input }

def iterate (env : RunEnv) (loop : LoopDefinition) (body : List Walked) (parentPath : NodePath)
    (frames : List ScopeFrame) : Nat → Nat → Value → Option Reentry → Code
  | 0, _, _, _ => conclude (.crashed ("loop \"" ++ loop.name ++ "\" exceeded its max of " ++
      toString loop.maxIterations ++ " iterations without its condition being met")
      (some (appendSegment parentPath loop.name)))
  | remaining + 1, iteration, iterationInput, reentry => .look (fun memory =>
      if memory.aborted then conclude (.cancelled none none)
      else
        let iterPath := appendLoopIteration parentPath loop.name iteration
        let iterFrames := frames ++ [loopFrame loop.name iteration iterationInput]
        emitAll (if reentry.isSome then [] else [.loopIteration iterPath iteration]) <|
          ifOk (runNodeSequence body iterationInput iterPath iterFrames 0 reentry) (fun lastOutput =>
            .look (fun memory =>
              match invokeCallback ("loop \"" ++ loop.name ++ "\" condition")
                  (loop.condition (createRunContext env memory iterPath iterFrames iterPath) lastOutput) with
              | .error error => conclude (.crashed error (some iterPath))
              | .ok conditionMet =>
                let effective := passThrough lastOutput iterationInput
                if LoopMode.stops loop.mode conditionMet then
                  emitNodeCompleted (appendSegment parentPath loop.name) effective
                    (conclude (.ok effective))
                else iterate env loop body parentPath frames remaining (iteration + 1) effective none)))

/-- The input a later iteration is entered with again: what the body's last node is recorded with. -/
def reseededInput (body : List Walked) (loopName : String) (parentPath : NodePath) (iteration : Nat)
    (input : Value) (memory : RunMemory) : Value :=
  if iteration > 1 then
    let recorded := (body.getLast?).elim Value.undefined (fun last =>
      memory.outputAt (staticChildKey parentPath loopName ++ [{ name := nodeName last.1 }]))
    passThrough recorded input
  else input

def runLoopNode (env : RunEnv) (loop : LoopDefinition) (body : List Walked) : NodeRunner :=
  fun input parentPath frames reentry =>
    match reentry with
    | none =>
      emit (.nodeStarted (appendSegment parentPath loop.name) .loop)
        (iterate env loop body parentPath frames loop.maxIterations 1 input none)
    | some active =>
      match active.path.head?.bind PathSegment.index with
      | none => raise ("resume: loop \"" ++ loop.name ++
          "\" re-entry path is missing its iteration index (definition drift?)")
      | some (_, iteration) => .look (fun memory =>
          iterate env loop body parentPath frames (loop.maxIterations + 1 - iteration) iteration
            (reseededInput body loop.name parentPath iteration input memory) (some active.descend))

end KimchiWorkflows.Engine
