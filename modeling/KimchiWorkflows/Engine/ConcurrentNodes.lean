import KimchiWorkflows.Engine.NodeSequence

namespace KimchiWorkflows.Engine

open KimchiWorkflows.Flow Process

abbrev Settlement := Except String ExecOutcome

def stopsPool : Settlement → Bool
  | .ok (.crashed _ _) => true
  | .ok (.cancelled _ _) => true
  | .ok _ => false
  | .error _ => true

/-- The tasks of one construct in at most `localLimit` lanes; results keep the order of the items. -/
def runConcurrent (tasks : List Code) (localLimit : Nat) (next : List (Option Settlement) → Code) : Code :=
  match tasks with
  | [] => next []
  | first :: _ => .fork tasks.length stopsPool
      (fun i => if i < max 1 (min localLimit tasks.length) then .running else .waiting)
      (fun i => tasks.getD i first) next

def firstCancelled (outcomes : List ExecOutcome) : Option ExecOutcome :=
  outcomes.find? (fun outcome => match outcome with | .cancelled _ _ => true | _ => false)

def firstCrashed (outcomes : List ExecOutcome) : Option ExecOutcome :=
  outcomes.find? (fun outcome => match outcome with | .crashed _ _ => true | _ => false)

def ExecOutcome.block? : ExecOutcome → Option PendingBlock
  | .blocked block => some block
  | _ => none

def ExecOutcome.output? : ExecOutcome → Option Value
  | .ok output => some output
  | _ => none

def stepsCancelled (blocks : List PendingBlock) : List RunEvent :=
  blocks.map (fun block => .stepCancelled block.path)

/-- One outcome for the construct: cancelled, else crashed with its waiting siblings abandoned, else
blocked on the first that waits, else what `onOk` makes of the outputs. -/
def settleConcurrent (outcomes : List ExecOutcome) (stillBlocked : List PendingBlock) (onOk : Code) :
    Code :=
  let blocked := outcomes.filterMap ExecOutcome.block?
  match firstCancelled outcomes, firstCrashed outcomes, blocked ++ stillBlocked with
  | some cancelled, _, _ => conclude cancelled
  | none, some crashed, waiting => emitAll (stepsCancelled waiting) (conclude crashed)
  | none, none, block :: _ => conclude (.blocked block)
  | none, none, [] => onOk

/-- The results of a pool, or the exception that left one of its tasks. -/
def collectOutcomes : List (Option Settlement) → Except String (List ExecOutcome)
  | [] => .ok []
  | none :: rest => collectOutcomes rest
  | some (.error error) :: _ => .error error
  | some (.ok outcome) :: rest => (collectOutcomes rest).map (outcome :: ·)

def settleAll (results : List (Option Settlement)) (onOk : Code) : Code :=
  match collectOutcomes results with
  | .error error => raise error
  | .ok outcomes => settleConcurrent outcomes [] onOk

structure ForeachDefinition where
  name : String
  selector : RunContext → Except String Value
  concurrency : Nat
  feedback : Bool

abbrev ItemHistory := List (Nat × Value)

def foreachFrame (name : String) (index : Nat) (items : List Value) : ScopeFrame :=
  { kind := .foreach, name := name, itemIndex := some index, itemCount := some items.length,
    input := items.getD index .undefined }

def firstMissingIndex (history : ItemHistory) (length : Nat) : Nat :=
  ((List.range length).find? (fun index => !Dict.has history index)).getD length

def itemOutput (history : ItemHistory) (index : Nat) : Value :=
  (Dict.get history index).getD .undefined

/-- The outputs recovered before the first item to run, and the value they leave to feed. -/
def recoverPrefix (history : ItemHistory) (input : Value) (startIndex : Nat) : List Value × Value :=
  let results := (List.range startIndex).map (itemOutput history)
  (results, results.foldl (fun fed output => passThrough output fed) input)

section Foreach

variable (each : ForeachDefinition) (body : List Walked) (parentPath : NodePath)
  (frames : List ScopeFrame) (items : List Value)

def foreachPath : NodePath := appendSegment parentPath each.name

def runItem (index : Nat) (input : Value) (reentry : Option Reentry) (next : ExecOutcome → Code) : Code :=
  let itemPath := appendForeachItem parentPath each.name index
  emitAll (if reentry.isSome then [] else [.foreachItemStarted itemPath index]) <|
    andThen (runNodeSequence body input itemPath (frames ++ [foreachFrame each.name index items]) 0 reentry)
      (fun outcome => emitAll ((outcome.output?).elim [] (fun output =>
        [.foreachItemCompleted itemPath index output])) (next outcome))

def completeForeach (results : List Value) : Code :=
  emitNodeCompleted (foreachPath each parentPath) (.array results) (conclude (.ok (.array results)))

def runItemsFrom : Nat → Nat → List Value → Value → Option Reentry → Code
  | 0, _, results, _, _ => completeForeach each parentPath results
  | remaining + 1, index, results, fed, reentry => .look (fun memory =>
      if memory.aborted then conclude (.cancelled none none)
      else runItem each body parentPath frames items index
        (if each.feedback then fed else items.getD index .undefined) reentry (fun outcome =>
          match outcome with
          | .ok output => runItemsFrom remaining (index + 1) (results ++ [output])
              (passThrough output fed) none
          | other => conclude other))

def runForeachSequential (input : Value) (history : ItemHistory) (reentry : Option Reentry) : Code :=
  match reentry with
  | none =>
    let startIndex := firstMissingIndex history items.length
    let recovered := recoverPrefix history input startIndex
    runItemsFrom each body parentPath frames items (items.length - startIndex) startIndex
      recovered.1 recovered.2 none
  | some active =>
    match active.path.head?.bind PathSegment.index with
    | none => raise ("resume: foreach \"" ++ each.name ++
        "\" re-entry path is missing its item index (definition drift?)")
    | some (_, targetIndex) =>
      let recovered := recoverPrefix history input targetIndex
      runItemsFrom each body parentPath frames items (items.length - targetIndex) targetIndex
        recovered.1 recovered.2 (some active.descend)

/-- Each item's output: what the item settled with in this round, else what the history holds. -/
def assembleResults (history : ItemHistory) (settled : List (Nat × ExecOutcome)) (length : Nat) :
    List Value :=
  (List.range length).map (fun index =>
    ((Dict.get settled index).bind ExecOutcome.output?).getD (itemOutput history index))

def settledItems (toRun : List Nat) (results : List (Option Settlement)) : List (Nat × ExecOutcome) :=
  (toRun.zip results).filterMap (fun entry =>
    match entry.2 with
    | some (.ok outcome) => some (entry.1, outcome)
    | _ => none)

def runForeachConcurrentFresh (history : ItemHistory) : Code :=
  let toRun := (List.range items.length).filter (fun index => !Dict.has history index)
  let tasks := toRun.map (fun index =>
    runItem each body parentPath frames items index (items.getD index .undefined) none conclude)
  runConcurrent tasks (min each.concurrency toRun.length) (fun results =>
    settleAll results (completeForeach each parentPath
      (assembleResults history (settledItems toRun results) items.length)))

/-- The items a re-entry neither targets nor finds recorded or pending, one after the other. -/
def runExtraItems (finish : List (Nat × ExecOutcome) → Code) : List Nat → List (Nat × ExecOutcome) → Code
  | [], settled => finish settled
  | index :: rest, settled => .look (fun memory =>
      if memory.aborted then finish (settled ++ [(index, .cancelled none none)])
      else runItem each body parentPath frames items index (items.getD index .undefined) none
        (fun outcome => runExtraItems finish rest (settled ++ [(index, outcome)])))

def runForeachConcurrentReentry (env : RunEnv) (history : ItemHistory) (reentry : Reentry) : Code :=
  match reentry.path.head?.bind PathSegment.index with
  | none => raise ("resume: foreach \"" ++ each.name ++
      "\" re-entry path is missing its item index (definition drift?)")
  | some (_, targetIndex) =>
    let others := (List.range items.length).filter (fun index =>
      index ≠ targetIndex && !Dict.has history index)
    let pendingAt := fun index =>
      Dict.get env.pendingBlocks (staticKeyOf (appendForeachItem parentPath each.name index))
    let extraToRun := others.filter (fun index => (pendingAt index).isNone)
    runItem each body parentPath frames items targetIndex (items.getD targetIndex .undefined)
      (some reentry.descend) (fun targetOutcome =>
        runExtraItems each body parentPath frames items (fun settled =>
          settleConcurrent (settled.map Prod.snd) (others.filterMap pendingAt)
            (completeForeach each parentPath
              (assembleResults history settled (max items.length (targetIndex + 1)))))
          extraToRun [(targetIndex, targetOutcome)])

end Foreach

def runForeachNode (env : RunEnv) (each : ForeachDefinition) (body : List Walked) : NodeRunner :=
  fun input parentPath frames reentry => .look (fun memory =>
    let path := foreachPath each parentPath
    match invokeCallback ("foreach \"" ++ each.name ++ "\" selector")
        (each.selector (createRunContext env memory parentPath frames path)) with
    | .error error => conclude (.crashed error (some path))
    | .ok (.array items) =>
      let history := (Dict.get env.foreachItemHistory path).getD []
      emitAll (if reentry.isSome then [] else [.foreachStarted path items.length]) <|
        if each.concurrency ≤ 1 then
          runForeachSequential each body parentPath frames items input history reentry
        else match reentry with
          | some active => runForeachConcurrentReentry each body parentPath frames items env history active
          | none => runForeachConcurrentFresh each body parentPath frames items history
    | .ok _ => conclude (.crashed ("foreach \"" ++ each.name ++
        "\" selector did not return an array (spec §3.4)") (some path)))

def parallelFrame (name : String) (input : Value) : ScopeFrame :=
  { kind := .parallel, name := name, input := input }

def armOutputs (arms : List StepDefinition) (results : List (Option Settlement)) : Record :=
  (arms.zip results).foldl (fun output entry =>
    match entry.2 with
    | some (.ok (.ok value)) => assign output entry.1.name value
    | _ => output) []

def completeParallel (parallelPath : NodePath) (output : Record) : Code :=
  emitNodeCompleted parallelPath (.object output) (conclude (.ok (.object output)))

def runParallelFresh (env : RunEnv) (arms : List StepDefinition) (input : Value)
    (parallelPath : NodePath) (armFrames : List ScopeFrame) : Code :=
  emit (.nodeStarted parallelPath .parallel) <|
    runConcurrent (arms.map (fun arm => runStepNode env arm input parallelPath armFrames none)) env.limit
      (fun results => settleAll results (completeParallel parallelPath (armOutputs arms results)))

structure Gathered where
  output : Record := []
  target : Option ExecOutcome := none
  extra : List ExecOutcome := []
  stillBlocked : List PendingBlock := []

def Gathered.settleArm (gathered : Gathered) (name : String) (outcome : ExecOutcome) : Gathered :=
  { gathered with
    output := (outcome.output?).elim gathered.output (assign gathered.output name)
    extra := gathered.extra ++ [outcome] }

/-- The arms in order: the target is re-entered, a recorded arm recovered, a pending one left, any
other one run. -/
def reenterArms (env : RunEnv) (input : Value) (parallelPath : NodePath) (armFrames : List ScopeFrame)
    (reentry : Reentry) (targetName : String) (finish : Gathered → Code) :
    List StepDefinition → Gathered → Code
  | [], gathered => finish gathered
  | arm :: rest, gathered =>
    let next := reenterArms env input parallelPath armFrames reentry targetName finish rest
    if arm.name = targetName then
      andThen (runStepNode env arm input parallelPath armFrames (some reentry.descend))
        (fun outcome => next { gathered with target := some outcome })
    else .look (fun memory =>
      let key := staticChildKey parallelPath arm.name
      match Dict.get memory.stepOutputs key with
      | some value => next { gathered with output := assign gathered.output arm.name value }
      | none =>
        match Dict.get env.pendingBlocks key with
        | some pending => next { gathered with stillBlocked := gathered.stillBlocked ++ [pending] }
        | none =>
          if memory.aborted then next { gathered with extra := gathered.extra ++ [.cancelled none none] }
          else andThen (runStepNode env arm input parallelPath armFrames none)
            (fun outcome => next (gathered.settleArm arm.name outcome)))

def settleReentry (name targetName : String) (parallelPath : NodePath) (gathered : Gathered) : Code :=
  match gathered.target with
  | none => raise ("resume: parallel \"" ++ name ++ "\" re-entry target \"" ++ targetName ++
      "\" not found among its arms (definition drift?)")
  | some target =>
    settleConcurrent (target :: gathered.extra) gathered.stillBlocked
      (completeParallel parallelPath
        ((target.output?).elim gathered.output (assign gathered.output targetName)))

def runParallelReentry (env : RunEnv) (name : String) (arms : List StepDefinition) (input : Value)
    (parallelPath : NodePath) (armFrames : List ScopeFrame) (reentry : Reentry) : Code :=
  match leafNameOf reentry with
  | none => raise emptyPathError
  | some targetName =>
    reenterArms env input parallelPath armFrames reentry targetName
      (settleReentry name targetName parallelPath) arms {}

def runParallelNode (env : RunEnv) (name : String) (arms : List StepDefinition) : NodeRunner :=
  fun input parentPath frames reentry =>
    let parallelPath := appendSegment parentPath name
    let armFrames := frames ++ [parallelFrame name input]
    match reentry with
    | some active => runParallelReentry env name arms input parallelPath armFrames active.descend
    | none => runParallelFresh env arms input parallelPath armFrames

end KimchiWorkflows.Engine
