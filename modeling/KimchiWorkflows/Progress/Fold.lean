import KimchiWorkflows.Engine.StepState

/-!
One pass over the log: what the tree needs of it and the map of step states does not carry.
-/

namespace KimchiWorkflows.Progress

open KimchiWorkflows.Flow KimchiWorkflows.Engine

structure NodeStats where
  tokens : Nat := 0
  touched : Bool := true

structure Fold where
  stats : List (NodePath × NodeStats) := []
  closed : List NodePath := []
  foreachCounts : List (NodePath × Nat) := []
  foreachDone : List (NodePath × List Nat) := []
  foreachSeen : List (NodePath × List Nat) := []
  settledOnce : List NodePath := []
  runTerminal : Option StepState := none
  runTokens : Nat := 0

structure ItemAddress where
  foreachKey : NodePath
  itemKey : NodePath
  index : Nat

def splitItemPath (path : NodePath) : Option ItemAddress :=
  match (staticPathOf path).getLast? with
  | some { name, index := some (_, index) } =>
    some { foreachKey := (staticPathOf path).dropLast ++ [{ name := name }], itemKey := staticPathOf path,
           index := index }
  | _ => none

def Fold.statsFor (fold : Fold) (path : NodePath) (change : NodeStats → NodeStats) : Fold :=
  let stats := (Dict.get fold.stats (staticKeyOf path)).getD {}
  { fold with stats := Dict.set fold.stats (staticKeyOf path) (change { stats with touched := true }) }

def Fold.touch (fold : Fold) (path : NodePath) : Fold := fold.statsFor path id

def Fold.settle (fold : Fold) (path : NodePath) : Fold :=
  { fold.touch path with settledOnce := fold.settledOnce.insert (staticKeyOf path) }

def Fold.seen (fold : Fold) (foreachKey : NodePath) : List Nat := (Dict.get fold.foreachSeen foreachKey).getD []

def Fold.done (fold : Fold) (foreachKey : NodePath) : List Nat := (Dict.get fold.foreachDone foreachKey).getD []

def Fold.seeItem (fold : Fold) (foreachKey : NodePath) (index : Nat) : Fold :=
  let seen := fold.seen foreachKey
  let seen := if index ∈ seen then seen else seen ++ [index]
  { fold with foreachSeen := Dict.set fold.foreachSeen foreachKey seen }

def Fold.finishItem (fold : Fold) (item : ItemAddress) : Fold :=
  { fold with
    closed := fold.closed.insert item.itemKey
    foreachDone := Dict.set fold.foreachDone item.foreachKey ((fold.done item.foreachKey).insert item.index) }

def Fold.next (fold : Fold) : RunEvent → Fold
  | .runStarted _ _ _ => { fold with runTerminal := none }
  | .runResumed _ => { fold with runTerminal := none }
  | .stepStarted path _ => fold.touch path
  | .stepCompleted path _ => fold.settle path
  | .stepFailed path _ => fold.settle path
  | .stepCancelled path => fold.settle path
  | .stepRetry path _ _ _ => fold.touch path
  | .agentSteer path _ _ _ _ => fold.touch path
  | .agentUsage path totalTokens =>
    { fold.statsFor path (fun stats => { stats with tokens := stats.tokens + totalTokens }) with
      runTokens := fold.runTokens + totalTokens }
  | .questionnaireAsked path _ _ _ _ _ => fold.touch path
  | .interactionRequested path _ _ => fold.touch path
  | .answersProvided path _ => fold.touch path
  | .interactionProvided path _ => fold.touch path
  | .nodeStarted path _ => fold.touch path
  | .nodeCompleted path _ => { fold.touch path with closed := fold.closed.insert (staticKeyOf path) }
  | .branchArm path _ => fold.touch path
  | .loopIteration path _ => fold.touch path
  | .foreachStarted path count =>
    { fold.touch path with foreachCounts := Dict.set fold.foreachCounts (staticKeyOf path) count }
  | .foreachItemStarted path _ =>
    match splitItemPath path with
    | none => fold
    | some item => (fold.seeItem item.foreachKey item.index).touch path
  | .foreachItemCompleted path _ _ =>
    match splitItemPath path with
    | none => fold
    | some item => ((fold.seeItem item.foreachKey item.index).touch path).finishItem item
  | .runCompleted _ => { fold with runTerminal := some .completed }
  | .runCrashed _ _ => { fold with runTerminal := some .crashed }
  | .runCancelled _ _ => { fold with runTerminal := some .cancelled }
  | _ => fold

def itemPathComplaint : RunEvent → Option String
  | .foreachItemStarted path _ => if (splitItemPath path).isSome then none else some (complaint path)
  | .foreachItemCompleted path _ _ => if (splitItemPath path).isSome then none else some (complaint path)
  | _ => none
where
  complaint (path : NodePath) : String :=
    "progress: foreach item path \"" ++ formatPath path ++
      "\" has no item index (spec §8.5 requires one on foreach item events)"

/-- The fold stops at the first event of a foreach item whose path names no item. -/
def foldEvents (events : List RunEvent) : Except String Fold :=
  match events.findSome? itemPathComplaint with
  | some complaint => .error complaint
  | none => .ok (events.foldl Fold.next {})

end KimchiWorkflows.Progress
