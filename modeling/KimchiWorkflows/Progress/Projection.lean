import Mathlib.Algebra.GroupWithZero.Nat
import KimchiWorkflows.Engine.RunStatus
import KimchiWorkflows.Progress.Fold
import KimchiWorkflows.Progress.Outline

namespace KimchiWorkflows.Progress

open KimchiWorkflows.Flow KimchiWorkflows.Engine

inductive ProgressKind where
  | outline (kind : OutlineKind)
  | foreachItem
  deriving DecidableEq

structure ForeachCounter where
  done : Nat
  count : Nat
  deriving DecidableEq

/-- A node of the outline joined with the log; without a state it is still to do. -/
structure ProgressNode where
  kind : ProgressKind
  path : NodePath
  state : Option StepState
  children : List ProgressNode
  tokens : Nat
  foreachCounter : Option ForeachCounter := none
  perItemSteps : Option Nat := none
  pendingItems : Option Nat := none

inductive Rollup where
  | inProgress | blocked | crashed | cancelled | settled | untouched
  deriving DecidableEq

def rollup (children : List ProgressNode) : Rollup :=
  if children.isEmpty then .untouched
  else if children.any (fun child => child.state = some .inProgress) then .inProgress
  else if children.any (fun child => child.state = some .blocked) then .blocked
  else if children.any (fun child => child.state = some .crashed) then .crashed
  else if children.any (fun child => child.state = some .cancelled) then .cancelled
  else if children.all (fun child => child.state = some .completed ∨ child.state = some .skipped) then .settled
  else if children.any (fun child => child.state ≠ none) then .inProgress
  else .untouched

/-- Only its own checkpoint makes a construct completed; the end of the run closes one left open. -/
def constructState (fold : Fold) (path : NodePath) (children : List ProgressNode) : Option StepState :=
  if path ∈ fold.closed then some .completed
  else match rollup children with
    | .inProgress => some .inProgress
    | .blocked => some .blocked
    | .crashed => some .crashed
    | .cancelled => some .cancelled
    | .settled => some (fold.runTerminal.getD .inProgress)
    | .untouched =>
      if (Dict.get fold.stats path).any NodeStats.touched then some (fold.runTerminal.getD .inProgress) else none

def tokensOf (fold : Fold) (path : NodePath) : Nat := ((Dict.get fold.stats path).map NodeStats.tokens).getD 0

def sumTokens (children : List ProgressNode) : Nat := (children.map ProgressNode.tokens).sum

mutual

/-- Leaf steps in one item's body, counted from the template. -/
def leafCount : OutlineNode → Nat
  | ⟨kind, _, children⟩ => if kind = .step then 1 else templateLeafCount children

def templateLeafCount : List OutlineNode → Nat
  | [] => 0
  | node :: rest => leafCount node + templateLeafCount rest

end

def projectForeachItem (fold : Fold) (skipped : Bool) (itemPath : NodePath) (body : List ProgressNode) :
    ProgressNode :=
  { kind := .foreachItem, path := itemPath
    state := if skipped then some .skipped else constructState fold itemPath body
    children := body, tokens := sumTokens body }

def projectForeach (fold : Fold) (skipped : Bool) (outline : OutlineNode) (items : List ProgressNode) :
    ProgressNode :=
  let count := Dict.get fold.foreachCounts outline.path
  { kind := .outline .foreach, path := outline.path
    state := if skipped then some .skipped else constructState fold outline.path items
    children := items, tokens := sumTokens items
    foreachCounter := count.map (fun count => { done := (fold.done outline.path).length, count := count })
    perItemSteps := some (templateLeafCount outline.children)
    pendingItems := count.map (fun count => count - items.length) }

/-- The state a node has of its own: a step and an arm have one in the map, a skip settles every kind. -/
def ownState (states : StepStates) (skipped : Bool) (outline : OutlineNode) : Option (Option StepState) :=
  if skipped then some (some .skipped)
  else if outline.kind = .step ∨ outline.kind = .branchArm then some (Dict.get states outline.path)
  else none

def projectPlain (fold : Fold) (own : Option (Option StepState)) (outline : OutlineNode)
    (children : List ProgressNode) : ProgressNode :=
  { kind := .outline outline.kind, path := outline.path
    state := own.getD (constructState fold outline.path children)
    children := children
    tokens := tokensOf fold outline.path + sumTokens children }

def Fold.items (fold : Fold) (foreachKey : NodePath) : List Nat := (fold.seen foreachKey).mergeSort

def projectNode (states : StepStates) (fold : Fold) (skipped : Bool) (outline : OutlineNode) : ProgressNode :=
  if outline.kind = .foreach then
    projectForeach fold skipped outline
      ((fold.items outline.path).map (fun index =>
        projectForeachItem fold skipped (foreachItemPath outline.path index)
          ((foreachItemChildren outline (foreachItemPath outline.path index)).attach.map (fun child =>
            projectNode states fold skipped child.1))))
  else
    let own := ownState states skipped outline
    projectPlain fold own outline
      (outline.children.map (fun child => projectNode states fold (skipped || own = some (some .skipped)) child))
termination_by outline.size
decreasing_by
  · exact size_lt_of_child child.2 (sizes_repathAll _ _ _)
  · exact size_lt_of_child (by assumption) rfl

def isSettled : Option StepState → Bool
  | some .completed => true
  | some .skipped => true
  | some .crashed => true
  | some .cancelled => true
  | _ => false

def isCountedLeaf (kind : ProgressKind) (children : List ProgressNode) : Bool :=
  kind = .outline .step || (kind = .foreachItem && children.isEmpty)

structure Tally where
  settled : Nat := 0
  total : Nat := 0
  deriving DecidableEq

mutual

def tallyNode (settledOnce : List NodePath) : ProgressNode → Tally
  | ⟨kind, path, state, children, _, _, perItemSteps, pendingItems⟩ =>
    if isCountedLeaf kind children then
      { settled := if isSettled state ∨ path ∈ settledOnce then 1 else 0, total := 1 }
    else
      { settled := (tally settledOnce children).settled
        total := (tally settledOnce children).total + pendingItems.getD 0 * perItemSteps.getD 1 }

def tally (settledOnce : List NodePath) : List ProgressNode → Tally
  | [] => {}
  | node :: rest =>
    { settled := (tallyNode settledOnce node).settled + (tally settledOnce rest).settled
      total := (tallyNode settledOnce node).total + (tally settledOnce rest).total }

end

structure ProgressView where
  workflowName : String
  status : Option RunStatus
  tokens : Nat
  stepsSettled : Nat
  stepsTotal : Nat
  nodes : List ProgressNode

def projectedView (outline : Outline) (events : List RunEvent) (fold : Fold) : ProgressView :=
  let nodes := outline.nodes.map (projectNode (deriveStepStates events) fold false)
  { workflowName := outline.workflowName
    status := deriveRunStatus events
    tokens := fold.runTokens
    stepsSettled := (tally fold.settledOnce nodes).settled
    stepsTotal := (tally fold.settledOnce nodes).total
    nodes := nodes }

def project (outline : Outline) (events : List RunEvent) : Except String ProgressView :=
  (foldEvents events).map (projectedView outline events)

end KimchiWorkflows.Progress
