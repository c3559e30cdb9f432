import Mathlib.Algebra.BigOperators.Group.List.Basic
import KimchiWorkflows.Progress.Projection

/-!
Usage previews laid over a projection, each on the node under its path and on the nodes above it.
-/

namespace KimchiWorkflows.Progress

open KimchiWorkflows.Engine

abbrev Usage := List (NodePath × Nat)

structure PresentedNode where
  node : ProgressNode
  previewTokens : Nat

def ownPreview (usageByPath : Usage) (kind : ProgressKind) (path : NodePath) : Nat :=
  if kind = .outline .step then (Dict.get usageByPath path).getD 0 else 0

mutual

def withNodeUsage (usageByPath : Usage) : ProgressNode → PresentedNode
  | ⟨kind, path, state, children, tokens, foreachCounter, perItemSteps, pendingItems⟩ =>
    let presented := withNodesUsage usageByPath children
    let previewTokens := ownPreview usageByPath kind path + (presented.map PresentedNode.previewTokens).sum
    { previewTokens := previewTokens
      node :=
        if previewTokens = 0 then ⟨kind, path, state, children, tokens, foreachCounter, perItemSteps, pendingItems⟩
        else ⟨kind, path, state, presented.map PresentedNode.node, tokens + previewTokens, foreachCounter,
          perItemSteps, pendingItems⟩ }

def withNodesUsage (usageByPath : Usage) : List ProgressNode → List PresentedNode
  | [] => []
  | node :: rest => withNodeUsage usageByPath node :: withNodesUsage usageByPath rest

end

def withUsagePreviews (view : ProgressView) (usageByPath : Usage) : ProgressView :=
  if usageByPath.isEmpty then view
  else
    let presented := withNodesUsage usageByPath view.nodes
    let previewTokens := (presented.map PresentedNode.previewTokens).sum
    if previewTokens = 0 then view
    else { view with tokens := view.tokens + previewTokens, nodes := presented.map PresentedNode.node }

def rowPaths (kind : ProgressKind) (path : NodePath) (below : List NodePath) : List NodePath :=
  if kind = .outline .step then path :: below else below

mutual

def stepPathsUnder : ProgressNode → List NodePath
  | ⟨kind, path, _, children, _, _, _, _⟩ => rowPaths kind path (stepPaths children)

def stepPaths : List ProgressNode → List NodePath
  | [] => []
  | node :: rest => stepPathsUnder node ++ stepPaths rest

end

mutual

/-- A tree with a credit on every node: what is credited to the steps at and below it. -/
def creditedNode (credit : List NodePath → Nat) : ProgressNode → ProgressNode
  | ⟨kind, path, state, children, tokens, foreachCounter, perItemSteps, pendingItems⟩ =>
    ⟨kind, path, state, credited credit children,
      tokens + credit (rowPaths kind path (stepPaths children)), foreachCounter, perItemSteps, pendingItems⟩

def credited (credit : List NodePath → Nat) : List ProgressNode → List ProgressNode
  | [] => []
  | node :: rest => creditedNode credit node :: credited credit rest

end

def previewsAt (usageByPath : Usage) (paths : List NodePath) : Nat :=
  (paths.map (fun path => (Dict.get usageByPath path).getD 0)).sum

variable {usageByPath : Usage}

theorem previewsAt_append (first last : List NodePath) :
    previewsAt usageByPath (first ++ last) = previewsAt usageByPath first + previewsAt usageByPath last := by
  simp [previewsAt]

theorem previewsAt_cons (path : NodePath) (rest : List NodePath) :
    previewsAt usageByPath (path :: rest) = (Dict.get usageByPath path).getD 0 + previewsAt usageByPath rest := by
  simp [previewsAt]

theorem previewsAt_rowPaths (kind : ProgressKind) (path : NodePath) (below : List NodePath) :
    previewsAt usageByPath (rowPaths kind path below) =
      ownPreview usageByPath kind path + previewsAt usageByPath below := by
  rw [rowPaths, ownPreview]
  split_ifs
  · rw [previewsAt_cons]
  · rw [Nat.zero_add]

mutual

theorem credited_zero {node : ProgressNode} (h : previewsAt usageByPath (stepPathsUnder node) = 0) :
    creditedNode (previewsAt usageByPath) node = node := by
  obtain ⟨kind, path, state, children, tokens, counter, perItemSteps, pendingItems⟩ := node
  rw [stepPathsUnder] at h
  have hbelow := h
  rw [previewsAt_rowPaths] at hbelow
  rw [creditedNode, h, Nat.add_zero, credited_zeros (by omega)]

theorem credited_zeros {nodes : List ProgressNode} (h : previewsAt usageByPath (stepPaths nodes) = 0) :
    credited (previewsAt usageByPath) nodes = nodes := by
  match nodes with
  | [] => rfl
  | node :: rest =>
    rw [stepPaths, previewsAt_append] at h
    rw [credited, credited_zero (by omega), credited_zeros (by omega)]

end

mutual

theorem withNodeUsage_eq (node : ProgressNode) : withNodeUsage usageByPath node =
    { node := creditedNode (previewsAt usageByPath) node
      previewTokens := previewsAt usageByPath (stepPathsUnder node) } := by
  obtain ⟨kind, path, state, children, tokens, counter, perItemSteps, pendingItems⟩ := node
  obtain ⟨hnodes, htokens⟩ := withNodesUsage_eq children
  rw [withNodeUsage, hnodes, htokens, ← previewsAt_rowPaths, stepPathsUnder]
  split_ifs with hzero
  · rw [credited_zero]
    exact hzero
  · rfl

theorem withNodesUsage_eq (nodes : List ProgressNode) :
    (withNodesUsage usageByPath nodes).map PresentedNode.node = credited (previewsAt usageByPath) nodes ∧
      ((withNodesUsage usageByPath nodes).map PresentedNode.previewTokens).sum =
        previewsAt usageByPath (stepPaths nodes) := by
  match nodes with
  | [] => exact ⟨rfl, rfl⟩
  | node :: rest =>
    obtain ⟨hnodes, htokens⟩ := withNodesUsage_eq rest
    rw [withNodesUsage, withNodeUsage_eq, stepPaths, previewsAt_append, ← htokens]
    exact ⟨congrArg (_ :: ·) hnodes, by simp⟩

end

theorem withUsagePreviews_eq (view : ProgressView) : withUsagePreviews view usageByPath =
    { view with
      tokens := view.tokens + previewsAt usageByPath (stepPaths view.nodes)
      nodes := credited (previewsAt usageByPath) view.nodes } := by
  obtain ⟨hnodes, htokens⟩ := @withNodesUsage_eq usageByPath view.nodes
  have hunchanged : previewsAt usageByPath (stepPaths view.nodes) = 0 →
      view = { view with
        tokens := view.tokens + previewsAt usageByPath (stepPaths view.nodes)
        nodes := credited (previewsAt usageByPath) view.nodes } := by
    intro hzero
    rw [hzero, credited_zeros hzero]
    rfl
  unfold withUsagePreviews
  split_ifs with hempty
  · apply hunchanged
    rw [List.isEmpty_iff.mp hempty]
    simp [previewsAt]
  · dsimp only
    rw [hnodes, htokens]
    split_ifs with hzero
    · exact hunchanged hzero
    · rfl

end KimchiWorkflows.Progress
