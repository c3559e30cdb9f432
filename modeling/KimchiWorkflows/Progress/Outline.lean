import KimchiWorkflows.Engine.NodePath
import KimchiWorkflows.Flow.Definitions

/-!
The static tree of a workflow: a row for every node, under the static path its events are keyed by.
-/

namespace KimchiWorkflows.Progress

open KimchiWorkflows.Flow KimchiWorkflows.Engine

inductive OutlineKind where
  | step | branch | branchArm | loop | foreach | parallel | workflow
  deriving DecidableEq

structure OutlineNode where
  kind : OutlineKind
  path : NodePath
  children : List OutlineNode

structure Outline where
  workflowName : String
  nodes : List OutlineNode

def stepNode (step : StepDefinition) (parent : NodePath) : OutlineNode :=
  { kind := .step, path := appendSegment parent step.name, children := [] }

mutual

def outlineNode (parent : NodePath) : WorkflowNode → OutlineNode
  | .step step => stepNode step parent
  | .branch name arms =>
    { kind := .branch, path := appendSegment parent name, children := outlineArms parent arms }
  | .loop name _ body _ _ =>
    { kind := .loop, path := appendSegment parent name, children := outlineNodes (appendSegment parent name) body }
  | .foreach name body _ _ _ =>
    { kind := .foreach, path := appendSegment parent name, children := outlineNodes (appendSegment parent name) body }
  | .parallel name arms =>
    { kind := .parallel, path := appendSegment parent name,
      children := arms.map (fun arm => stepNode arm (appendSegment parent name)) }
  | .workflow name nodes =>
    { kind := .workflow, path := appendSegment parent name, children := outlineNodes (appendSegment parent name) nodes }

def outlineNodes (parent : NodePath) : List WorkflowNode → List OutlineNode
  | [] => []
  | node :: rest => outlineNode parent node :: outlineNodes parent rest

def outlineArms (parent : NodePath) : List BranchArm → List OutlineNode
  | [] => []
  | .mk name _ body :: rest =>
    { kind := .branchArm, path := appendSegment parent name,
      children := outlineNodes (appendSegment parent name) body } :: outlineArms parent rest

end

def buildOutline (workflow : WorkflowDefinition) : Outline :=
  { workflowName := workflow.name, nodes := outlineNodes [] workflow.nodes }

/-- The static path of one live item: the foreach's own, its leaf indexed. -/
def foreachItemPath (foreachPath : NodePath) (index : Nat) : NodePath :=
  match foreachPath.getLast? with
  | none => []
  | some leaf => appendForeachItem foreachPath.dropLast leaf.name index

mutual

/-- A descendant of a foreach's template, addressed beneath one of its items instead. -/
def repath (start stop : NodePath) : OutlineNode → OutlineNode
  | ⟨kind, path, children⟩ => ⟨kind, stop ++ path.drop start.length, repathAll start stop children⟩

def repathAll (start stop : NodePath) : List OutlineNode → List OutlineNode
  | [] => []
  | node :: rest => repath start stop node :: repathAll start stop rest

end

def foreachItemChildren (foreachNode : OutlineNode) (itemPath : NodePath) : List OutlineNode :=
  repathAll foreachNode.path itemPath foreachNode.children

mutual

def OutlineNode.size : OutlineNode → Nat
  | ⟨_, _, children⟩ => sizes children + 1

def OutlineNode.sizes : List OutlineNode → Nat
  | [] => 0
  | node :: rest => node.size + sizes rest

end

mutual

theorem size_repath (start stop : NodePath) (node : OutlineNode) : (repath start stop node).size = node.size := by
  obtain ⟨kind, path, children⟩ := node
  rw [repath, OutlineNode.size, OutlineNode.size, sizes_repathAll]

theorem sizes_repathAll (start stop : NodePath) (nodes : List OutlineNode) :
    OutlineNode.sizes (repathAll start stop nodes) = OutlineNode.sizes nodes := by
  cases nodes with
  | nil => rfl
  | cons node rest => rw [repathAll, OutlineNode.sizes, OutlineNode.sizes, size_repath, sizes_repathAll]

end

theorem size_lt_of_child {nodes : List OutlineNode} {node parent : OutlineNode} (h : node ∈ nodes)
    (hs : OutlineNode.sizes nodes = OutlineNode.sizes parent.children) : node.size < parent.size := by
  obtain ⟨kind, path, children⟩ := parent
  rw [OutlineNode.size, ← hs]
  clear hs
  induction nodes with
  | nil => cases h
  | cons head rest ih =>
    rw [OutlineNode.sizes]
    obtain rfl | h := List.mem_cons.mp h
    · omega
    · have := ih h
      omega

end KimchiWorkflows.Progress
