import KimchiWorkflows.Progress.Projection

/-!
The projection read off the workflow itself: the template of a foreach, moved to an item, is the outline
of the body in the scope of the item.
-/

namespace KimchiWorkflows.Progress

open KimchiWorkflows.Flow KimchiWorkflows.Engine

section Repathing

variable (start stop : NodePath)

theorem drop_appendSegment (rest : NodePath) (name : String) :
    stop ++ (appendSegment (start ++ rest) name).drop start.length = appendSegment (stop ++ rest) name := by
  simp [appendSegment]

theorem appendSegment_append (rest : NodePath) (name : String) :
    appendSegment (start ++ rest) name = start ++ appendSegment rest name := by
  simp [appendSegment]

theorem repath_stepNode (rest : NodePath) (step : StepDefinition) :
    repath start stop (stepNode step (start ++ rest)) = stepNode step (stop ++ rest) := by
  rw [stepNode, repath, drop_appendSegment, stepNode, repathAll]

theorem repath_arms (rest : NodePath) (arms : List StepDefinition) :
    repathAll start stop (arms.map (fun arm => stepNode arm (start ++ rest))) =
      arms.map (fun arm => stepNode arm (stop ++ rest)) := by
  induction arms with
  | nil => rfl
  | cons arm arms ih => rw [List.map_cons, List.map_cons, repathAll, repath_stepNode, ih]

mutual

theorem repath_outlineNode (rest : NodePath) (node : WorkflowNode) :
    repath start stop (outlineNode (start ++ rest) node) = outlineNode (stop ++ rest) node := by
  cases node with
  | step step => exact repath_stepNode start stop rest step
  | branch name arms => rw [outlineNode, repath, drop_appendSegment, repath_outlineArms, outlineNode]
  | loop name mode body condition maxIterations =>
    rw [outlineNode, repath, drop_appendSegment, appendSegment_append start, repath_outlineNodes, outlineNode,
      appendSegment_append stop]
  | «foreach» name body selector concurrency feedback =>
    rw [outlineNode, repath, drop_appendSegment, appendSegment_append start, repath_outlineNodes, outlineNode,
      appendSegment_append stop]
  | parallel name arms =>
    rw [outlineNode, repath, drop_appendSegment, appendSegment_append start, repath_arms, outlineNode,
      appendSegment_append stop]
  | workflow name nodes =>
    rw [outlineNode, repath, drop_appendSegment, appendSegment_append start, repath_outlineNodes, outlineNode,
      appendSegment_append stop]

theorem repath_outlineNodes (rest : NodePath) (nodes : List WorkflowNode) :
    repathAll start stop (outlineNodes (start ++ rest) nodes) = outlineNodes (stop ++ rest) nodes := by
  match nodes with
  | [] => rfl
  | node :: others =>
    rw [outlineNodes, repathAll, repath_outlineNode, repath_outlineNodes, outlineNodes]

theorem repath_outlineArms (rest : NodePath) (arms : List BranchArm) :
    repathAll start stop (outlineArms (start ++ rest) arms) = outlineArms (stop ++ rest) arms := by
  match arms with
  | [] => rfl
  | .mk name condition body :: others =>
    rw [outlineArms, repathAll, repath, drop_appendSegment, appendSegment_append start, repath_outlineNodes,
      repath_outlineArms, outlineArms, appendSegment_append stop]

end

end Repathing

def itemScope (scope : NodePath) (name : String) (index : Nat) : NodePath := appendForeachItem scope name index

theorem foreachItemPath_appendSegment (scope : NodePath) (name : String) (index : Nat) :
    foreachItemPath (appendSegment scope name) index = itemScope scope name index := by
  simp [foreachItemPath, appendSegment, itemScope]

theorem foreachItemChildren_outline (scope : NodePath) (name : String) (body : List WorkflowNode)
    (selector : RunContext → Except String Value) (concurrency : Nat) (feedback : Bool) (itemPath : NodePath) :
    foreachItemChildren (outlineNode scope (.foreach name body selector concurrency feedback)) itemPath =
      outlineNodes itemPath body := by
  have h := repath_outlineNodes (appendSegment scope name) itemPath [] body
  rw [List.append_nil, List.append_nil] at h
  rw [foreachItemChildren, outlineNode, h]

variable (states : StepStates) (fold : Fold)

mutual

def projectedNode (skipped : Bool) (scope : NodePath) : WorkflowNode → ProgressNode
  | .step step =>
    projectPlain fold (ownState states skipped (stepNode step scope)) (stepNode step scope) []
  | .branch name arms =>
    let outline := outlineNode scope (.branch name arms)
    projectPlain fold (ownState states skipped outline) outline (projectedArms skipped scope arms)
  | .loop name mode body condition maxIterations =>
    let outline := outlineNode scope (.loop name mode body condition maxIterations)
    projectPlain fold (ownState states skipped outline) outline (projectedNodes skipped outline.path body)
  | .foreach name body selector concurrency feedback =>
    let outline := outlineNode scope (.foreach name body selector concurrency feedback)
    projectForeach fold skipped outline ((fold.items outline.path).map (fun index =>
      projectForeachItem fold skipped (itemScope scope name index)
        (projectedNodes skipped (itemScope scope name index) body)))
  | .parallel name arms =>
    let outline := outlineNode scope (.parallel name arms)
    projectPlain fold (ownState states skipped outline) outline (arms.map (fun arm =>
      projectPlain fold (ownState states skipped (stepNode arm outline.path)) (stepNode arm outline.path) []))
  | .workflow name nodes =>
    let outline := outlineNode scope (.workflow name nodes)
    projectPlain fold (ownState states skipped outline) outline (projectedNodes skipped outline.path nodes)

def projectedNodes (skipped : Bool) (scope : NodePath) : List WorkflowNode → List ProgressNode
  | [] => []
  | node :: rest => projectedNode skipped scope node :: projectedNodes skipped scope rest

def projectedArms (skipped : Bool) (scope : NodePath) : List BranchArm → List ProgressNode
  | [] => []
  | .mk name _ body :: rest =>
    let outline : OutlineNode :=
      { kind := .branchArm, path := appendSegment scope name
        children := outlineNodes (appendSegment scope name) body }
    let own := ownState states skipped outline
    projectPlain fold own outline
      (projectedNodes (skipped || own = some (some .skipped)) outline.path body) ::
      projectedArms skipped scope rest

end

theorem projectNode_construct (skipped : Bool) {outline : OutlineNode} (hs : outline.kind ≠ .step)
    (ha : outline.kind ≠ .branchArm) (hf : outline.kind ≠ .foreach) :
    projectNode states fold skipped outline = projectPlain fold (ownState states skipped outline) outline
      (outline.children.map (projectNode states fold skipped)) := by
  have hskips : (skipped || decide (ownState states skipped outline = some (some .skipped))) = skipped := by
    cases skipped <;> simp [ownState, hs, ha]
  rw [projectNode, if_neg hf]
  simp only [hskips]

theorem projectNode_step (skipped : Bool) (step : StepDefinition) (scope : NodePath) :
    projectNode states fold skipped (stepNode step scope) =
      projectPlain fold (ownState states skipped (stepNode step scope)) (stepNode step scope) [] := by
  rw [projectNode, if_neg (by simp [stepNode])]
  rfl

theorem projectNode_foreach (skipped : Bool) {outline : OutlineNode} (hf : outline.kind = .foreach) :
    projectNode states fold skipped outline = projectForeach fold skipped outline
      ((fold.items outline.path).map (fun index =>
        projectForeachItem fold skipped (foreachItemPath outline.path index)
          ((foreachItemChildren outline (foreachItemPath outline.path index)).map
            (projectNode states fold skipped)))) := by
  rw [projectNode, if_pos hf]
  congr 1
  apply List.map_congr_left
  intro index _
  rw [List.attach_map_val]

mutual

theorem projectNode_outline (skipped : Bool) (scope : NodePath) (node : WorkflowNode) :
    projectNode states fold skipped (outlineNode scope node) = projectedNode states fold skipped scope node := by
  cases node with
  | step step =>
    rw [outlineNode, projectedNode]
    exact projectNode_step states fold skipped step scope
  | branch name arms =>
    rw [projectNode_construct states fold skipped (by simp [outlineNode]) (by simp [outlineNode])
      (by simp [outlineNode]), projectedNode, ← projectNodes_arms]
    rfl
  | loop name mode body condition maxIterations =>
    rw [projectNode_construct states fold skipped (by simp [outlineNode]) (by simp [outlineNode])
      (by simp [outlineNode]), projectedNode, ← projectNodes_outline]
    rfl
  | «foreach» name body selector concurrency feedback =>
    rw [projectNode_foreach states fold skipped rfl, projectedNode]
    congr 1
    apply List.map_congr_left
    intro index _
    rw [foreachItemChildren_outline, projectNodes_outline]
    rw [outlineNode, foreachItemPath_appendSegment]
  | parallel name arms =>
    rw [projectNode_construct states fold skipped (by simp [outlineNode]) (by simp [outlineNode])
      (by simp [outlineNode]), projectedNode]
    congr 1
    rw [outlineNode, List.map_map]
    apply List.map_congr_left
    intro arm _
    exact projectNode_step states fold skipped arm _
  | workflow name nodes =>
    rw [projectNode_construct states fold skipped (by simp [outlineNode]) (by simp [outlineNode])
      (by simp [outlineNode]), projectedNode, ← projectNodes_outline]
    rfl

theorem projectNodes_outline (skipped : Bool) (scope : NodePath) (nodes : List WorkflowNode) :
    (outlineNodes scope nodes).map (projectNode states fold skipped) =
      projectedNodes states fold skipped scope nodes := by
  match nodes with
  | [] => rfl
  | node :: rest =>
    rw [outlineNodes, List.map_cons, projectNode_outline, projectNodes_outline, projectedNodes]

theorem projectNodes_arms (skipped : Bool) (scope : NodePath) (arms : List BranchArm) :
    (outlineArms scope arms).map (projectNode states fold skipped) =
      projectedArms states fold skipped scope arms := by
  match arms with
  | [] => rfl
  | .mk name condition body :: rest =>
    rw [outlineArms, List.map_cons, projectNodes_arms, projectedArms, projectNode, if_neg (by simp),
      ← projectNodes_outline]

end

end KimchiWorkflows.Progress
