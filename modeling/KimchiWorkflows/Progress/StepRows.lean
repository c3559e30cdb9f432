import KimchiWorkflows.Engine.ExecutionKeys
import KimchiWorkflows.Progress.Template
import KimchiWorkflows.Progress.UsagePreview

/-!
The step rows of a projection: the steps of the workflow, in the foreach items the log mentions, each once.
-/

namespace KimchiWorkflows.Progress

open KimchiWorkflows.Flow KimchiWorkflows.Engine

/-- Every foreach item on the path, from the scope down, is one the log mentions. -/
def Mentioned (fold : Fold) (scope path : NodePath) : Prop :=
  ∀ q name i, scope.length ≤ q.length → q ++ [({ name := name, index := some (.foreach, i) } : PathSegment)] <+: path →
    i ∈ fold.seen (q ++ [{ name := name }])

variable {states : StepStates} {fold : Fold} {skipped : Bool} {scope path : NodePath}

theorem eq_of_prefix_snoc {q : NodePath} {a b : PathSegment} (hl : q.length = scope.length)
    (hq : q ++ [a] <+: path) (hs : scope ++ [b] <+: path) : q = scope ∧ a = b := by
  obtain ⟨u, rfl⟩ := hq
  obtain ⟨v, hv⟩ := hs
  rw [List.append_assoc, List.append_assoc] at hv
  obtain ⟨rfl, hrest⟩ := List.append_inj hv hl.symm
  simp only [List.singleton_append, List.cons.injEq] at hrest
  exact ⟨rfl, hrest.1.symm⟩

theorem mentioned_plain {name : String} (h : appendSegment scope name <+: path) :
    Mentioned fold scope path ↔ Mentioned fold (appendSegment scope name) path := by
  constructor
  · intro hm q other i hl hq
    exact hm q other i (by simp [appendSegment] at hl; omega) hq
  · intro hm q other i hl hq
    by_cases heq : q.length = scope.length
    · obtain ⟨-, hsegment⟩ := eq_of_prefix_snoc heq hq h
      cases hsegment
    · exact hm q other i (by simp [appendSegment]; omega) hq

theorem mentioned_item (name : String) (index : Nat) (h : itemScope scope name index <+: path) :
    Mentioned fold scope path ↔
      index ∈ fold.seen (appendSegment scope name) ∧ Mentioned fold (itemScope scope name index) path := by
  constructor
  · intro hm
    refine ⟨hm scope name index (le_refl _) h, ?_⟩
    intro q other i hl hq
    exact hm q other i (by simp [itemScope, appendForeachItem] at hl; omega) hq
  · rintro ⟨hseen, hm⟩ q other i hl hq
    by_cases heq : q.length = scope.length
    · obtain ⟨rfl, hsegment⟩ := eq_of_prefix_snoc heq hq h
      cases hsegment
      exact hseen
    · exact hm q other i (by simp [itemScope, appendForeachItem]; omega) hq

theorem mentioned_self (name : String) : Mentioned fold scope (appendSegment scope name) := by
  refine (mentioned_plain (List.prefix_refl _)).mpr ?_
  intro q other i hl hq
  have hlength := hq.length_le
  simp only [appendSegment, List.length_append, List.length_cons, List.length_nil] at hl hlength
  omega

theorem mem_items {key : NodePath} {index : Nat} : index ∈ fold.items key ↔ index ∈ fold.seen key := by
  rw [Fold.items, List.mem_mergeSort]

theorem stepPaths_eq (nodes : List ProgressNode) : stepPaths nodes = nodes.flatMap stepPathsUnder := by
  induction nodes with
  | nil => rfl
  | cons node rest ih => rw [stepPaths, ih, List.flatMap_cons]

theorem stepPathsUnder_plain (own : Option (Option StepState)) {outline : OutlineNode} (children : List ProgressNode)
    (h : outline.kind ≠ .step) : stepPathsUnder (projectPlain fold own outline children) = stepPaths children := by
  rw [projectPlain, stepPathsUnder, rowPaths, if_neg]
  intro heq
  exact h (ProgressKind.outline.inj heq)

theorem stepPathsUnder_step (step : StepDefinition) (own : Option (Option StepState)) :
    stepPathsUnder (projectPlain fold own (stepNode step scope) []) = [appendSegment scope step.name] := by
  simp [projectPlain, stepNode, stepPathsUnder, rowPaths, stepPaths]

theorem stepPathsUnder_item (itemPath : NodePath) (body : List ProgressNode) :
    stepPathsUnder (projectForeachItem fold skipped itemPath body) = stepPaths body := by
  rw [projectForeachItem, stepPathsUnder, rowPaths, if_neg (by simp)]

theorem stepPathsUnder_foreach (outline : OutlineNode) (items : List ProgressNode) :
    stepPathsUnder (projectForeach fold skipped outline items) = stepPaths items := by
  rw [projectForeach, stepPathsUnder, rowPaths, if_neg (by simp)]

theorem stepPaths_items (name : String) (body : List WorkflowNode) (indices : List Nat) :
    stepPaths (indices.map (fun index => projectForeachItem fold skipped (itemScope scope name index)
        (projectedNodes states fold skipped (itemScope scope name index) body))) =
      indices.flatMap (fun index =>
        stepPaths (projectedNodes states fold skipped (itemScope scope name index) body)) := by
  rw [stepPaths_eq, List.flatMap_map]
  exact List.flatMap_congr (fun index _ => stepPathsUnder_item _ _)

theorem stepPaths_parallel (parallelPath : NodePath) (arms : List StepDefinition)
    (own : StepDefinition → Option (Option StepState)) :
    stepPaths (arms.map (fun arm => projectPlain fold (own arm) (stepNode arm parallelPath) [])) =
      arms.map (fun arm => appendSegment parallelPath arm.name) := by
  rw [stepPaths_eq, List.flatMap_map, ← List.flatMap_singleton' arms, List.map_flatMap]
  simp [stepPathsUnder_step]

theorem runsAt_step {step step' : StepDefinition} :
    RunsAt scope (.step step) path step' ↔ path = appendSegment scope step.name ∧ step' = step := by
  constructor
  · intro h
    cases h with
    | step => exact ⟨rfl, rfl⟩
    | inside hc => cases hc
  · rintro ⟨rfl, rfl⟩
    exact .step

theorem runsAt_parallel {name : String} {arms : List StepDefinition} {step : StepDefinition} :
    RunsAt scope (.parallel name arms) path step ↔
      step ∈ arms ∧ path = appendSegment (appendSegment scope name) step.name := by
  constructor
  · intro h
    cases h with
    | arm hm => exact ⟨hm, rfl⟩
    | inside hc => cases hc
  · rintro ⟨hm, rfl⟩
    exact .arm hm

/-- Where what a scope's bodies run is run: nothing else runs inside a construct but a parallel. -/
theorem runsAt_inside (node : WorkflowNode) {step : StepDefinition} (hs : ∀ other, node ≠ .step other)
    (hp : ∀ name arms, node ≠ .parallel name arms) : RunsAt scope node path step ↔
      ∃ inner body, Child scope node inner body ∧ ∃ child ∈ body, RunsAt inner child path step := by
  constructor
  · intro h
    cases h with
    | step => exact absurd rfl (hs _)
    | arm => exact absurd rfl (hp _ _)
    | inside hc hm hr => exact ⟨_, _, hc, _, hm, hr⟩
  · rintro ⟨inner, body, hc, child, hm, hr⟩
    exact .inside hc hm hr

/-- A step of the nodes of a scope, with every item on its path mentioned. -/
def RowAt (fold : Fold) (scope : NodePath) (nodes : List WorkflowNode) (path : NodePath) : Prop :=
  (∃ node ∈ nodes, ∃ step, RunsAt scope node path step) ∧ Mentioned fold scope path

theorem rowAt_plain {name : String} {nodes : List WorkflowNode} :
    RowAt fold (appendSegment scope name) nodes path ↔
      (∃ node ∈ nodes, ∃ step, RunsAt (appendSegment scope name) node path step) ∧ Mentioned fold scope path := by
  refine and_congr_right ?_
  rintro ⟨node, -, step, hr⟩
  exact (mentioned_plain hr.scope_le).symm

theorem rowAt_cons {node : WorkflowNode} {rest : List WorkflowNode} : RowAt fold scope (node :: rest) path ↔
    ((∃ step, RunsAt scope node path step) ∧ Mentioned fold scope path) ∨ RowAt fold scope rest path := by
  simp only [RowAt, List.exists_mem_cons_iff, or_and_right]

mutual

theorem mem_stepPathsUnder (skipped : Bool) (scope : NodePath) (node : WorkflowNode) :
    path ∈ stepPathsUnder (projectedNode states fold skipped scope node) ↔
      (∃ step, RunsAt scope node path step) ∧ Mentioned fold scope path := by
  cases node with
  | step step =>
    rw [projectedNode, stepPathsUnder_step, List.mem_singleton]
    simp only [runsAt_step]
    constructor
    · rintro rfl
      exact ⟨⟨step, rfl, rfl⟩, mentioned_self _⟩
    · rintro ⟨⟨_, rfl, -⟩, -⟩
      rfl
  | branch name arms =>
    rw [projectedNode, stepPathsUnder_plain _ _ (by simp [outlineNode]), mem_stepPaths_arms]
    simp only [runsAt_inside (.branch name arms) (by simp) (by simp)]
    refine and_congr_left fun _ => ?_
    constructor
    · rintro ⟨arm, ha, child, hm, step, hr⟩
      exact ⟨step, _, _, .arm ha, child, hm, hr⟩
    · rintro ⟨step, inner, body, hc, child, hm, hr⟩
      cases hc with
      | arm ha => exact ⟨_, ha, child, hm, step, hr⟩
  | loop name mode body condition maxIterations =>
    rw [projectedNode, stepPathsUnder_plain _ _ (by simp [outlineNode]), mem_stepPaths]
    simp only [outlineNode]
    rw [rowAt_plain]
    simp only [runsAt_inside (.loop name mode body condition maxIterations) (by simp) (by simp)]
    refine and_congr_left fun _ => ?_
    constructor
    · rintro ⟨child, hm, step, hr⟩
      exact ⟨step, _, _, .loop, child, hm, hr⟩
    · rintro ⟨step, inner, inside, hc, child, hm, hr⟩
      cases hc
      exact ⟨child, hm, step, hr⟩
  | «foreach» name body selector concurrency feedback =>
    rw [projectedNode, stepPathsUnder_foreach, stepPaths_items, List.mem_flatMap]
    simp only [mem_stepPaths, mem_items,
      runsAt_inside (.foreach name body selector concurrency feedback) (by simp) (by simp)]
    constructor
    · rintro ⟨index, hi, ⟨child, hm, step, hr⟩, hmentioned⟩
      exact ⟨⟨step, _, _, .item index, child, hm, hr⟩, (mentioned_item name index hr.scope_le).mpr ⟨hi, hmentioned⟩⟩
    · rintro ⟨⟨step, inner, inside, hc, child, hm, hr⟩, hmentioned⟩
      cases hc with
      | item index =>
        obtain ⟨hi, hbelow⟩ := (mentioned_item name index hr.scope_le).mp hmentioned
        exact ⟨index, hi, ⟨child, hm, step, hr⟩, hbelow⟩
  | parallel name arms =>
    rw [projectedNode, stepPathsUnder_plain _ _ (by simp [outlineNode]), stepPaths_parallel, List.mem_map]
    simp only [runsAt_parallel]
    constructor
    · rintro ⟨arm, ha, rfl⟩
      exact ⟨⟨arm, ha, rfl⟩, (mentioned_plain (List.prefix_append _ _)).mpr (mentioned_self _)⟩
    · rintro ⟨⟨arm, ha, rfl⟩, -⟩
      exact ⟨arm, ha, rfl⟩
  | workflow name nodes =>
    rw [projectedNode, stepPathsUnder_plain _ _ (by simp [outlineNode]), mem_stepPaths]
    simp only [outlineNode]
    rw [rowAt_plain]
    simp only [runsAt_inside (.workflow name nodes) (by simp) (by simp)]
    refine and_congr_left fun _ => ?_
    constructor
    · rintro ⟨child, hm, step, hr⟩
      exact ⟨step, _, _, .workflow, child, hm, hr⟩
    · rintro ⟨step, inner, inside, hc, child, hm, hr⟩
      cases hc
      exact ⟨child, hm, step, hr⟩

/-- A projection has a row for a step exactly where the step runs, in items the log mentions. -/
theorem mem_stepPaths (skipped : Bool) (scope : NodePath) (nodes : List WorkflowNode) :
    path ∈ stepPaths (projectedNodes states fold skipped scope nodes) ↔ RowAt fold scope nodes path := by
  match nodes with
  | [] => simp [projectedNodes, stepPaths, RowAt]
  | node :: rest =>
    rw [projectedNodes, stepPaths, List.mem_append, mem_stepPathsUnder, mem_stepPaths, rowAt_cons]

theorem mem_stepPaths_arms (skipped : Bool) (scope : NodePath) (arms : List BranchArm) :
    path ∈ stepPaths (projectedArms states fold skipped scope arms) ↔
      (∃ arm ∈ arms, ∃ child ∈ arm.body, ∃ step, RunsAt (appendSegment scope arm.name) child path step) ∧
        Mentioned fold scope path := by
  match arms with
  | [] => simp [projectedArms, stepPaths]
  | .mk name condition body :: rest =>
    rw [projectedArms, stepPaths, List.mem_append, stepPathsUnder_plain _ _ (by simp), mem_stepPaths,
      mem_stepPaths_arms, rowAt_plain, ← or_and_right, List.exists_mem_cons_iff]
    rfl

end

end KimchiWorkflows.Progress
