import Mathlib.Algebra.Order.BigOperators.Group.List
import Mathlib.Algebra.Order.Ring.Nat
import Mathlib.Data.List.Perm.Subperm
import KimchiWorkflows.Engine.CommittedPaths
import KimchiWorkflows.Progress.UniqueRows

/-!
The tally of a projection: the settled steps of two projections compared, and the number of all steps.
-/

namespace KimchiWorkflows.Progress

open KimchiWorkflows.Flow KimchiWorkflows.Engine

def Filled (nodes : List WorkflowNode) : Prop :=
  ∀ name body selector concurrency feedback,
    OccursIn (.foreach name body selector concurrency feedback) nodes → body ≠ []

section Committed

variable {workflow : WorkflowDefinition} {nodes resolved body : List WorkflowNode} {node original : WorkflowNode}
  {workflowName : String} {here : Bool}

theorem bodies_resolved (h : resolveNode workflowName here original = .ok node) (hb : body ∈ bodiesOf node) :
    ∃ below scope, scope ∈ bodiesOf original ∧ resolveIsolation workflowName below scope = .ok body := by
  cases original with
  | branch name arms =>
    obtain ⟨taken, ht, rfl⟩ := of_map_ok h
    obtain ⟨arm, hm, rfl⟩ := List.mem_map.mp hb
    obtain ⟨j, hj⟩ := List.mem_iff_getElem?.mp hm
    obtain ⟨first, hfirst, -, hbody⟩ := resolveArms_getElem? ht hj
    exact ⟨here, first.body, List.mem_map_of_mem (List.mem_of_getElem? hfirst), hbody⟩
  | step step =>
    obtain ⟨tagged, -, rfl⟩ := of_map_ok h
    cases hb
  | parallel name arms =>
    obtain ⟨taken, -, rfl⟩ := of_map_ok h
    cases hb
  | _ =>
    obtain ⟨taken, ht, rfl⟩ := of_map_ok h
    rw [List.mem_singleton.mp hb]
    exact ⟨_, _, List.mem_singleton.mpr rfl, ht⟩

theorem occursIn_resolved (ho : OccursIn node resolved) (h : resolveIsolation workflowName here nodes = .ok resolved) :
    ∃ original below, OccursIn original nodes ∧ resolveNode workflowName below original = .ok node := by
  induction ho generalizing nodes here with
  | here hm =>
    obtain ⟨i, hi⟩ := List.mem_iff_getElem?.mp hm
    obtain ⟨original, horiginal, hr⟩ := resolveIsolation_getElem? h hi
    exact ⟨original, here, .here (List.mem_of_getElem? horiginal), hr⟩
  | within hm hb _ ih =>
    obtain ⟨i, hi⟩ := List.mem_iff_getElem?.mp hm
    obtain ⟨other, hother, hr⟩ := resolveIsolation_getElem? h hi
    obtain ⟨below, scope, hscope, hresolved⟩ := bodies_resolved hr hb
    obtain ⟨original, below', ho, hr'⟩ := ih hresolved
    exact ⟨original, below', .within (List.mem_of_getElem? hother) hscope ho, hr'⟩

theorem ne_nil_resolved (h : resolveIsolation workflowName here nodes = .ok resolved) (hne : nodes ≠ []) :
    resolved ≠ [] := by
  cases nodes with
  | nil => exact absurd rfl hne
  | cons node rest =>
    simp only [resolveIsolation] at h
    split at h
    · cases h
    · obtain ⟨tail, -, rfl⟩ := of_map_ok h
      exact List.cons_ne_nil _ _

theorem committed_ne_nil (hc : Committed workflow) : workflow.nodes ≠ [] := by
  cases hc with
  | @commit options _ part _ _ hcommit =>
    obtain ⟨-, nodes, hr, rfl⟩ := commit_ok hcommit
    refine ne_nil_resolved hr ?_
    intro hnil
    simp [Flow.commit, hnil] at hcommit

theorem committed_filled (hc : Committed workflow) : Filled workflow.nodes := by
  induction hc with
  | @commit options workflow part hparts hnodes hcommit ih =>
    obtain ⟨-, nodes, hr, rfl⟩ := commit_ok hcommit
    intro name body selector concurrency feedback ho
    obtain ⟨original, below, horiginal, hresolved⟩ := occursIn_resolved ho hr
    cases original with
    | «foreach» name' first selector' concurrency' feedback' =>
      obtain ⟨taken, ht, he⟩ := of_map_ok hresolved
      cases he
      refine ne_nil_resolved ht ?_
      cases horiginal with
      | here hm =>
        rw [← hnodes _ hm first (List.mem_singleton.mpr rfl)]
        exact committed_ne_nil (hparts _ hm first (List.mem_singleton.mpr rfl))
      | within hm hb hinner =>
        rw [← hnodes _ hm _ hb] at hinner
        exact ih _ hm _ hb _ _ _ _ _ hinner
    | _ =>
      obtain ⟨_, -, he⟩ := of_map_ok hresolved
      cases he

theorem Filled.below {other : WorkflowNode} (h : Filled nodes) (hm : other ∈ nodes) (hb : body ∈ bodiesOf other) :
    Filled body :=
  fun _ _ _ _ _ ho => h _ _ _ _ _ (.within hm hb ho)

end Committed

variable {states states' : StepStates} {fold fold' : Fold} {settledOnce : List NodePath} {skipped skipped' : Bool}
  {scope path : NodePath} {nodes : List WorkflowNode}

theorem tallyNode_plain (own : Option (Option StepState)) {outline : OutlineNode} (children : List ProgressNode)
    (h : outline.kind ≠ .step) :
    tallyNode settledOnce (projectPlain fold own outline children) = tally settledOnce children := by
  have hleaf : isCountedLeaf (.outline outline.kind) children = false := by simp [isCountedLeaf, h]
  simp [projectPlain, tallyNode, hleaf]

theorem isSettled_skipped : isSettled (some .skipped) = true := rfl

def rowSettled (states : StepStates) (settledOnce : List NodePath) (skipped : Bool) (path : NodePath) : Nat :=
  if skipped = true ∨ isSettled (Dict.get states path) = true ∨ path ∈ settledOnce then 1 else 0

theorem tallyNode_step (step : StepDefinition) :
    tallyNode settledOnce (projectPlain fold (ownState states skipped (stepNode step scope)) (stepNode step scope) []) =
      { settled := rowSettled states settledOnce skipped (appendSegment scope step.name), total := 1 } := by
  cases skipped <;>
    simp [projectPlain, stepNode, tallyNode, isCountedLeaf, ownState, rowSettled, isSettled_skipped]

theorem tallyNode_item (itemPath : NodePath) {children : List ProgressNode} (h : children ≠ []) :
    tallyNode settledOnce (projectForeachItem fold skipped itemPath children) = tally settledOnce children := by
  have hleaf : isCountedLeaf .foreachItem children = false := by simp [isCountedLeaf, h]
  simp [projectForeachItem, tallyNode, hleaf]

theorem tallyNode_foreach (outline : OutlineNode) (items : List ProgressNode) :
    tallyNode settledOnce (projectForeach fold skipped outline items) =
      { settled := (tally settledOnce items).settled
        total := (tally settledOnce items).total +
          ((Dict.get fold.foreachCounts outline.path).map (· - items.length)).getD 0 *
            templateLeafCount outline.children } := by
  simp [projectForeach, tallyNode, isCountedLeaf]

theorem tally_eq (children : List ProgressNode) : tally settledOnce children =
    { settled := (children.map (fun child => (tallyNode settledOnce child).settled)).sum
      total := (children.map (fun child => (tallyNode settledOnce child).total)).sum } := by
  induction children with
  | nil => rfl
  | cons child rest ih => rw [tally, ih, List.map_cons, List.map_cons, List.sum_cons, List.sum_cons]

theorem projectedNodes_ne_nil (h : nodes ≠ []) : projectedNodes states fold skipped scope nodes ≠ [] := by
  cases nodes with
  | nil => exact absurd rfl h
  | cons node rest =>
    rw [projectedNodes]
    exact List.cons_ne_nil _ _

theorem tally_items (name : String) {body : List WorkflowNode} (hb : body ≠ []) (indices : List Nat) :
    tally settledOnce (indices.map (fun index => projectForeachItem fold skipped (itemScope scope name index)
        (projectedNodes states fold skipped (itemScope scope name index) body))) =
      { settled := (indices.map (fun index =>
          (tally settledOnce (projectedNodes states fold skipped (itemScope scope name index) body)).settled)).sum
        total := (indices.map (fun index =>
          (tally settledOnce (projectedNodes states fold skipped (itemScope scope name index) body)).total)).sum } := by
  simp only [tally_eq (indices.map _), List.map_map, Function.comp_def, tallyNode_item _ (projectedNodes_ne_nil hb)]

theorem tally_arms (parallelPath : NodePath) (arms : List StepDefinition) :
    tally settledOnce (arms.map (fun arm =>
        projectPlain fold (ownState states skipped (stepNode arm parallelPath)) (stepNode arm parallelPath) [])) =
      { settled := (arms.map (fun arm =>
          rowSettled states settledOnce skipped (appendSegment parallelPath arm.name))).sum
        total := arms.length } := by
  simp [tally_eq, Function.comp_def, tallyNode_step]

mutual

theorem settled_le_totalNode (node : ProgressNode) :
    (tallyNode settledOnce node).settled ≤ (tallyNode settledOnce node).total := by
  obtain ⟨kind, path, state, children, tokens, counter, perItemSteps, pendingItems⟩ := node
  have h := settled_le_total children
  rw [tallyNode]
  split
  · simp only
    split_ifs <;> omega
  · exact h.trans (Nat.le_add_right _ _)

theorem settled_le_total (children : List ProgressNode) :
    (tally settledOnce children).settled ≤ (tally settledOnce children).total := by
  match children with
  | [] => exact le_refl _
  | node :: rest =>
    rw [tally]
    exact Nat.add_le_add (settled_le_totalNode node) (settled_le_total rest)

end

/-- A later moment of a run: what is skipped stays skipped, and the items seen are still seen. -/
structure Later (states states' : StepStates) (fold fold' : Fold) : Prop where
  skips : ∀ key, Dict.get states key = some .skipped → Dict.get states' key = some .skipped
  items : ∀ key, fold.seen key ⊆ fold'.seen key
  once : ∀ key, (fold.seen key).Nodup

def StaySettled (states states' : StepStates) (fold fold' : Fold) (scope : NodePath) (nodes : List WorkflowNode) : Prop :=
  ∀ node ∈ nodes, ∀ path step, RunsAt scope node path step →
    isSettled (Dict.get states path) = true ∨ path ∈ fold.settledOnce →
    isSettled (Dict.get states' path) = true ∨ path ∈ fold'.settledOnce

theorem StaySettled.below {inner : NodePath} {body : List WorkflowNode} {node : WorkflowNode}
    (h : StaySettled states states' fold fold' scope nodes) (hm : node ∈ nodes) (hc : Child scope node inner body) :
    StaySettled states states' fold fold' inner body :=
  fun _ hchild path step hr => h _ hm path step (.inside hc hchild hr)

theorem rowSettled_le {node : WorkflowNode} {step : StepDefinition} (hs : skipped = true → skipped' = true)
    (h : StaySettled states states' fold fold' scope nodes) (hm : node ∈ nodes) (hr : RunsAt scope node path step) :
    rowSettled states fold.settledOnce skipped path ≤ rowSettled states' fold'.settledOnce skipped' path := by
  unfold rowSettled
  split_ifs with hnow hlater hlater
  · exact le_refl _
  · refine absurd ?_ hlater
    obtain hskip | hsettled := hnow
    · exact .inl (hs hskip)
    · exact .inr (h _ hm path step hr hsettled)
  · exact Nat.zero_le _
  · exact le_refl _

theorem sum_le_of_subset {indices others : List Nat} {f g : Nat → Nat} (hn : indices.Nodup) (hs : indices ⊆ others)
    (h : ∀ index ∈ indices, f index ≤ g index) : (indices.map f).sum ≤ (others.map g).sum := by
  obtain ⟨between, hperm, hsub⟩ := hn.subperm hs
  calc (indices.map f).sum ≤ (indices.map g).sum := List.sum_le_sum h
    _ = (between.map g).sum := ((hperm.map g).sum_eq).symm
    _ ≤ (others.map g).sum := (hsub.map g).sum_le_sum (fun _ _ => Nat.zero_le _)

theorem skips_arm {outline : OutlineNode} (hl : Later states states' fold fold') (ha : outline.kind = .branchArm)
    (hs : skipped = true → skipped' = true)
    (h : (skipped || decide (ownState states skipped outline = some (some .skipped))) = true) :
    (skipped' || decide (ownState states' skipped' outline = some (some .skipped))) = true := by
  cases hskip : skipped' with
  | true => rfl
  | false =>
    have hrun : skipped = false := by
      cases skipped with
      | false => rfl
      | true => exact absurd (hs rfl) (by simp [hskip])
    subst hrun
    have harm : Dict.get states outline.path = some .skipped := by simpa [ownState, ha] using h
    simp [ownState, ha, hl.skips _ harm]

mutual

theorem settledNode_le {skipped skipped' : Bool} {scope : NodePath} {nodes : List WorkflowNode}
    (hl : Later states states' fold fold') (hf : Filled nodes)
    (hst : StaySettled states states' fold fold' scope nodes) (hs : skipped = true → skipped' = true)
    (node : WorkflowNode) (hm : node ∈ nodes) :
    (tallyNode fold.settledOnce (projectedNode states fold skipped scope node)).settled ≤
      (tallyNode fold'.settledOnce (projectedNode states' fold' skipped' scope node)).settled := by
  cases node with
  | step step =>
    rw [projectedNode, projectedNode, tallyNode_step, tallyNode_step]
    exact rowSettled_le hs hst hm .step
  | branch name arms =>
    rw [projectedNode, projectedNode, tallyNode_plain _ _ (by simp [outlineNode]),
      tallyNode_plain _ _ (by simp [outlineNode])]
    exact settledArms_le hl hf hst hs hm arms (List.Subset.refl _)
  | loop name mode body condition maxIterations =>
    rw [projectedNode, projectedNode, tallyNode_plain _ _ (by simp [outlineNode]),
      tallyNode_plain _ _ (by simp [outlineNode])]
    exact settled_le hl (hf.below hm (List.mem_singleton.mpr rfl)) (hst.below hm .loop) hs body (List.Subset.refl _)
  | «foreach» name body selector concurrency feedback =>
    have hb : body ≠ [] := hf _ _ _ _ _ (.here hm)
    rw [projectedNode, projectedNode, tallyNode_foreach, tallyNode_foreach, tally_items name hb, tally_items name hb]
    refine sum_le_of_subset (nodup_items hl.once _) ?_ ?_
    · intro index hi
      exact mem_items.mpr (hl.items _ (mem_items.mp hi))
    · intro index _
      exact settled_le hl (hf.below hm (List.mem_singleton.mpr rfl)) (hst.below hm (.item index)) hs body
        (List.Subset.refl _)
  | parallel name arms =>
    rw [projectedNode, projectedNode, tallyNode_plain _ _ (by simp [outlineNode]),
      tallyNode_plain _ _ (by simp [outlineNode]), tally_arms, tally_arms]
    apply List.sum_le_sum
    intro arm harm
    exact rowSettled_le hs hst hm (.arm harm)
  | workflow name inner =>
    rw [projectedNode, projectedNode, tallyNode_plain _ _ (by simp [outlineNode]),
      tallyNode_plain _ _ (by simp [outlineNode])]
    exact settled_le hl (hf.below hm (List.mem_singleton.mpr rfl)) (hst.below hm .workflow) hs inner
      (List.Subset.refl _)
termination_by structural node

theorem settled_le {skipped skipped' : Bool} {scope : NodePath} {nodes : List WorkflowNode}
    (hl : Later states states' fold fold') (hf : Filled nodes)
    (hst : StaySettled states states' fold fold' scope nodes) (hs : skipped = true → skipped' = true)
    (rest : List WorkflowNode) (hm : rest ⊆ nodes) :
    (tally fold.settledOnce (projectedNodes states fold skipped scope rest)).settled ≤
      (tally fold'.settledOnce (projectedNodes states' fold' skipped' scope rest)).settled := by
  match rest with
  | [] => exact le_refl _
  | node :: rest =>
    obtain ⟨hnode, hrest⟩ := List.cons_subset.mp hm
    rw [projectedNodes, projectedNodes, tally, tally]
    exact Nat.add_le_add (settledNode_le hl hf hst hs node hnode) (settled_le hl hf hst hs rest hrest)
termination_by structural rest

theorem settledArms_le {skipped skipped' : Bool} {scope : NodePath} {nodes : List WorkflowNode} {name : String}
    {arms : List BranchArm} (hl : Later states states' fold fold') (hf : Filled nodes)
    (hst : StaySettled states states' fold fold' scope nodes) (hs : skipped = true → skipped' = true)
    (hm : .branch name arms ∈ nodes) (rest : List BranchArm) (ha : rest ⊆ arms) :
    (tally fold.settledOnce (projectedArms states fold skipped scope rest)).settled ≤
      (tally fold'.settledOnce (projectedArms states' fold' skipped' scope rest)).settled := by
  match rest with
  | [] => exact le_refl _
  | .mk armName condition body :: rest =>
    obtain ⟨harm, hrest⟩ := List.cons_subset.mp ha
    rw [projectedArms, projectedArms, tally, tally, tallyNode_plain _ _ (by simp), tallyNode_plain _ _ (by simp)]
    refine Nat.add_le_add ?_ (settledArms_le hl hf hst hs hm rest hrest)
    exact settled_le hl (hf.below hm (List.mem_map_of_mem harm)) (hst.below hm (.arm harm)) (skips_arm hl rfl hs) body
      (List.Subset.refl _)
termination_by structural rest

end

def isForeach : WorkflowNode → Bool
  | .foreach _ _ _ _ _ => true
  | _ => false

def Unnested (nodes : List WorkflowNode) : Prop :=
  ∀ node body, OccursIn node nodes → isForeach node = true → body ∈ bodiesOf node →
    ∀ inner, OccursIn inner body → isForeach inner = false

/-- The items a fan-out is known to have: those seen and those declared beyond them. -/
def Fold.declared (fold : Fold) (key : NodePath) : Nat :=
  (fold.seen key).length + ((Dict.get fold.foreachCounts key).map (· - (fold.seen key).length)).getD 0

mutual

/-- The steps a run is known to have, its fan-outs taken at the length that was declared. -/
def plannedUnder (fold : Fold) (scope : NodePath) : WorkflowNode → Nat
  | .step _ => 1
  | .branch _ arms => plannedArms fold scope arms
  | .loop name _ body _ _ => planned fold (appendSegment scope name) body
  | .foreach name body _ _ _ =>
    fold.declared (appendSegment scope name) * templateLeafCount (outlineNodes (appendSegment scope name) body)
  | .parallel _ arms => arms.length
  | .workflow name nodes => planned fold (appendSegment scope name) nodes

def planned (fold : Fold) (scope : NodePath) : List WorkflowNode → Nat
  | [] => 0
  | node :: rest => plannedUnder fold scope node + planned fold scope rest

def plannedArms (fold : Fold) (scope : NodePath) : List BranchArm → Nat
  | [] => 0
  | .mk name _ body :: rest => planned fold (appendSegment scope name) body + plannedArms fold scope rest

end

theorem templateLeafCount_arms (parallelPath : NodePath) (arms : List StepDefinition) :
    templateLeafCount (arms.map (fun arm => stepNode arm parallelPath)) = arms.length := by
  induction arms with
  | nil => rfl
  | cons arm rest ih =>
    rw [List.map_cons, templateLeafCount, ih, stepNode, leafCount, if_pos rfl, List.length_cons, Nat.add_comm]

mutual

/-- Without a fan-out the steps are those of the template, wherever it stands. -/
theorem leafCount_planned {template scope : NodePath} {nodes : List WorkflowNode}
    (h : ∀ inner, OccursIn inner nodes → isForeach inner = false) (node : WorkflowNode) (hm : node ∈ nodes) :
    leafCount (outlineNode template node) = plannedUnder fold scope node := by
  have hbelow : ∀ body ∈ bodiesOf node, ∀ inner, OccursIn inner body → isForeach inner = false :=
    fun body hb inner ho => h inner (.within hm hb ho)
  cases node with
  | step step => rfl
  | branch name arms =>
    rw [outlineNode, leafCount, if_neg (by simp), plannedUnder]
    exact leafCountArms_planned hbelow arms (List.Subset.refl _)
  | loop name mode body condition maxIterations =>
    rw [outlineNode, leafCount, if_neg (by simp), plannedUnder]
    exact leafCounts_planned (hbelow _ (List.mem_singleton.mpr rfl)) body (List.Subset.refl _)
  | «foreach» name body selector concurrency feedback => cases h _ (.here hm)
  | parallel name arms =>
    rw [outlineNode, leafCount, if_neg (by simp), plannedUnder, templateLeafCount_arms]
  | workflow name inner =>
    rw [outlineNode, leafCount, if_neg (by simp), plannedUnder]
    exact leafCounts_planned (hbelow _ (List.mem_singleton.mpr rfl)) inner (List.Subset.refl _)
termination_by structural node

theorem leafCounts_planned {template scope : NodePath} {nodes : List WorkflowNode}
    (h : ∀ inner, OccursIn inner nodes → isForeach inner = false) (rest : List WorkflowNode) (hm : rest ⊆ nodes) :
    templateLeafCount (outlineNodes template rest) = planned fold scope rest := by
  match rest with
  | [] => rfl
  | node :: rest =>
    obtain ⟨hnode, hrest⟩ := List.cons_subset.mp hm
    rw [outlineNodes, templateLeafCount, planned, leafCount_planned h node hnode, leafCounts_planned h rest hrest]
termination_by structural rest

theorem leafCountArms_planned {template scope : NodePath} {name : String} {arms : List BranchArm}
    (h : ∀ body ∈ bodiesOf (.branch name arms), ∀ inner, OccursIn inner body → isForeach inner = false)
    (rest : List BranchArm) (ha : rest ⊆ arms) :
    templateLeafCount (outlineArms template rest) = plannedArms fold scope rest := by
  match rest with
  | [] => rfl
  | .mk armName condition body :: rest =>
    obtain ⟨harm, hrest⟩ := List.cons_subset.mp ha
    rw [outlineArms, templateLeafCount, leafCount, if_neg (by simp), plannedArms,
      leafCounts_planned (h _ (List.mem_map_of_mem harm)) body (List.Subset.refl _),
      leafCountArms_planned h rest hrest]
termination_by structural rest

end

theorem length_items (fold : Fold) (key : NodePath) : (fold.items key).length = (fold.seen key).length := by
  rw [Fold.items, List.length_mergeSort]

theorem Unnested.below {other : WorkflowNode} {body : List WorkflowNode} (h : Unnested nodes) (hm : other ∈ nodes)
    (hb : body ∈ bodiesOf other) : Unnested body :=
  fun _ _ ho hforeach hbody => h _ _ (.within hm hb ho) hforeach hbody

mutual

theorem totalNode_planned {skipped : Bool} {scope : NodePath} {nodes : List WorkflowNode} (hf : Filled nodes)
    (hu : Unnested nodes) (node : WorkflowNode) (hm : node ∈ nodes) :
    (tallyNode settledOnce (projectedNode states fold skipped scope node)).total = plannedUnder fold scope node := by
  cases node with
  | step step => rw [projectedNode, tallyNode_step, plannedUnder]
  | branch name arms =>
    rw [projectedNode, tallyNode_plain _ _ (by simp [outlineNode]), plannedUnder]
    exact totalArms_planned hf hu hm arms (List.Subset.refl _)
  | loop name mode body condition maxIterations =>
    rw [projectedNode, tallyNode_plain _ _ (by simp [outlineNode]), plannedUnder]
    exact total_planned (hf.below hm (List.mem_singleton.mpr rfl)) (hu.below hm (List.mem_singleton.mpr rfl)) body
      (List.Subset.refl _)
  | «foreach» name body selector concurrency feedback =>
    have hflat := hu _ body (.here hm) rfl (List.mem_singleton.mpr rfl)
    have hitem : ∀ index, (tally settledOnce (projectedNodes states fold skipped (itemScope scope name index) body)).total =
        templateLeafCount (outlineNodes (appendSegment scope name) body) := by
      intro index
      rw [leafCounts_planned hflat body (List.Subset.refl _)]
      exact total_planned (hf.below hm (List.mem_singleton.mpr rfl)) (hu.below hm (List.mem_singleton.mpr rfl)) body
        (List.Subset.refl _)
    rw [projectedNode, tallyNode_foreach, tally_items name (hf _ _ _ _ _ (.here hm)), plannedUnder]
    simp only [hitem, List.map_const', List.sum_replicate, List.length_map, length_items, outlineNode, Fold.declared,
      nsmul_eq_mul, Nat.cast_id]
    rw [Nat.add_mul]
  | parallel name arms =>
    rw [projectedNode, tallyNode_plain _ _ (by simp [outlineNode]), tally_arms, plannedUnder]
  | workflow name inner =>
    rw [projectedNode, tallyNode_plain _ _ (by simp [outlineNode]), plannedUnder]
    exact total_planned (hf.below hm (List.mem_singleton.mpr rfl)) (hu.below hm (List.mem_singleton.mpr rfl)) inner
      (List.Subset.refl _)
termination_by structural node

/-- The denominator of the footer is what the run is known to have. -/
theorem total_planned {skipped : Bool} {scope : NodePath} {nodes : List WorkflowNode} (hf : Filled nodes)
    (hu : Unnested nodes) (rest : List WorkflowNode) (hm : rest ⊆ nodes) :
    (tally settledOnce (projectedNodes states fold skipped scope rest)).total = planned fold scope rest := by
  match rest with
  | [] => rfl
  | node :: rest =>
    obtain ⟨hnode, hrest⟩ := List.cons_subset.mp hm
    rw [projectedNodes, tally, planned]
    show _ + _ = _
    rw [totalNode_planned hf hu node hnode, total_planned hf hu rest hrest]
termination_by structural rest

theorem totalArms_planned {skipped : Bool} {scope : NodePath} {nodes : List WorkflowNode} {name : String}
    {arms : List BranchArm} (hf : Filled nodes) (hu : Unnested nodes) (hm : .branch name arms ∈ nodes)
    (rest : List BranchArm) (ha : rest ⊆ arms) :
    (tally settledOnce (projectedArms states fold skipped scope rest)).total = plannedArms fold scope rest := by
  match rest with
  | [] => rfl
  | .mk armName condition body :: rest =>
    obtain ⟨harm, hrest⟩ := List.cons_subset.mp ha
    rw [projectedArms, tally, plannedArms]
    show _ + _ = _
    rw [tallyNode_plain _ _ (by simp), totalArms_planned hf hu hm rest hrest]
    rw [total_planned (hf.below hm (List.mem_map_of_mem harm)) (hu.below hm (List.mem_map_of_mem harm)) body
      (List.Subset.refl _)]
termination_by structural rest

end

end KimchiWorkflows.Progress
