import KimchiWorkflows.Progress.Collapse
import KimchiWorkflows.Progress.Reentries

/-!
What the panel draws of a projection: rows of the tree in its order, and no work is folded away.
-/

namespace KimchiWorkflows.Progress

open KimchiWorkflows.Flow KimchiWorkflows.Engine

variable {nodes : List WorkflowNode} {log : List RunEvent} {skipped : Bool} {scope : NodePath} {node step : ProgressNode}

theorem project_ok {outline : Outline} {events : List RunEvent} {view : ProgressView}
    (h : project outline events = .ok view) :
    ∃ fold, fold = events.foldl Fold.next {} ∧ projectedView outline events fold = view := by
  unfold project foldEvents at h
  split at h
  · cases h
  · exact ⟨_, rfl, Except.ok.inj h⟩

mutual

theorem emitNode_sublist (guides : List Bool) (depth : Nat) (hasNextSibling : Bool) (node : ProgressNode) :
    ((emitNode guides depth hasNextSibling node).map ProgressRow.node).Sublist (rowsUnder node) := by
  match node with
  | ⟨kind, path, state, children, tokens, counter, perItemSteps, pendingItems⟩ =>
    rw [emitNode_eq, rowsUnder, List.map_cons]
    refine List.Sublist.cons_cons _ ?_
    split_ifs
    · exact emit_sublist _ (depth + 1) children
    · exact List.nil_sublist _

theorem emit_sublist (guides : List Bool) (depth : Nat) (nodes : List ProgressNode) :
    ((emit guides depth nodes).map ProgressRow.node).Sublist (rows nodes) := by
  match nodes with
  | [] => exact List.Sublist.refl _
  | node :: rest =>
    rw [emit, rows, List.map_append]
    exact (emitNode_sublist guides depth _ node).append (emit_sublist guides depth rest)

end

/-- The panel draws rows of the tree in its order, none twice; every connector leads to a later row, and every row that
is led to has its connector. -/
theorem collapse_fitted (view : ProgressView) :
    ((collapse view).map ProgressRow.node).Sublist (rows view.nodes) ∧
      ∀ before row after, collapse view = before ++ row :: after → Fitted after row := by
  refine ⟨emit_sublist [] 0 view.nodes, ?_⟩
  intro before row after heq
  have h : AllFitted [] (collapse view) := allFitted_emit [] 0 view.nodes [] rfl (fun next hn => nomatch hn)
  exact h.fitted heq

def lane (name : String) : ProgressNode :=
  { kind := .outline .step, path := [{ name := "both" }, { name := name }], state := some .inProgress, children := []
    tokens := 0 }

def lanes : ProgressView :=
  { workflowName := "lanes", status := some .inProgress, tokens := 0, stepsSettled := 0, stepsTotal := 2
    nodes := [{ kind := .outline .parallel, path := [{ name := "both" }], state := some .inProgress
                children := [lane "left", lane "right"], tokens := 0 }] }

/-- The connector beside the first of two lanes leads to the second. -/
theorem collapse_fitted_lanes :
    ((collapse lanes).map ProgressRow.node).Sublist (rows lanes.nodes) ∧
      Fitted [rowOf [false] 1 (lane "right")] (rowOf [true] 1 (lane "left")) :=
  ⟨(collapse_fitted lanes).1, (collapse_fitted lanes).2 ((collapse lanes).take 1) _ _ rfl⟩

structure Shown (row : ProgressNode) : Prop where
  shows : Shows row.state (rowsUnder row)
  leaf : row.kind = .outline .step → row.children = []

def Revealed (node : ProgressNode) : Prop := ∀ row ∈ rowsUnder node, Shown row

theorem revealed_of (hs : Shown node) (hb : ∀ child ∈ node.children, Revealed child) : Revealed node := by
  intro row hrow
  obtain rfl | hrow := mem_rowsUnder.mp hrow
  · exact hs
  · obtain ⟨child, hm, hrow⟩ := mem_rows.mp hrow
    exact hb child hm row hrow

theorem revealed_step (step : StepDefinition) :
    Revealed (projectPlain (log.foldl Fold.next {}) (ownState (deriveStepStates log) skipped (stepNode step scope))
      (stepNode step scope) []) := by
  refine revealed_of ⟨(honest_step step).2, fun _ => rfl⟩ ?_
  intro child hm
  cases hm

mutual

theorem revealed_node (h : InOrder nodes log) (skipped : Bool) (scope : NodePath) (node : WorkflowNode)
    (hocc : OccursAt nodes scope node) :
    Revealed (projectedNode (deriveStepStates log) (log.foldl Fold.next {}) skipped scope node) := by
  have hshows := (honest_node h skipped scope node hocc).2
  cases node with
  | step step => exact revealed_step step
  | branch name arms =>
    refine revealed_of ⟨hshows, fun hk => by cases hk⟩ (revealed_arms h skipped scope arms ?_)
    intro arm hm
    exact ⟨name, arms, hocc, hm⟩
  | loop name mode body condition maxIterations =>
    exact revealed_of ⟨hshows, fun hk => by cases hk⟩
      (revealed_nodes h skipped _ body (fun child hm => .inside hocc .loop hm))
  | «foreach» name body selector concurrency feedback =>
    refine revealed_of ⟨hshows, fun hk => by cases hk⟩ ?_
    intro item hm
    obtain ⟨index, hi, rfl⟩ := List.mem_map.mp hm
    have hbody : ∀ child ∈ body, OccursAt nodes (itemScope scope name index) child :=
      fun child hm => .inside hocc (.item index) hm
    refine revealed_of ⟨?_, fun hk => by cases hk⟩ (revealed_nodes h skipped _ body hbody)
    exact (honest_item h hocc (mem_items.mp hi) (honest_nodes h skipped _ body hbody)).2
  | parallel name arms =>
    refine revealed_of ⟨hshows, fun hk => by cases hk⟩ ?_
    intro child hm
    obtain ⟨arm, -, rfl⟩ := List.mem_map.mp hm
    exact revealed_step arm
  | workflow name nodes =>
    exact revealed_of ⟨hshows, fun hk => by cases hk⟩
      (revealed_nodes h skipped _ nodes (fun child hm => .inside hocc .workflow hm))

theorem revealed_nodes (h : InOrder nodes log) (skipped : Bool) (scope : NodePath) (body : List WorkflowNode)
    (hocc : ∀ node ∈ body, OccursAt nodes scope node) :
    ∀ child ∈ projectedNodes (deriveStepStates log) (log.foldl Fold.next {}) skipped scope body, Revealed child := by
  match body with
  | [] => simp [projectedNodes]
  | node :: rest =>
    rw [projectedNodes, List.forall_mem_cons]
    rw [List.forall_mem_cons] at hocc
    exact ⟨revealed_node h skipped scope node hocc.1, revealed_nodes h skipped scope rest hocc.2⟩

theorem revealed_arms (h : InOrder nodes log) (skipped : Bool) (scope : NodePath) (arms : List BranchArm)
    (hocc : ∀ arm ∈ arms, ∃ name all, OccursAt nodes scope (.branch name all) ∧ arm ∈ all) :
    ∀ child ∈ projectedArms (deriveStepStates log) (log.foldl Fold.next {}) skipped scope arms, Revealed child := by
  match arms with
  | [] => simp [projectedArms]
  | .mk name condition body :: rest =>
    have hshows := (honest_arms h skipped scope (.mk name condition body :: rest) hocc)
    rw [projectedArms, List.forall_mem_cons] at hshows ⊢
    rw [List.forall_mem_cons] at hocc
    obtain ⟨branch, all, hbranch, hm⟩ := hocc.1
    refine ⟨revealed_of ⟨hshows.1.2, fun hk => by cases hk⟩ ?_, revealed_arms h skipped scope rest hocc.2⟩
    exact revealed_nodes h _ _ body (fun child hc => .inside hbranch (.arm hm) hc)

end

def Busy (step : ProgressNode) : Prop :=
  step.kind = .outline .step ∧ (step.state = some .inProgress ∨ step.state = some .blocked)

/-- A row stands for a step: it is its own, or that of the item whose whole body it is, and it shows the step's state. -/
structure StandsFor (row : ProgressRow) (step : ProgressNode) : Prop where
  own : row.node = step ∨ isInlined row.node = true ∧ row.node.children = [step]
  working : step.state = some .inProgress → row.node.state = some .inProgress
  waiting : step.state = some .blocked → row.node.state = some .inProgress ∨ row.node.state = some .blocked

theorem busy_above (h : Shown node) (hb : Busy step) (hm : step ∈ rowsUnder node) :
    node.state = some .inProgress ∨ node.state = some .blocked := by
  obtain ⟨hk, hworking | hwaiting⟩ := hb
  · exact .inl ((h.shows step hm hk).1 hworking)
  · exact (h.shows step hm hk).2 hwaiting

/-- A construct with work inside is neither folded nor left closed. -/
theorem expanded_of_busy (hstate : node.state = some .inProgress ∨ node.state = some .blocked)
    (hi : isInlined node = false) (hne : node.children ≠ []) : (!isCollapsed node && isExpanded node) = true := by
  have hlen : 0 < node.children.length := List.length_pos_of_ne_nil hne
  obtain h | h := hstate <;> simp [isCollapsed, isExpanded, hi, h, hlen]

theorem stands_inlined (h : Revealed node) (hi : isInlined node = true) (hm : step ∈ rows node.children) :
    node.children = [step] := by
  simp only [isInlined, Bool.and_eq_true, decide_eq_true_eq] at hi
  obtain ⟨⟨-, hlen⟩, hstep⟩ := hi
  obtain ⟨child, hchild⟩ := List.length_eq_one_iff.mp hlen
  rw [hchild] at hm hstep ⊢
  have hk : child.kind = .outline .step := by simpa using hstep
  have hunder : child ∈ rowsUnder node := by
    refine mem_rowsUnder.mpr (.inr (mem_rows.mpr ⟨child, ?_, mem_rowsUnder.mpr (.inl rfl)⟩))
    rw [hchild]
    exact List.mem_singleton_self child
  obtain ⟨other, ho, hm⟩ := mem_rows.mp hm
  rw [List.mem_singleton.mp ho] at hm
  obtain rfl | hm := mem_rowsUnder.mp hm
  · rfl
  · rw [(h child hunder).leaf hk] at hm
    cases hm

theorem Revealed.children (h : Revealed node) : ∀ child ∈ node.children, Revealed child := by
  intro child hc row hr
  exact h row (mem_rowsUnder.mpr (.inr (mem_rows.mpr ⟨child, hc, hr⟩)))

theorem drawn_above (guides : List Bool) (depth : Nat) (hasNextSibling : Bool) (h : Revealed node) (hb : Busy step)
    (hm : step ∈ rowsUnder node)
    (hc : step ∈ rows node.children →
      ∃ row ∈ emit (ownGuides guides depth hasNextSibling) (depth + 1) node.children, StandsFor row step) :
    ∃ row ∈ emitNode guides depth hasNextSibling node, StandsFor row step := by
  have hself := h node (mem_rowsUnder.mpr (.inl rfl))
  rw [emitNode_eq]
  obtain rfl | hinside := mem_rowsUnder.mp hm
  · exact ⟨_, List.mem_cons_self, .inl rfl, id, .inr⟩
  · by_cases hi : isInlined node = true
    · refine ⟨_, List.mem_cons_self, .inr ⟨hi, stands_inlined h hi hinside⟩, ?_, ?_⟩
      · exact (hself.shows step hm hb.1).1
      · exact (hself.shows step hm hb.1).2
    · have hne : node.children ≠ [] := by
        intro hnil
        rw [hnil] at hinside
        cases hinside
      rw [if_pos (expanded_of_busy (busy_above hself hb hm) (Bool.eq_false_iff.mpr hi) hne)]
      obtain ⟨row, hrow, hs⟩ := hc hinside
      exact ⟨row, List.mem_cons_of_mem _ hrow, hs⟩

mutual

theorem drawn_node (guides : List Bool) (depth : Nat) (hasNextSibling : Bool) (node : ProgressNode)
    (h : Revealed node) (hb : Busy step) (hm : step ∈ rowsUnder node) :
    ∃ row ∈ emitNode guides depth hasNextSibling node, StandsFor row step := by
  match node with
  | ⟨kind, path, state, children, tokens, counter, perItemSteps, pendingItems⟩ =>
    exact drawn_above guides depth hasNextSibling h hb hm
      (fun hinside => drawn_nodes _ (depth + 1) children h.children hb hinside)

theorem drawn_nodes (guides : List Bool) (depth : Nat) (nodes : List ProgressNode)
    (h : ∀ node ∈ nodes, Revealed node) (hb : Busy step) (hm : step ∈ rows nodes) :
    ∃ row ∈ emit guides depth nodes, StandsFor row step := by
  match nodes with
  | [] => cases hm
  | node :: rest =>
    rw [rows, List.mem_append] at hm
    rw [List.forall_mem_cons] at h
    rw [emit]
    obtain hm | hm := hm
    · obtain ⟨row, hrow, hs⟩ := drawn_node guides depth _ node h.1 hb hm
      exact ⟨row, List.mem_append_left _ hrow, hs⟩
    · obtain ⟨row, hrow, hs⟩ := drawn_nodes guides depth rest h.2 hb hm
      exact ⟨row, List.mem_append_right _ hrow, hs⟩

end

end KimchiWorkflows.Progress
