import KimchiWorkflows.Progress.Rows

/-!
The states of the rows: a step shows what the log derives for it or a skip, and what the log never heard
of is still to do.
-/

namespace KimchiWorkflows.Progress

open KimchiWorkflows.Flow KimchiWorkflows.Engine

/-- Inside what is skipped a row is skipped; elsewhere a step has the state derived for its path. -/
def Told (states : StepStates) (skipped : Bool) (row : ProgressNode) : Prop :=
  (skipped = true → row.state = some .skipped) ∧
  (row.kind = .outline .step → row.state = Dict.get states row.path ∨ row.state = some .skipped)

variable {states : StepStates} {fold : Fold} {skipped : Bool} {scope path : NodePath} {row : ProgressNode}
  {log : List RunEvent}

theorem Told.weaken {other : Bool} (h : Told states (skipped || other) row) : Told states skipped row :=
  ⟨fun hs => h.1 (by rw [hs, Bool.true_or]), h.2⟩

theorem told_plain {outline : OutlineNode} {children : List ProgressNode}
    (hc : ∀ row ∈ rows children, Told states skipped row) :
    ∀ row ∈ rowsUnder (projectPlain fold (ownState states skipped outline) outline children),
      Told states skipped row := by
  intro row hrow
  obtain rfl | hrow := mem_rowsUnder.mp hrow
  · constructor
    · intro hs
      simp [projectPlain, ownState, hs]
    · intro hk
      have hkind : outline.kind = .step := ProgressKind.outline.inj hk
      cases skipped with
      | true => exact .inr (by simp [projectPlain, ownState])
      | false => exact .inl (by simp [projectPlain, ownState, hkind])
  · exact hc row hrow

theorem told_foreach {outline : OutlineNode} {items : List ProgressNode}
    (hc : ∀ row ∈ rows items, Told states skipped row) :
    ∀ row ∈ rowsUnder (projectForeach fold skipped outline items), Told states skipped row := by
  intro row hrow
  obtain rfl | hrow := mem_rowsUnder.mp hrow
  · exact ⟨fun hs => by simp [projectForeach, hs], fun hk => by cases hk⟩
  · exact hc row hrow

theorem told_item {itemPath : NodePath} {body : List ProgressNode}
    (hc : ∀ row ∈ rows body, Told states skipped row) :
    ∀ row ∈ rowsUnder (projectForeachItem fold skipped itemPath body), Told states skipped row := by
  intro row hrow
  obtain rfl | hrow := mem_rowsUnder.mp hrow
  · exact ⟨fun hs => by simp [projectForeachItem, hs], fun hk => by cases hk⟩
  · exact hc row hrow

mutual

theorem told_node (skipped : Bool) (scope : NodePath) (node : WorkflowNode) :
    ∀ row ∈ rowsUnder (projectedNode states fold skipped scope node), Told states skipped row := by
  cases node with
  | step step => exact told_plain (by simp [rows])
  | branch name arms => exact told_plain (told_arms skipped scope arms)
  | loop name mode body condition maxIterations => exact told_plain (told_nodes skipped _ body)
  | «foreach» name body selector concurrency feedback =>
    refine told_foreach ?_
    intro row hrow
    obtain ⟨item, hm, hrow⟩ := mem_rows.mp hrow
    obtain ⟨index, -, rfl⟩ := List.mem_map.mp hm
    exact told_item (told_nodes skipped _ body) row hrow
  | parallel name arms =>
    refine told_plain ?_
    intro row hrow
    obtain ⟨arm, hm, hrow⟩ := mem_rows.mp hrow
    obtain ⟨step, -, rfl⟩ := List.mem_map.mp hm
    exact told_plain (by simp [rows]) row hrow
  | workflow name nodes => exact told_plain (told_nodes skipped _ nodes)

theorem told_nodes (skipped : Bool) (scope : NodePath) (nodes : List WorkflowNode) :
    ∀ row ∈ rows (projectedNodes states fold skipped scope nodes), Told states skipped row := by
  match nodes with
  | [] => simp [projectedNodes, rows]
  | node :: rest =>
    intro row hrow
    obtain hrow | hrow := List.mem_append.mp hrow
    · exact told_node skipped scope node row hrow
    · exact told_nodes skipped scope rest row hrow

theorem told_arms (skipped : Bool) (scope : NodePath) (arms : List BranchArm) :
    ∀ row ∈ rows (projectedArms states fold skipped scope arms), Told states skipped row := by
  match arms with
  | [] => simp [projectedArms, rows]
  | .mk name condition body :: rest =>
    intro row hrow
    obtain hrow | hrow := List.mem_append.mp hrow
    · refine told_plain ?_ row hrow
      intro row hrow
      exact (told_nodes _ _ body row hrow).weaken
    · exact told_arms skipped scope rest row hrow

end

mutual

theorem path_mem_stepPathsUnder (node : ProgressNode) (hrow : row ∈ rowsUnder node)
    (hk : row.kind = .outline .step) : row.path ∈ stepPathsUnder node := by
  obtain ⟨kind, path, state, children, tokens, counter, perItemSteps, pendingItems⟩ := node
  rw [stepPathsUnder, rowPaths]
  obtain rfl | hrow := mem_rowsUnder.mp hrow
  · rw [if_pos hk]
    exact List.mem_cons_self
  · have hbelow := path_mem_stepPaths children hrow hk
    split_ifs
    · exact List.mem_cons_of_mem _ hbelow
    · exact hbelow

theorem path_mem_stepPaths (nodes : List ProgressNode) (hrow : row ∈ rows nodes)
    (hk : row.kind = .outline .step) : row.path ∈ stepPaths nodes := by
  match nodes with
  | [] => cases hrow
  | node :: rest =>
    rw [stepPaths, List.mem_append]
    obtain hrow | hrow := List.mem_append.mp hrow
    · exact .inl (path_mem_stepPathsUnder node hrow hk)
    · exact .inr (path_mem_stepPaths rest hrow hk)

end

def Unheard (log : List RunEvent) (scope : NodePath) (node : WorkflowNode) : Prop :=
  ∀ event ∈ log, ∀ key, keyed event = some key → ¬ KeyIn scope node key

theorem keyed_of_closes {event : RunEvent} {key : NodePath} (h : closesKey event = some key) :
    keyed event = some key := by
  cases event with
  | nodeCompleted path output => exact h
  | foreachItemCompleted path index output =>
    obtain ⟨item, hs, rfl⟩ := Option.map_eq_some_iff.mp h
    exact congrArg some (splitItemPath_some hs).1.symm
  | _ => cases h

theorem rollup_of_todo {children : List ProgressNode} (h : ∀ child ∈ children, child.state = none) :
    rollup children = .untouched := by
  have hany : ∀ state, children.any (fun child => child.state = some state) = false := by
    intro state
    simp only [List.any_eq_false, decide_eq_true_eq]
    intro child hm
    rw [h child hm]
    simp
  unfold rollup
  simp only [hany, Bool.false_eq_true, if_false]
  split_ifs with hempty hsettled hsome
  · rfl
  · cases children with
    | nil => exact absurd rfl hempty
    | cons child rest =>
      have := List.all_eq_true.mp hsettled child List.mem_cons_self
      simp [h child List.mem_cons_self] at this
  · obtain ⟨child, hm, hstate⟩ := List.any_eq_true.mp hsome
    simp [h child hm] at hstate
  · rfl

theorem constructState_unheard {children : List ProgressNode} (hk : ∀ event ∈ log, keyed event ≠ some path)
    (hc : ∀ child ∈ children, child.state = none) :
    constructState (log.foldl Fold.next {}) path children = none := by
  have hopen : path ∉ (log.foldl Fold.next {}).closed := by
    rw [mem_closed]
    rintro ⟨event, hm, hcloses⟩
    exact hk event hm (keyed_of_closes hcloses)
  have hstats : Dict.get (log.foldl Fold.next {}).stats path = none := by
    rw [← Option.not_isSome_iff_eq_none]
    intro hsome
    obtain ⟨event, hm, hkeyed⟩ := keyed_of_stats hsome
    exact hk event hm hkeyed
  rw [constructState, if_neg hopen, rollup_of_todo hc]
  simp [hstats]

theorem Unheard.own {node : WorkflowNode} (h : Unheard log scope node) :
    ∀ event ∈ log, keyed event ≠ some (appendSegment scope (nodeName node)) :=
  fun event hm hk => h event hm _ hk .own

theorem Unheard.inside {inner : NodePath} {node child : WorkflowNode} {body : List WorkflowNode}
    (h : Unheard log scope node) (hc : Child scope node inner body) (hm : child ∈ body) :
    Unheard log inner child :=
  fun event he key hk hin => h event he key hk (.inside hc hm hin)

mutual

theorem todo_node (scope : NodePath) (node : WorkflowNode) (h : Unheard log scope node) :
    (projectedNode (deriveStepStates log) (log.foldl Fold.next {}) false scope node).state = none := by
  cases node with
  | step step => exact state_of_unkeyed h.own
  | branch name arms =>
    refine constructState_unheard h.own (todo_arms scope arms ?_ ?_)
    · intro arm ha event hm hk
      exact h event hm _ hk (.arm ha)
    · intro arm ha child hc
      exact h.inside (.arm ha) hc
  | loop name mode body condition maxIterations =>
    exact constructState_unheard h.own (todo_nodes _ body (fun child hc => h.inside .loop hc))
  | «foreach» name body selector concurrency feedback =>
    have hitems : (log.foldl Fold.next {}).items (appendSegment scope name) = [] := by
      rw [List.eq_nil_iff_forall_not_mem]
      intro index hm
      obtain ⟨event, he, hk⟩ := keyed_of_seen (mem_items.mp hm)
      exact h event he _ hk (.item index)
    refine constructState_unheard h.own ?_
    simp only [outlineNode]
    rw [hitems]
    simp
  | parallel name arms =>
    refine constructState_unheard h.own ?_
    intro child hm
    obtain ⟨arm, ha, rfl⟩ := List.mem_map.mp hm
    exact state_of_unkeyed (fun event he hk => h event he _ hk (.armStep ha))
  | workflow name nodes =>
    exact constructState_unheard h.own (todo_nodes _ nodes (fun child hc => h.inside .workflow hc))

theorem todo_nodes (scope : NodePath) (nodes : List WorkflowNode) (h : ∀ node ∈ nodes, Unheard log scope node) :
    ∀ child ∈ projectedNodes (deriveStepStates log) (log.foldl Fold.next {}) false scope nodes,
      child.state = none := by
  match nodes with
  | [] => simp [projectedNodes]
  | node :: rest =>
    rw [projectedNodes, List.forall_mem_cons]
    rw [List.forall_mem_cons] at h
    exact ⟨todo_node scope node h.1, todo_nodes scope rest h.2⟩

theorem todo_arms (scope : NodePath) (arms : List BranchArm)
    (ha : ∀ arm ∈ arms, ∀ event ∈ log, keyed event ≠ some (appendSegment scope arm.name))
    (h : ∀ arm ∈ arms, ∀ child ∈ arm.body, Unheard log (appendSegment scope arm.name) child) :
    ∀ child ∈ projectedArms (deriveStepStates log) (log.foldl Fold.next {}) false scope arms,
      child.state = none := by
  match arms with
  | [] => simp [projectedArms]
  | .mk name condition body :: rest =>
    rw [projectedArms, List.forall_mem_cons]
    rw [List.forall_mem_cons] at ha h
    refine ⟨?_, todo_arms scope rest ha.2 h.2⟩
    exact state_of_unkeyed ha.1

end

end KimchiWorkflows.Progress
