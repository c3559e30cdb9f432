import KimchiWorkflows.Progress.RowStates

/-!
What an orderly log is projected to: no construct is shown completed before its own checkpoint, and what
is at work or waits inside one is shown.
-/

namespace KimchiWorkflows.Progress

open KimchiWorkflows.Flow KimchiWorkflows.Engine

variable {nodes : List WorkflowNode} {log : List RunEvent} {skipped : Bool} {scope path : NodePath}
  {row : ProgressNode} {children : List ProgressNode}

/-- What the steps below a construct may be, the construct being run under its path. -/
def RunsBelow (nodes : List WorkflowNode) (log : List RunEvent) (skipped : Bool) (path : NodePath)
    (inside : List ProgressNode) : Prop :=
  ∀ row ∈ inside, Told (deriveStepStates log) skipped row ∧ (row.kind = .outline .step → Held nodes path row.path)

theorem open_of_told {state : StepState} (ht : Told (deriveStepStates log) skipped row)
    (hk : row.kind = .outline .step) (hs : row.state = some state) (hopen : state.isOpen = true) :
    Open log row.path := by
  obtain h | h := ht.2 hk
  · rw [Open, ← h, hs]
    exact hopen
  · rw [hs] at h
    cases h
    cases hopen

theorem atRest_of_skipped (h : ∀ row ∈ children, Told (deriveStepStates log) true row) : AtRest children := by
  intro row hrow hkind
  rw [(h row hrow).1 rfl]
  simp

theorem atRest_of_closed (h : InOrder nodes log) (hb : RunsBelow nodes log skipped path children)
    (hc : Closed log path) : AtRest children := by
  intro row hrow hkind
  obtain ⟨ht, hheld⟩ := hb row hrow
  constructor
  · intro hs
    exact h.quiet path row.path (hheld hkind) hc (open_of_told ht hkind hs rfl)
  · intro hs
    exact h.quiet path row.path (hheld hkind) hc (open_of_told ht hkind hs rfl)

/-- A construct in an orderly log, given that its children show what is below them. -/
theorem faithful_construct (h : InOrder nodes log)
    (hstate : row.state = if skipped then some .skipped
      else constructState (log.foldl Fold.next {}) row.path row.children)
    (hb : RunsBelow nodes log skipped row.path (rows row.children))
    (hc : ∀ child ∈ row.children, Shows child.state (rowsUnder child))
    (hend : RunFinished log → Closed log row.path ∨ (skipped = false → row.state = none))
    (hcount : ∀ counter, row.foreachCounter = some counter →
      counter.done = ((log.foldl Fold.next {}).done row.path).length) : Faithful log row := by
  refine ⟨?_, ?_, ?_⟩
  · intro _ hcompleted
    cases skipped with
    | true =>
      rw [hcompleted] at hstate
      cases hstate
    | false =>
      apply h.last
      have hconstruct := hstate
      rw [hcompleted] at hconstruct
      obtain hclosed | hrun := constructState_completed hconstruct.symm
      · exact mem_closed.mp hclosed
      · rw [runTerminal_foldl] at hrun
        have hfinished : RunFinished log := by
          cases hl : Registers.lastSaid endsRun log with
          | none =>
            rw [hl] at hrun
            cases hrun
          | some said =>
            rw [hl] at hrun
            exact hl.trans (congrArg some hrun)
        refine (hend hfinished).resolve_right ?_
        intro htodo
        rw [hcompleted] at htodo
        cases htodo rfl
  · intro _
    cases skipped with
    | true => exact (atRest_of_skipped (fun row hrow => (hb row hrow).1)).shows
    | false =>
      by_cases hclosed : row.path ∈ (log.foldl Fold.next {}).closed
      · exact (atRest_of_closed h hb (mem_closed.mp hclosed)).shows
      · rw [hstate]
        exact shows_constructState hc hclosed
  · intro counter hcounter
    rw [hcount counter hcounter, h.done]

theorem shows_arm {outline : OutlineNode} (h : InOrder nodes log) (hk : outline.kind = .branchArm)
    (hheld : ∀ row ∈ rows children, Told (deriveStepStates log) skipped row ∧
      (row.kind = .outline .step → HeldByArm nodes outline.path row.path)) :
    Shows (projectPlain (log.foldl Fold.next {}) (ownState (deriveStepStates log) skipped outline) outline
      children).state (rows children) := by
  cases skipped with
  | true => exact (atRest_of_skipped (fun row hrow => (hheld row hrow).1)).shows
  | false =>
    have hstate : (projectPlain (log.foldl Fold.next {}) (ownState (deriveStepStates log) false outline) outline
        children).state = Dict.get (deriveStepStates log) outline.path := by
      simp [projectPlain, ownState, hk]
    intro row hrow hkind
    obtain ⟨ht, hin⟩ := hheld row hrow
    rw [hstate]
    constructor
    · intro hs
      exact h.armed _ _ (hin hkind) (open_of_told ht hkind hs rfl)
    · intro hs
      exact .inl (h.armed _ _ (hin hkind) (open_of_told ht hkind hs rfl))

/-- Every row under a projection is faithful, and its top shows what is below. -/
def Honest (log : List RunEvent) (node : ProgressNode) : Prop :=
  (∀ row ∈ rowsUnder node, Faithful log row) ∧ Shows node.state (rowsUnder node)

theorem honest_construct {node : ProgressNode} (hk : node.kind.isConstruct) (hf : Faithful log node)
    (hb : ∀ child ∈ node.children, Honest log child) : Honest log node := by
  constructor
  · intro row hrow
    obtain rfl | hrow := mem_rowsUnder.mp hrow
    · exact hf
    · obtain ⟨child, hm, hrow⟩ := mem_rows.mp hrow
      exact (hb child hm).1 row hrow
  · exact Shows.self (fun hs => absurd hs hk.1) (fun _ => hf.shows hk)

theorem honest_other {node : ProgressNode} (hk : ¬ node.kind.isConstruct) (hn : node.foreachCounter = none)
    (hs : Shows node.state (rowsUnder node)) (hb : ∀ child ∈ node.children, Honest log child) :
    Honest log node := by
  refine ⟨?_, hs⟩
  intro row hrow
  obtain rfl | hrow := mem_rowsUnder.mp hrow
  · refine ⟨fun hc => absurd hc hk, fun hc => absurd hc hk, ?_⟩
    intro counter hcounter
    rw [hn] at hcounter
    cases hcounter
  · obtain ⟨child, hm, hrow⟩ := mem_rows.mp hrow
    exact (hb child hm).1 row hrow

theorem honest_step (step : StepDefinition) :
    Honest log (projectPlain (log.foldl Fold.next {}) (ownState (deriveStepStates log) skipped (stepNode step scope))
      (stepNode step scope) []) := by
  refine honest_other (fun hc => hc.1 rfl) rfl (Shows.self (fun _ => rfl) (fun hs => absurd rfl hs)) ?_
  intro child hm
  cases hm

theorem runsBelow_nodes {body : List WorkflowNode} {inner : NodePath}
    (hr : ∀ child ∈ body, ∀ key step, RunsAt inner child key step → Held nodes path key) :
    RunsBelow nodes log skipped path
      (rows (projectedNodes (deriveStepStates log) (log.foldl Fold.next {}) skipped inner body)) := by
  intro row hrow
  refine ⟨told_nodes skipped inner body row hrow, ?_⟩
  intro hk
  obtain ⟨⟨child, hm, step, hruns⟩, -⟩ := mem_stepPaths skipped inner body |>.mp (path_mem_stepPaths _ hrow hk)
  exact hr child hm _ step hruns

section Plain

variable {outline : OutlineNode}

theorem state_construct (hs : outline.kind ≠ .step) (ha : outline.kind ≠ .branchArm) :
    (projectPlain (log.foldl Fold.next {}) (ownState (deriveStepStates log) skipped outline) outline
      children).state = if skipped then some .skipped
        else constructState (log.foldl Fold.next {}) outline.path children := by
  cases skipped <;> simp [projectPlain, ownState, hs, ha]

theorem honest_plain (h : InOrder nodes log) {node : WorkflowNode} (hocc : OccursAt nodes scope node)
    (hnode : ∀ step, node ≠ .step step) (hs : outline.kind ≠ .step) (ha : outline.kind ≠ .branchArm)
    (hpath : outline.path = appendSegment scope (nodeName node))
    (hself : projectedNode (deriveStepStates log) (log.foldl Fold.next {}) skipped scope node =
      projectPlain (log.foldl Fold.next {}) (ownState (deriveStepStates log) skipped outline) outline children)
    (hb : ∀ child ∈ children, Honest log child) :
    Honest log (projectedNode (deriveStepStates log) (log.foldl Fold.next {}) skipped scope node) := by
  have hbelow : RunsBelow nodes log skipped outline.path (rows children) := by
    intro row hrow
    have hunder : row ∈ rowsUnder (projectedNode (deriveStepStates log) (log.foldl Fold.next {}) skipped scope
        node) := by
      rw [hself]
      exact mem_rowsUnder.mpr (.inr hrow)
    refine ⟨told_node skipped scope node row hunder, ?_⟩
    intro hk
    obtain ⟨⟨step, hruns⟩, -⟩ := (mem_stepPathsUnder skipped scope node).mp (path_mem_stepPathsUnder _ hunder hk)
    rw [hpath]
    exact .construct hocc hnode hruns
  have hend : RunFinished log → Closed log outline.path ∨ (skipped = false →
      (projectPlain (log.foldl Fold.next {}) (ownState (deriveStepStates log) skipped outline) outline
        children).state = none) := by
    intro hfinished
    rw [hpath]
    refine ((h.finished hfinished).construct scope node hocc hnode).imp_right ?_
    rintro hunheard rfl
    rw [← hself]
    exact todo_node scope node hunheard
  rw [hself]
  refine honest_construct ⟨?_, ?_⟩ (faithful_construct h (state_construct hs ha) hbelow (fun child hm =>
    (hb child hm).2) hend ?_) hb
  · intro heq
    exact hs (ProgressKind.outline.inj heq)
  · intro heq
    exact ha (ProgressKind.outline.inj heq)
  · intro counter hcounter
    cases hcounter

end Plain

theorem honest_item (h : InOrder nodes log) {name : String} {body : List WorkflowNode}
    {selector : RunContext → Except String Value} {concurrency : Nat} {feedback : Bool} {index : Nat}
    (hocc : OccursAt nodes scope (.foreach name body selector concurrency feedback))
    (hseen : index ∈ (log.foldl Fold.next {}).seen (appendSegment scope name))
    (hb : ∀ child ∈ projectedNodes (deriveStepStates log) (log.foldl Fold.next {}) skipped
      (itemScope scope name index) body, Honest log child) :
    Honest log (projectForeachItem (log.foldl Fold.next {}) skipped (itemScope scope name index)
      (projectedNodes (deriveStepStates log) (log.foldl Fold.next {}) skipped (itemScope scope name index) body)) := by
  have hbelow : RunsBelow nodes log skipped (itemScope scope name index)
      (rows (projectedNodes (deriveStepStates log) (log.foldl Fold.next {}) skipped (itemScope scope name index)
        body)) :=
    runsBelow_nodes (fun child hm key step hr => .item index hocc hm hr)
  have hend : RunFinished log → Closed log (itemScope scope name index) := by
    intro hfinished
    refine ((h.finished hfinished).item scope name body selector concurrency feedback index hocc).resolve_right ?_
    intro hunheard
    obtain ⟨event, hm, hk⟩ := keyed_of_seen hseen
    exact hunheard event hm hk
  refine honest_construct ⟨by simp [projectForeachItem], by simp [projectForeachItem]⟩
    (faithful_construct h rfl hbelow (fun child hm => (hb child hm).2) (fun hf => .inl (hend hf)) ?_) hb
  intro counter hcounter
  cases hcounter

theorem honest_foreach (h : InOrder nodes log) {name : String} {body : List WorkflowNode}
    {selector : RunContext → Except String Value} {concurrency : Nat} {feedback : Bool}
    (hocc : OccursAt nodes scope (.foreach name body selector concurrency feedback))
    (hb : ∀ index, ∀ child ∈ projectedNodes (deriveStepStates log) (log.foldl Fold.next {}) skipped
      (itemScope scope name index) body, Honest log child) :
    Honest log (projectedNode (deriveStepStates log) (log.foldl Fold.next {}) skipped scope
      (.foreach name body selector concurrency feedback)) := by
  have hitems : ∀ item ∈ ((log.foldl Fold.next {}).items (appendSegment scope name)).map (fun index =>
      projectForeachItem (log.foldl Fold.next {}) skipped (itemScope scope name index)
        (projectedNodes (deriveStepStates log) (log.foldl Fold.next {}) skipped (itemScope scope name index)
          body)), Honest log item := by
    intro item hm
    obtain ⟨index, hi, rfl⟩ := List.mem_map.mp hm
    exact honest_item h hocc (mem_items.mp hi) (hb index)
  have hbelow : RunsBelow nodes log skipped (appendSegment scope name) (rows
      (projectedNode (deriveStepStates log) (log.foldl Fold.next {}) skipped scope
        (.foreach name body selector concurrency feedback)).children) := by
    intro row hrow
    have hunder := mem_rowsUnder.mpr (Or.inr hrow)
    refine ⟨told_node skipped scope _ row hunder, ?_⟩
    intro hk
    obtain ⟨⟨step, hruns⟩, -⟩ := (mem_stepPathsUnder skipped scope _).mp (path_mem_stepPathsUnder _ hunder hk)
    exact .construct hocc (by simp) hruns
  refine honest_construct ⟨by simp [projectedNode, projectForeach], by simp [projectedNode, projectForeach]⟩
    (faithful_construct h rfl hbelow (fun child hm => (hitems child hm).2) ?_ ?_) hitems
  · intro hfinished
    refine ((h.finished hfinished).construct scope _ hocc (by simp)).imp_right ?_
    rintro hunheard rfl
    exact todo_node scope _ hunheard
  · intro counter hcounter
    obtain ⟨count, -, rfl⟩ := Option.map_eq_some_iff.mp hcounter
    rfl

mutual

theorem honest_node (h : InOrder nodes log) (skipped : Bool) (scope : NodePath) (node : WorkflowNode)
    (hocc : OccursAt nodes scope node) :
    Honest log (projectedNode (deriveStepStates log) (log.foldl Fold.next {}) skipped scope node) := by
  cases node with
  | step step => exact honest_step step
  | branch name arms =>
    refine honest_plain h hocc (by simp) (by simp [outlineNode]) (by simp [outlineNode]) rfl rfl
      (honest_arms h skipped scope arms ?_)
    intro arm hm
    exact ⟨name, arms, hocc, hm⟩
  | loop name mode body condition maxIterations =>
    exact honest_plain h hocc (by simp) (by simp [outlineNode]) (by simp [outlineNode]) rfl rfl
      (honest_nodes h skipped _ body (fun child hm => .inside hocc .loop hm))
  | «foreach» name body selector concurrency feedback =>
    exact honest_foreach h hocc (fun index => honest_nodes h skipped _ body
      (fun child hm => .inside hocc (.item index) hm))
  | parallel name arms =>
    refine honest_plain h hocc (by simp) (by simp [outlineNode]) (by simp [outlineNode]) rfl rfl ?_
    intro child hm
    obtain ⟨arm, -, rfl⟩ := List.mem_map.mp hm
    exact honest_step arm
  | workflow name nodes =>
    exact honest_plain h hocc (by simp) (by simp [outlineNode]) (by simp [outlineNode]) rfl rfl
      (honest_nodes h skipped _ nodes (fun child hm => .inside hocc .workflow hm))

theorem honest_nodes (h : InOrder nodes log) (skipped : Bool) (scope : NodePath) (body : List WorkflowNode)
    (hocc : ∀ node ∈ body, OccursAt nodes scope node) :
    ∀ child ∈ projectedNodes (deriveStepStates log) (log.foldl Fold.next {}) skipped scope body,
      Honest log child := by
  match body with
  | [] => simp [projectedNodes]
  | node :: rest =>
    rw [projectedNodes, List.forall_mem_cons]
    rw [List.forall_mem_cons] at hocc
    exact ⟨honest_node h skipped scope node hocc.1, honest_nodes h skipped scope rest hocc.2⟩

theorem honest_arms (h : InOrder nodes log) (skipped : Bool) (scope : NodePath) (arms : List BranchArm)
    (hocc : ∀ arm ∈ arms, ∃ name all, OccursAt nodes scope (.branch name all) ∧ arm ∈ all) :
    ∀ child ∈ projectedArms (deriveStepStates log) (log.foldl Fold.next {}) skipped scope arms,
      Honest log child := by
  match arms with
  | [] => simp [projectedArms]
  | .mk name condition body :: rest =>
    rw [projectedArms, List.forall_mem_cons]
    rw [List.forall_mem_cons] at hocc
    obtain ⟨branch, all, hbranch, hm⟩ := hocc.1
    have hbody := honest_nodes h (skipped || decide (ownState (deriveStepStates log) skipped
      { kind := .branchArm, path := appendSegment scope name
        children := outlineNodes (appendSegment scope name) body } = some (some .skipped)))
      (appendSegment scope name) body (fun child hc => .inside hbranch (.arm hm) hc)
    refine ⟨honest_other (fun hc => hc.2 rfl) rfl (Shows.self (fun hs => nomatch hs) (fun _ => ?_)) hbody,
      honest_arms h skipped scope rest hocc.2⟩
    refine shows_arm h rfl ?_
    intro row hrow
    refine ⟨(told_nodes _ _ body row hrow).weaken, ?_⟩
    intro hk
    obtain ⟨⟨child, hc, step, hruns⟩, -⟩ := (mem_stepPaths _ _ body).mp (path_mem_stepPaths _ hrow hk)
    exact .arm hbranch hm hc hruns

end

end KimchiWorkflows.Progress
