import Mathlib.Data.List.Basic
import KimchiWorkflows.Progress.Projection

/-!
Collapse: the projected tree flattened into the rows worth drawing, with the guides of each.
-/

namespace KimchiWorkflows.Progress

open KimchiWorkflows.Flow KimchiWorkflows.Engine

structure ProgressRow where
  node : ProgressNode
  depth : Nat
  guides : List Bool
  collapsed : Bool
  expanded : Bool

def constructs : List ProgressKind :=
  [.outline .branch, .outline .branchArm, .outline .loop, .outline .foreach, .foreachItem, .outline .parallel,
    .outline .workflow]

def isInlined (node : ProgressNode) : Bool :=
  node.kind = .foreachItem && node.children.length = 1 &&
    node.children.head?.any (fun child => child.kind = .outline .step)

def isCollapsed (node : ProgressNode) : Bool :=
  !isInlined node && decide (node.kind ∈ constructs) && decide (0 < node.children.length) &&
    decide (node.state = some .completed)

def isExpanded (node : ProgressNode) : Bool :=
  !isInlined node && decide (0 < node.children.length) && decide (node.state ≠ none) &&
    decide (node.state ≠ some .skipped)

def rowOf (guides : List Bool) (depth : Nat) (node : ProgressNode) : ProgressRow where
  node := node
  depth := depth
  guides := guides
  collapsed := isCollapsed node
  expanded := !isCollapsed node && isExpanded node

/-- The top level draws no connector; every deeper one adds its own. -/
def ownGuides (parentGuides : List Bool) (depth : Nat) (hasNextSibling : Bool) : List Bool :=
  if depth = 0 then [] else parentGuides ++ [hasNextSibling]

mutual

def emitNode (parentGuides : List Bool) (depth : Nat) (hasNextSibling : Bool) : ProgressNode → List ProgressRow
  | ⟨kind, path, state, children, tokens, foreachCounter, perItemSteps, pendingItems⟩ =>
    let guides := ownGuides parentGuides depth hasNextSibling
    let row := rowOf guides depth ⟨kind, path, state, children, tokens, foreachCounter, perItemSteps, pendingItems⟩
    row :: if row.expanded then emit guides (depth + 1) children else []

def emit (parentGuides : List Bool) (depth : Nat) : List ProgressNode → List ProgressRow
  | [] => []
  | node :: rest => emitNode parentGuides depth (!rest.isEmpty) node ++ emit parentGuides depth rest

end

def collapse (view : ProgressView) : List ProgressRow := emit [] 0 view.nodes

/-- A row of this depth follows before any row of less depth. -/
def Continues (rest : List ProgressRow) (depth : Nat) : Prop :=
  (rest.find? (fun row => row.depth ≤ depth)).map ProgressRow.depth = some depth

instance (rest : List ProgressRow) (depth : Nat) : Decidable (Continues rest depth) :=
  inferInstanceAs (Decidable (_ = _))

/-- A row fits those after it: its guides continue exactly where a later row takes them up, it is marked expanded
exactly if a row one level deeper follows, which is that of its first child, and nothing deeper does. -/
structure Fitted (after : List ProgressRow) (row : ProgressRow) : Prop where
  guides : row.guides = (List.range row.depth).map (fun level => decide (Continues after (level + 1)))
  expanded : row.expanded = true ↔ ∃ next, after.head? = some next ∧ next.depth = row.depth + 1
  child : row.expanded = true → ∃ next, after.head? = some next ∧ row.node.children.head? = some next.node
  deeper : ∀ next, after.head? = some next → next.depth ≤ row.depth + 1

/-- Every row fits those after it, up to the end of a list that goes on. -/
def AllFitted (after : List ProgressRow) : List ProgressRow → Prop
  | [] => True
  | row :: rest => Fitted (rest ++ after) row ∧ AllFitted after rest

variable {guides : List Bool} {depth level : Nat} {node : ProgressNode} {nodes : List ProgressNode}
  {first after : List ProgressRow} {row : ProgressRow} {view : ProgressView}

theorem emitNode_eq (guides : List Bool) (depth : Nat) (hasNextSibling : Bool) (node : ProgressNode) :
    emitNode guides depth hasNextSibling node =
      rowOf (ownGuides guides depth hasNextSibling) depth node ::
        if !isCollapsed node && isExpanded node then
          emit (ownGuides guides depth hasNextSibling) (depth + 1) node.children
        else [] := by
  obtain ⟨kind, path, state, children, tokens, counter, perItemSteps, pendingItems⟩ := node
  rw [emitNode]
  rfl

theorem allFitted_append (first second : List ProgressRow) :
    AllFitted after (first ++ second) ↔ AllFitted (second ++ after) first ∧ AllFitted after second := by
  induction first with
  | nil => simp [AllFitted]
  | cons row rest ih => rw [List.cons_append, AllFitted, AllFitted, ih, List.append_assoc, and_assoc]

theorem continues_append (h : ∀ row ∈ first, level < row.depth) :
    Continues (first ++ after) level ↔ Continues after level := by
  have hnone : first.find? (fun row => row.depth ≤ level) = none := by
    apply List.find?_eq_none.mpr
    intro row hm
    have := h row hm
    simp
    omega
  rw [Continues, Continues, List.find?_append, hnone, Option.none_or]

theorem continues_cons (h : row.depth = level) : Continues (row :: after) level := by
  rw [Continues, List.find?_cons_of_pos (by simp [h]), Option.map_some, h]

theorem not_continues (h : ∀ next, after.head? = some next → next.depth < level) : ¬Continues after level := by
  cases after with
  | nil => simp [Continues]
  | cons next rest =>
    have hn := h next rfl
    rw [Continues, List.find?_cons_of_pos (by simp; omega), Option.map_some, Option.some.injEq]
    omega

mutual

theorem le_depth_emitNode (guides : List Bool) (depth : Nat) (hasNextSibling : Bool) (node : ProgressNode) :
    ∀ row ∈ emitNode guides depth hasNextSibling node, depth ≤ row.depth := by
  match node with
  | ⟨kind, path, state, children, tokens, counter, perItemSteps, pendingItems⟩ =>
    intro row hm
    rw [emitNode, List.mem_cons] at hm
    obtain rfl | hm := hm
    · exact Nat.le_refl depth
    · split_ifs at hm
      · have := le_depth_emit _ (depth + 1) children row hm
        omega
      · cases hm

theorem le_depth_emit (guides : List Bool) (depth : Nat) (nodes : List ProgressNode) :
    ∀ row ∈ emit guides depth nodes, depth ≤ row.depth := by
  match nodes with
  | [] => simp [emit]
  | node :: rest =>
    intro row hm
    rw [emit, List.mem_append] at hm
    obtain hm | hm := hm
    · exact le_depth_emitNode guides depth _ node row hm
    · exact le_depth_emit guides depth rest row hm

end

theorem emit_cons (guides : List Bool) (depth : Nat) (node : ProgressNode) (rest : List ProgressNode) :
    ∃ row below, emit guides depth (node :: rest) = row :: below ∧ row.depth = depth ∧ row.node = node := by
  rw [emit, emitNode_eq]
  exact ⟨_, _, rfl, rfl, rfl⟩

def GuidesOf (after : List ProgressRow) (depth : Nat) : List Bool :=
  (List.range depth).map (fun level => decide (Continues after (level + 1)))

theorem guidesOf_append (h : ∀ row ∈ first, depth < row.depth) :
    GuidesOf (first ++ after) depth = GuidesOf after depth := by
  refine List.map_congr_left ?_
  intro level hl
  rw [List.mem_range] at hl
  refine decide_eq_decide.mpr (continues_append ?_)
  intro row hm
  have := h row hm
  omega

theorem guidesOf_succ (after : List ProgressRow) (depth : Nat) :
    GuidesOf after (depth + 1) = GuidesOf after depth ++ [decide (Continues after (depth + 1))] := by
  rw [GuidesOf, List.range_succ, List.map_append, GuidesOf]
  rfl

theorem isExpanded_children (h : isExpanded node = true) : node.children ≠ [] := by
  simp only [isExpanded, Bool.and_eq_true, decide_eq_true_eq] at h
  exact List.ne_nil_of_length_pos h.1.1.2

theorem fitted_leaf (he : ¬(!isCollapsed node && isExpanded node) = true)
    (ha : ∀ next, after.head? = some next → next.depth ≤ depth) :
    Fitted after (rowOf (GuidesOf after depth) depth node) := by
  refine ⟨rfl, ?_, fun h => absurd h he, ?_⟩
  · constructor
    · intro h
      exact absurd h he
    · rintro ⟨next, hn, hd⟩
      have hle := ha next hn
      simp only [rowOf] at hd
      omega
  · intro next hn
    have hle := ha next hn
    simp only [rowOf]
    omega

theorem fitted_parent (he : (!isCollapsed node && isExpanded node) = true) :
    Fitted (emit (GuidesOf after depth) (depth + 1) node.children ++ after) (rowOf (GuidesOf after depth) depth node) := by
  have hne : node.children ≠ [] := isExpanded_children (Bool.and_eq_true_iff.mp he).2
  obtain ⟨child, rest, hchildren⟩ := List.exists_cons_of_ne_nil hne
  obtain ⟨row, below, hrow, hd, hnode⟩ := emit_cons (GuidesOf after depth) (depth + 1) child rest
  have hhead : (emit (GuidesOf after depth) (depth + 1) node.children ++ after).head? = some row := by
    rw [hchildren, hrow]
    rfl
  refine ⟨?_, ?_, ?_, ?_⟩
  · symm
    exact guidesOf_append (fun row hm => le_depth_emit _ (depth + 1) _ row hm)
  · constructor
    · intro _
      exact ⟨row, hhead, hd⟩
    · intro _
      exact he
  · intro _
    refine ⟨row, hhead, ?_⟩
    rw [hnode]
    exact congrArg List.head? hchildren
  · intro next hn
    rw [hhead] at hn
    cases hn
    exact Nat.le_of_eq hd

mutual

theorem allFitted_emitNode (guides : List Bool) (depth : Nat) (hasNextSibling : Bool) (node : ProgressNode)
    (after : List ProgressRow) (hg : guides = GuidesOf after (depth - 1))
    (hs : 0 < depth → hasNextSibling = decide (Continues after depth))
    (ha : ∀ next, after.head? = some next → next.depth ≤ depth) :
    AllFitted after (emitNode guides depth hasNextSibling node) := by
  match node with
  | ⟨kind, path, state, children, tokens, counter, perItemSteps, pendingItems⟩ =>
    have hown : ownGuides guides depth hasNextSibling = GuidesOf after depth := by
      unfold ownGuides
      split_ifs with h0
      · rw [h0]
        rfl
      · obtain ⟨d, rfl⟩ := Nat.exists_eq_succ_of_ne_zero h0
        rw [hg, hs (Nat.succ_pos d), guidesOf_succ]
        rfl
    rw [emitNode_eq, hown]
    split_ifs with he
    · refine ⟨fitted_parent he, ?_⟩
      exact allFitted_emit _ (depth + 1) children after rfl (fun next hn => Nat.lt_succ_of_le (ha next hn))
    · exact ⟨fitted_leaf he ha, trivial⟩

theorem allFitted_emit (guides : List Bool) (depth : Nat) (nodes : List ProgressNode) (after : List ProgressRow)
    (hg : guides = GuidesOf after (depth - 1)) (ha : ∀ next, after.head? = some next → next.depth < depth) :
    AllFitted after (emit guides depth nodes) := by
  match nodes with
  | [] => exact trivial
  | node :: rest =>
    rw [emit, allFitted_append]
    refine ⟨?_, allFitted_emit guides depth rest after hg ha⟩
    refine allFitted_emitNode guides depth _ node _ ?_ ?_ ?_
    · refine hg.trans ?_
      cases depth with
      | zero => rfl
      | succ d => exact (guidesOf_append (fun row hm => le_depth_emit guides (d + 1) rest row hm)).symm
    · intro _
      cases rest with
      | nil => exact (decide_eq_false (not_continues ha)).symm
      | cons sibling others =>
        obtain ⟨row, below, hrow, hd, -⟩ := emit_cons guides depth sibling others
        rw [hrow]
        exact (decide_eq_true (continues_cons hd)).symm
    · intro next hn
      cases rest with
      | nil => exact Nat.le_of_lt (ha next hn)
      | cons sibling others =>
        obtain ⟨row, below, hrow, hd, -⟩ := emit_cons guides depth sibling others
        rw [hrow] at hn
        cases hn
        exact Nat.le_of_eq hd

end

theorem AllFitted.fitted {drawn before : List ProgressRow} (h : AllFitted [] drawn)
    (heq : drawn = before ++ row :: after) : Fitted after row := by
  rw [heq, allFitted_append] at h
  simpa using h.2.1

end KimchiWorkflows.Progress
