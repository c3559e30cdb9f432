import KimchiWorkflows.Progress.Orderly
import KimchiWorkflows.Progress.Template

/-!
The rows of a projection, what a row says of the steps below it, and the roll-up of a construct.
-/

namespace KimchiWorkflows.Progress

open KimchiWorkflows.Flow KimchiWorkflows.Engine

mutual

def rowsUnder : ProgressNode → List ProgressNode
  | ⟨kind, path, state, children, tokens, foreachCounter, perItemSteps, pendingItems⟩ =>
    ⟨kind, path, state, children, tokens, foreachCounter, perItemSteps, pendingItems⟩ :: rows children

def rows : List ProgressNode → List ProgressNode
  | [] => []
  | node :: rest => rowsUnder node ++ rows rest

end

/-- A step at work or waiting among the rows is shown in the state. -/
def Shows (state : Option StepState) (inside : List ProgressNode) : Prop :=
  ∀ row ∈ inside, row.kind = .outline .step →
    (row.state = some .inProgress → state = some .inProgress) ∧
    (row.state = some .blocked → state = some .inProgress ∨ state = some .blocked)

def ProgressKind.isConstruct (kind : ProgressKind) : Prop :=
  kind ≠ .outline .step ∧ kind ≠ .outline .branchArm

structure Faithful (log : List RunEvent) (row : ProgressNode) : Prop where
  completed : row.kind.isConstruct → row.state = some .completed → ClosedLast log row.path
  shows : row.kind.isConstruct → Shows row.state (rows row.children)
  counted : ∀ counter, row.foreachCounter = some counter → counter.done = (doneSince log row.path).length

variable {log : List RunEvent} {fold : Fold} {path : NodePath} {children inside : List ProgressNode}
  {row node : ProgressNode} {state : Option StepState}

theorem rowsUnder_eq (node : ProgressNode) : rowsUnder node = node :: rows node.children := by
  obtain ⟨kind, path, state, children, tokens, counter, perItemSteps, pendingItems⟩ := node
  rw [rowsUnder]

theorem mem_rows {nodes : List ProgressNode} : row ∈ rows nodes ↔ ∃ node ∈ nodes, row ∈ rowsUnder node := by
  induction nodes with
  | nil => simp [rows]
  | cons node rest ih => rw [rows, List.mem_append, ih, List.exists_mem_cons_iff]

theorem mem_rowsUnder : row ∈ rowsUnder node ↔ row = node ∨ row ∈ rows node.children := by
  rw [rowsUnder_eq, List.mem_cons]

theorem rollup_of_working (h : ∃ child ∈ children, child.state = some .inProgress) :
    rollup children = .inProgress := by
  obtain ⟨child, hm, hstate⟩ := h
  have hne : children.isEmpty = false := by
    cases children with
    | nil => cases hm
    | cons => rfl
  rw [rollup, hne, if_neg (by simp), if_pos]
  exact List.any_eq_true.mpr ⟨child, hm, by simpa using hstate⟩

theorem rollup_of_blocked (h : ∃ child ∈ children, child.state = some .blocked) :
    rollup children = .inProgress ∨ rollup children = .blocked := by
  obtain ⟨child, hm, hstate⟩ := h
  have hne : children.isEmpty = false := by
    cases children with
    | nil => cases hm
    | cons => rfl
  rw [rollup, hne, if_neg (by simp)]
  split_ifs with hworking hblocked
  · exact .inl rfl
  · exact .inr rfl
  all_goals exact absurd (List.any_eq_true.mpr ⟨child, hm, by simpa using hstate⟩) hblocked

theorem constructState_of_open (hopen : path ∉ fold.closed)
    (h : rollup children = .inProgress ∨ rollup children = .blocked) :
    constructState fold path children = some (if rollup children = .inProgress then .inProgress else .blocked) := by
  rw [constructState, if_neg hopen]
  obtain h | h := h <;> simp [h]

theorem shows_constructState (hc : ∀ child ∈ children, Shows child.state (rowsUnder child))
    (hopen : path ∉ fold.closed) : Shows (constructState fold path children) (rows children) := by
  intro row hrow hkind
  obtain ⟨child, hm, hbelow⟩ := mem_rows.mp hrow
  obtain ⟨hworking, hblocked⟩ := hc child hm row hbelow hkind
  constructor
  · intro hstate
    have hroll := rollup_of_working ⟨child, hm, hworking hstate⟩
    rw [constructState_of_open hopen (.inl hroll), if_pos hroll]
  · intro hstate
    have hroll : rollup children = .inProgress ∨ rollup children = .blocked := by
      obtain hw | hb := hblocked hstate
      · exact .inl (rollup_of_working ⟨child, hm, hw⟩)
      · exact rollup_of_blocked ⟨child, hm, hb⟩
    rw [constructState_of_open hopen hroll]
    split_ifs
    · exact .inl rfl
    · exact .inr rfl

def AtRest (inside : List ProgressNode) : Prop :=
  ∀ row ∈ inside, row.kind = .outline .step → row.state ≠ some .inProgress ∧ row.state ≠ some .blocked

theorem AtRest.shows (h : AtRest inside) : Shows state inside := by
  intro row hrow hkind
  obtain ⟨hworking, hblocked⟩ := h row hrow hkind
  exact ⟨fun hw => absurd hw hworking, fun hb => absurd hb hblocked⟩

theorem Shows.self (hk : node.kind = .outline .step → rows node.children = [])
    (h : node.kind ≠ .outline .step → Shows node.state (rows node.children)) :
    Shows node.state (rowsUnder node) := by
  intro row hrow hkind
  obtain rfl | hrow := mem_rowsUnder.mp hrow
  · exact ⟨id, Or.inr⟩
  · by_cases hstep : node.kind = .outline .step
    · rw [hk hstep] at hrow
      cases hrow
    · exact h hstep row hrow hkind

theorem constructState_completed (h : constructState fold path children = some .completed) :
    path ∈ fold.closed ∨ fold.runTerminal = some .completed := by
  by_cases hc : path ∈ fold.closed
  · exact .inl hc
  · right
    rw [constructState, if_neg hc] at h
    split at h
    all_goals first | cases h | skip
    · cases ht : fold.runTerminal with
      | none =>
        rw [ht] at h
        cases h
      | some terminal =>
        rw [ht] at h
        exact h
    · split_ifs at h
      cases ht : fold.runTerminal with
      | none =>
        rw [ht] at h
        cases h
      | some terminal =>
        rw [ht] at h
        exact h

end KimchiWorkflows.Progress
