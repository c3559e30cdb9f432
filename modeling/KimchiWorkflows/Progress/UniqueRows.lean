import Mathlib.Data.List.Nodup
import KimchiWorkflows.Progress.StepRows

/-!
The items a fold has seen, and a path of a projection naming one step row.
-/

namespace KimchiWorkflows.Progress

open KimchiWorkflows.Flow KimchiWorkflows.Engine

def seesItem (foreachKey : NodePath) (event : RunEvent) : Option Nat :=
  match event with
  | .foreachItemStarted path _ => (splitItemPath path).bind at?
  | .foreachItemCompleted path _ _ => (splitItemPath path).bind at?
  | _ => none
where
  at? (item : ItemAddress) : Option Nat := if item.foreachKey = foreachKey then some item.index else none

def addSeen (seen : List Nat) (index : Nat) : List Nat := if index ∈ seen then seen else seen ++ [index]

variable {states : StepStates} {fold : Fold} {skipped : Bool} {scope path key : NodePath}

@[simp] theorem seen_statsFor (fold : Fold) (path : NodePath) (change : NodeStats → NodeStats) :
    (fold.statsFor path change).seen key = fold.seen key := rfl

@[simp] theorem seen_touch (fold : Fold) (path : NodePath) : (fold.touch path).seen key = fold.seen key := rfl

@[simp] theorem seen_settle (fold : Fold) (path : NodePath) : (fold.settle path).seen key = fold.seen key := rfl

theorem seen_seeItem (fold : Fold) (other : NodePath) (index : Nat) : (fold.seeItem other index).seen key =
    if other = key then addSeen (fold.seen key) index else fold.seen key := by
  by_cases h : other = key
  · subst h
    simp [Fold.seeItem, Fold.seen, addSeen]
  · simp [Fold.seeItem, Fold.seen, h, Dict.get_set, Ne.symm h]

theorem seen_next (fold : Fold) (event : RunEvent) :
    (fold.next event).seen key = (seesItem key event).elim (fold.seen key) (addSeen (fold.seen key)) := by
  cases event with
  | foreachItemStarted path index =>
    cases hs : splitItemPath path with
    | none => simp [Fold.next, seesItem, hs]
    | some item =>
      simp only [Fold.next, hs, seen_touch, seen_seeItem, seesItem, Option.bind_some, seesItem.at?]
      split_ifs <;> rfl
  | foreachItemCompleted path index output =>
    cases hs : splitItemPath path with
    | none => simp [Fold.next, seesItem, hs]
    | some item =>
      have hfinish : ∀ fold : Fold, (fold.finishItem item).seen key = fold.seen key := fun _ => rfl
      simp only [Fold.next, hs, hfinish, seen_touch, seen_seeItem, seesItem, Option.bind_some, seesItem.at?]
      split_ifs <;> rfl
  | _ => rfl

theorem mem_addSeen {seen : List Nat} {index i : Nat} : i ∈ addSeen seen index ↔ i ∈ seen ∨ i = index := by
  unfold addSeen
  split_ifs with h
  · constructor
    · exact Or.inl
    · rintro (hm | rfl)
      · exact hm
      · exact h
  · simp

theorem nodup_addSeen {seen : List Nat} (h : seen.Nodup) (index : Nat) : (addSeen seen index).Nodup := by
  unfold addSeen
  split_ifs with hm
  · exact h
  · exact List.nodup_append.mpr ⟨h, List.nodup_singleton _, fun a ha b hb => by
      rw [List.mem_singleton.mp hb]
      rintro rfl
      exact hm ha⟩

theorem mem_seen_foldl (fold : Fold) (events : List RunEvent) {i : Nat} :
    i ∈ (events.foldl Fold.next fold).seen key ↔
      i ∈ fold.seen key ∨ ∃ event ∈ events, seesItem key event = some i := by
  induction events generalizing fold with
  | nil => simp
  | cons event rest ih =>
    rw [List.foldl_cons, ih, seen_next, List.exists_mem_cons_iff, ← or_assoc]
    refine or_congr_left ?_
    cases seesItem key event with
    | none => simp
    | some index => simp only [Option.elim_some, mem_addSeen, Option.some.injEq, eq_comm]

theorem nodup_seen_foldl (fold : Fold) (h : (fold.seen key).Nodup) (events : List RunEvent) :
    ((events.foldl Fold.next fold).seen key).Nodup := by
  induction events generalizing fold with
  | nil => exact h
  | cons event rest ih =>
    apply ih
    rw [seen_next]
    cases seesItem key event with
    | none => exact h
    | some index => exact nodup_addSeen h index

theorem nodup_items (hs : ∀ key, (fold.seen key).Nodup) (key : NodePath) : (fold.items key).Nodup :=
  (List.mergeSort_perm _ _).nodup_iff.mpr (hs key)

theorem appendSegment_injective (parent : NodePath) : Function.Injective (appendSegment parent) := by
  intro a b h
  simpa [appendSegment] using h

mutual

theorem nodup_stepPathsUnder (hs : ∀ key, (fold.seen key).Nodup) (skipped : Bool) (scope : NodePath)
    (node : WorkflowNode) (hn : (scopeNames node).Nodup) (hu : scopesUniqueUnder node = true) :
    (stepPathsUnder (projectedNode states fold skipped scope node)).Nodup := by
  cases node with
  | step step =>
    rw [projectedNode, stepPathsUnder_step]
    exact List.nodup_singleton _
  | branch name arms =>
    rw [projectedNode, stepPathsUnder_plain _ _ (by simp [outlineNode])]
    exact nodup_stepPaths_arms hs skipped scope arms (List.nodup_cons.mp hn).2 hu
  | loop name mode body condition maxIterations =>
    rw [projectedNode, stepPathsUnder_plain _ _ (by simp [outlineNode])]
    exact nodup_stepPaths hs skipped _ body hu
  | «foreach» name body selector concurrency feedback =>
    rw [projectedNode, stepPathsUnder_foreach, stepPaths_items, List.nodup_flatMap]
    refine ⟨fun index _ => nodup_stepPaths hs skipped _ body hu, ?_⟩
    refine (nodup_items hs _).imp ?_
    intro i j hne p hi hj
    obtain ⟨⟨m, -, s, hr⟩, -⟩ := (mem_stepPaths _ _ _).mp hi
    obtain ⟨⟨n, -, t, hr'⟩, -⟩ := (mem_stepPaths _ _ _).mp hj
    have heq := eq_of_prefix_item hr.scope_le hr'.scope_le
    simp only [PathSegment.mk.injEq, true_and, Option.some.injEq, Prod.mk.injEq] at heq
    exact hne heq
  | parallel name arms =>
    rw [projectedNode, stepPathsUnder_plain _ _ (by simp [outlineNode]), stepPaths_parallel]
    have hnames : (arms.map StepDefinition.name).Nodup := of_decide_eq_true hu
    have hpaths := hnames.map (appendSegment_injective (outlineNode scope (.parallel name arms)).path)
    rwa [List.map_map] at hpaths
  | workflow name nodes =>
    rw [projectedNode, stepPathsUnder_plain _ _ (by simp [outlineNode])]
    exact nodup_stepPaths hs skipped _ nodes hu

theorem nodup_stepPaths (hs : ∀ key, (fold.seen key).Nodup) (skipped : Bool) (scope : NodePath)
    (nodes : List WorkflowNode) (hu : scopesUnique nodes = true) :
    (stepPaths (projectedNodes states fold skipped scope nodes)).Nodup := by
  match nodes with
  | [] => exact List.nodup_nil
  | node :: rest =>
    simp only [scopesUnique, scopesUniqueIn, Bool.and_eq_true, decide_eq_true_eq, List.flatMap_cons,
      List.nodup_append] at hu
    obtain ⟨⟨hnode, hrest, hdisjoint⟩, hunder, hin⟩ := hu
    rw [projectedNodes, stepPaths, List.nodup_append]
    refine ⟨nodup_stepPathsUnder hs skipped scope node hnode hunder,
      nodup_stepPaths hs skipped scope rest (by simp [scopesUnique, hrest, hin]), ?_⟩
    rintro p hp _ hq rfl
    obtain ⟨⟨s, hr⟩, -⟩ := (mem_stepPathsUnder _ _ _).mp hp
    obtain ⟨⟨other, ho, t, hr'⟩, -⟩ := (mem_stepPaths _ _ _).mp hq
    obtain ⟨a, ha, hname⟩ := hr.segment
    obtain ⟨b, hb, hname'⟩ := hr'.segment
    obtain rfl := eq_of_prefix_item ha hb
    exact hdisjoint _ hname _ (List.mem_flatMap.mpr ⟨other, ho, hname'⟩) rfl

theorem nodup_stepPaths_arms (hs : ∀ key, (fold.seen key).Nodup) (skipped : Bool) (scope : NodePath)
    (arms : List BranchArm) (hn : (arms.map BranchArm.name).Nodup) (hu : scopesUniqueInArms arms = true) :
    (stepPaths (projectedArms states fold skipped scope arms)).Nodup := by
  match arms with
  | [] => exact List.nodup_nil
  | .mk name condition body :: rest =>
    obtain ⟨hbody, hothers⟩ := (Bool.and_eq_true _ _).mp hu
    obtain ⟨hnew, hrest⟩ := List.nodup_cons.mp hn
    rw [projectedArms, stepPaths, stepPathsUnder_plain _ _ (by simp), List.nodup_append]
    refine ⟨nodup_stepPaths hs _ _ body hbody, nodup_stepPaths_arms hs skipped scope rest hrest hothers, ?_⟩
    rintro p hp _ hq rfl
    obtain ⟨⟨m, -, s, hr⟩, -⟩ := (mem_stepPaths _ _ _).mp hp
    obtain ⟨⟨arm, ha, n, -, t, hr'⟩, -⟩ := (mem_stepPaths_arms _ _ _).mp hq
    have heq := eq_of_prefix_item hr.scope_le hr'.scope_le
    simp only [PathSegment.mk.injEq, and_true] at heq
    have hname : name ∈ rest.map BranchArm.name := by
      rw [heq]
      exact List.mem_map_of_mem ha
    exact hnew hname

end

end KimchiWorkflows.Progress
