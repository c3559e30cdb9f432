import Mathlib.Data.List.Pairwise
import KimchiWorkflows.Engine.ExecutionKeys
import KimchiWorkflows.Engine.PathCodec

/-!
What the segments of a path stand for in a tree: a path addresses one place of it, and a static key no other.
-/

namespace KimchiWorkflows.Engine

open KimchiWorkflows.Flow

/-- The node itself, an arm of the branch or an item of the foreach. -/
inductive Door where
  | own
  | arm (j : Nat)
  | item (k : Nat)
  deriving DecidableEq

/-- A segment stands for a part of a node, and the nodes are the scope inside it. -/
inductive Opens : WorkflowNode → PathSegment → Door → List WorkflowNode → Prop where
  | step {step : StepDefinition} : Opens (.step step) { name := step.name } .own []
  | branch {name : String} {arms : List BranchArm} : Opens (.branch name arms) { name := name } .own []
  | arm {name : String} {arms : List BranchArm} {arm : BranchArm} {j : Nat} : arms[j]? = some arm →
      Opens (.branch name arms) { name := arm.name } (.arm j) arm.body
  | loop {name : String} {mode : LoopMode} {body : List WorkflowNode}
      {condition : RunContext → Value → Except String Bool} {maxIterations : Nat} :
      Opens (.loop name mode body condition maxIterations) { name := name } .own body
  | iteration {name : String} {mode : LoopMode} {body : List WorkflowNode}
      {condition : RunContext → Value → Except String Bool} {maxIterations : Nat} (iteration : Nat) :
      Opens (.loop name mode body condition maxIterations) { name := name, index := some (.loop, iteration) } .own body
  | foreach {name : String} {body : List WorkflowNode} {selector : RunContext → Except String Value}
      {concurrency : Nat} {feedback : Bool} : Opens (.foreach name body selector concurrency feedback)
        { name := name } .own []
  | item {name : String} {body : List WorkflowNode} {selector : RunContext → Except String Value}
      {concurrency : Nat} {feedback : Bool} (index : Nat) : Opens (.foreach name body selector concurrency feedback)
        { name := name, index := some (.foreach, index) } (.item index) body
  | parallel {name : String} {arms : List StepDefinition} :
      Opens (.parallel name arms) { name := name } .own (arms.map WorkflowNode.step)
  | workflow {name : String} {inner : List WorkflowNode} : Opens (.workflow name inner) { name := name } .own inner

/-- A part of a node of a scope, the node by its position. -/
structure Spot where
  position : Nat
  door : Door
  deriving DecidableEq

abbrev Place := List Spot

/-- A path stands for a place in a tree: the occurrence of a node, of an arm or of an item. -/
inductive Addresses : List WorkflowNode → NodePath → Place → Prop where
  | last {nodes inner : List WorkflowNode} {node : WorkflowNode} {i : Nat} {segment : PathSegment} {door : Door} :
      nodes[i]? = some node → Opens node segment door inner → Addresses nodes [segment] [⟨i, door⟩]
  | inside {nodes inner : List WorkflowNode} {node : WorkflowNode} {i : Nat} {segment : PathSegment} {door : Door}
      {path : NodePath} {place : Place} : nodes[i]? = some node → Opens node segment door inner →
      Addresses inner path place → Addresses nodes (segment :: path) (⟨i, door⟩ :: place)

inductive Locates : List WorkflowNode → NodePath → WorkflowNode → Door → Prop where
  | last {nodes inner : List WorkflowNode} {node : WorkflowNode} {segment : PathSegment} {door : Door} : node ∈ nodes →
      Opens node segment door inner → Locates nodes [segment] node door
  | inside {nodes inner : List WorkflowNode} {node target : WorkflowNode} {segment : PathSegment} {door through : Door}
      {path : NodePath} : node ∈ nodes → Opens node segment through inner → Locates inner path target door →
      Locates nodes (segment :: path) target door

variable {nodes inner inner' : List WorkflowNode} {node other : WorkflowNode} {segment segment' : PathSegment}
  {door door' : Door} {path path' : NodePath} {place place' : Place} {i j : Nat}

theorem Opens.name_mem (h : Opens node segment door inner) : segment.name ∈ scopeNames node := by
  cases h with
  | arm hj => exact List.mem_cons_of_mem _ (List.mem_map_of_mem (List.mem_of_getElem? hj))
  | _ => exact List.mem_cons_self

theorem Opens.static (h : Opens node segment door inner) : Opens node (staticSegmentOf segment) door inner := by
  cases h with
  | iteration iteration => exact .loop
  | step => exact .step
  | branch => exact .branch
  | arm hj => exact .arm hj
  | loop => exact .loop
  | «foreach» => exact .foreach
  | item index => exact .item index
  | parallel => exact .parallel
  | workflow => exact .workflow

theorem Opens.same (h : Opens node segment door inner) (h' : Opens node segment' door inner') :
    staticSegmentOf segment = staticSegmentOf segment' ∧ inner = inner' := by
  cases h with
  | arm hj =>
    cases h' with
    | arm hj' =>
      obtain rfl := Option.some.inj (hj.symm.trans hj')
      exact ⟨rfl, rfl⟩
  | _ => cases h' <;> exact ⟨rfl, rfl⟩

theorem Opens.door_eq (hu : (scopeNames node).Nodup) (h : Opens node segment door inner)
    (h' : Opens node segment' door' inner') (he : staticSegmentOf segment = staticSegmentOf segment') : door = door' := by
  cases h with
  | @branch name arms =>
    cases h' with
    | branch => rfl
    | @arm _ _ arm j hj =>
      have hname : name = arm.name := congrArg PathSegment.name he
      have harm : arm.name ∈ arms.map BranchArm.name := List.mem_map_of_mem (List.mem_of_getElem? hj)
      exact absurd (hname ▸ harm) (List.nodup_cons.mp hu).1
  | @arm name arms arm j hj =>
    cases h' with
    | branch =>
      have hname : arm.name = name := congrArg PathSegment.name he
      have harm : arm.name ∈ arms.map BranchArm.name := List.mem_map_of_mem (List.mem_of_getElem? hj)
      exact absurd (hname ▸ harm) (List.nodup_cons.mp hu).1
    | @arm _ _ arm' j' hj' =>
      have hname : arm.name = arm'.name := congrArg PathSegment.name he
      have hlt : j < (arms.map BranchArm.name).length := by
        rw [List.length_map]
        exact (List.getElem?_eq_some_iff.mp hj).1
      have hsame : (arms.map BranchArm.name)[j]? = (arms.map BranchArm.name)[j']? := by
        rw [List.getElem?_map, List.getElem?_map, hj, hj', Option.map_some, Option.map_some, hname]
      rw [(List.getElem?_inj hlt (List.nodup_cons.mp hu).2).mp hsame]
  | «foreach» =>
    cases h' with
    | «foreach» => rfl
    | item index => cases he
  | item index =>
    cases h' with
    | «foreach» => cases he
    | item index' =>
      cases he
      rfl
  | _ => cases h' <;> rfl

theorem Opens.unique_inner (hu : scopesUniqueUnder node = true) (h : Opens node segment door inner) :
    scopesUnique inner = true := by
  cases h with
  | step => rfl
  | branch => rfl
  | «foreach» => rfl
  | arm hj => exact scopesUnique_body hu (List.mem_map_of_mem (List.mem_of_getElem? hj))
  | loop => exact hu
  | iteration iteration => exact hu
  | item index => exact hu
  | workflow => exact hu
  | @parallel name arms =>
    have hnodup : (arms.map StepDefinition.name).Nodup := of_decide_eq_true hu
    have hflat : (arms.map WorkflowNode.step).flatMap scopeNames = arms.map StepDefinition.name := by
      rw [List.flatMap_map, List.map_eq_flatMap]
      rfl
    have hinside : scopesUniqueIn (arms.map WorkflowNode.step) = true := by
      apply scopesUniqueIn_of_forall
      intro node hm
      obtain ⟨arm, -, rfl⟩ := List.mem_map.mp hm
      rfl
    rw [scopesUnique, hflat, hinside, Bool.and_true]
    exact decide_eq_true hnodup

theorem position_eq (hu : (nodes.flatMap scopeNames).Nodup) {name : String} (hi : nodes[i]? = some node)
    (hj : nodes[j]? = some other) (hname : name ∈ scopeNames node) (hname' : name ∈ scopeNames other) : i = j := by
  obtain ⟨hi', rfl⟩ := List.getElem?_eq_some_iff.mp hi
  obtain ⟨hj', rfl⟩ := List.getElem?_eq_some_iff.mp hj
  have hdisjoint := List.pairwise_iff_getElem.mp (List.nodup_flatMap.mp hu).2
  by_contra hne
  obtain hlt | hlt := Nat.lt_or_gt_of_ne hne
  · exact hdisjoint i j hi' hj' hlt hname hname'
  · exact hdisjoint j i hj' hi' hlt hname' hname

theorem Opens.spot_eq (hu : (nodes.flatMap scopeNames).Nodup) (hi : nodes[i]? = some node) (hj : nodes[j]? = some other)
    (h : Opens node segment door inner) (h' : Opens other segment' door' inner')
    (he : staticSegmentOf segment = staticSegmentOf segment') : i = j ∧ door = door' := by
  have hname : segment.name = segment'.name := by
    have hnames := congrArg PathSegment.name he
    rwa [name_staticSegmentOf, name_staticSegmentOf] at hnames
  obtain rfl := position_eq hu hi hj h.name_mem (hname ▸ h'.name_mem)
  obtain rfl := Option.some.inj (hi.symm.trans hj)
  have hnodup : (scopeNames node).Nodup := (List.nodup_flatMap.mp hu).1 node (List.mem_of_getElem? hi)
  exact ⟨rfl, h.door_eq hnodup h' he⟩

theorem Addresses.ne_nil (h : Addresses nodes path place) : path ≠ [] ∧ place ≠ [] := by
  cases h <;> simp

/-- Two paths of a tree have one static key exactly when they address the same place of it. -/
theorem Addresses.staticKeyOf_eq_iff (hu : scopesUnique nodes = true) (h : Addresses nodes path place)
    (h' : Addresses nodes path' place') : staticKeyOf path = staticKeyOf path' ↔ place = place' := by
  simp only [staticKeyOf, staticPathOf]
  induction h generalizing path' place' with
  | last hi ho =>
    have hnodup := of_decide_eq_true (Bool.and_eq_true_iff.mp hu).1
    cases h' with
    | last hj ho' =>
      simp only [List.map_cons, List.map_nil, List.cons.injEq, and_true, Spot.mk.injEq]
      constructor
      · exact ho.spot_eq hnodup hi hj ho'
      · rintro ⟨rfl, rfl⟩
        obtain rfl := Option.some.inj (hi.symm.trans hj)
        exact (ho.same ho').1
    | inside hj ho' ha' => simp [ha'.ne_nil]
  | inside hi ho ha ih =>
    have hnodup := of_decide_eq_true (Bool.and_eq_true_iff.mp hu).1
    have hinner := ho.unique_inner (scopesUniqueIn_mem (Bool.and_eq_true_iff.mp hu).2 (List.mem_of_getElem? hi))
    cases h' with
    | last hj ho' => simp [ha.ne_nil]
    | inside hj ho' ha' =>
      simp only [List.map_cons, List.cons.injEq, Spot.mk.injEq]
      constructor
      · rintro ⟨hs, hrest⟩
        obtain ⟨rfl, rfl⟩ := ho.spot_eq hnodup hi hj ho' hs
        obtain rfl := Option.some.inj (hi.symm.trans hj)
        obtain ⟨-, rfl⟩ := ho.same ho'
        exact ⟨⟨rfl, rfl⟩, (ih hinner ha').mp hrest⟩
      · rintro ⟨⟨rfl, rfl⟩, hrest⟩
        obtain rfl := Option.some.inj (hi.symm.trans hj)
        obtain ⟨hs, rfl⟩ := ho.same ho'
        exact ⟨hs, (ih hinner ha').mpr hrest⟩

theorem Addresses.static (h : Addresses nodes path place) : Addresses nodes (staticKeyOf path) place := by
  induction h with
  | last hi ho => exact .last hi ho.static
  | inside hi ho _ ih => exact .inside hi ho.static ih

theorem Locates.addressed (h : Locates nodes path node door) : ∃ place, Addresses nodes path place := by
  induction h with
  | last hm ho =>
    obtain ⟨i, hi⟩ := List.mem_iff_getElem?.mp hm
    exact ⟨_, .last hi ho⟩
  | inside hm ho _ ih =>
    obtain ⟨i, hi⟩ := List.mem_iff_getElem?.mp hm
    obtain ⟨place, ha⟩ := ih
    exact ⟨_, .inside hi ho ha⟩

theorem Locates.ne_nil (h : Locates nodes path node door) : path ≠ [] := by
  cases h <;> simp

theorem Locates.unique (hu : scopesUnique nodes = true) (h : Locates nodes path node door)
    (h' : Locates nodes path' other door') (he : staticKeyOf path = staticKeyOf path') :
    node = other ∧ door = door' := by
  simp only [staticKeyOf, staticPathOf] at he
  induction h generalizing path' other door' with
  | last hm ho =>
    have hnodup := of_decide_eq_true (Bool.and_eq_true_iff.mp hu).1
    cases h' with
    | last hm' ho' =>
      obtain ⟨i, hi⟩ := List.mem_iff_getElem?.mp hm
      obtain ⟨j, hj⟩ := List.mem_iff_getElem?.mp hm'
      obtain ⟨rfl, hdoor⟩ := ho.spot_eq hnodup hi hj ho' (List.cons.inj he).1
      exact ⟨Option.some.inj (hi.symm.trans hj), hdoor⟩
    | inside hm' ho' hl' => simp [hl'.ne_nil] at he
  | inside hm ho hl ih =>
    have hnodup := of_decide_eq_true (Bool.and_eq_true_iff.mp hu).1
    have hinner := ho.unique_inner (scopesUniqueIn_mem (Bool.and_eq_true_iff.mp hu).2 hm)
    cases h' with
    | last hm' ho' => simp [hl.ne_nil] at he
    | inside hm' ho' hl' =>
      obtain ⟨hs, hrest⟩ := List.cons.inj he
      obtain ⟨i, hi⟩ := List.mem_iff_getElem?.mp hm
      obtain ⟨j, hj⟩ := List.mem_iff_getElem?.mp hm'
      obtain ⟨rfl, rfl⟩ := ho.spot_eq hnodup hi hj ho' hs
      obtain rfl := Option.some.inj (hi.symm.trans hj)
      obtain ⟨-, rfl⟩ := ho.same ho'
      exact ih hinner hl' hrest

end KimchiWorkflows.Engine
