import KimchiWorkflows.Engine.Occurrences
import Mathlib.Data.List.Pairwise

/-!
A key names one step of a tree whose scopes have unique names, and belongs to the occurrence of a node.
-/

namespace KimchiWorkflows.Engine

open KimchiWorkflows.Flow

variable {scope inner inner' key : NodePath} {node other : WorkflowNode} {nodes body body' : List WorkflowNode}
  {step step' : StepDefinition}

theorem Child.segment (h : Child scope node inner body) :
    ∃ segment, inner = scope ++ [segment] ∧ segment.name ∈ scopeNames node := by
  cases h with
  | arm hm => exact ⟨_, rfl, List.mem_cons_of_mem _ (List.mem_map_of_mem hm)⟩
  | loop => exact ⟨_, rfl, by simp [scopeNames, nodeName]⟩
  | item index => exact ⟨_, rfl, by simp [scopeNames, nodeName]⟩
  | workflow => exact ⟨_, rfl, by simp [scopeNames, nodeName]⟩

theorem RunsAt.segment (h : RunsAt scope node key step) :
    ∃ segment, scope ++ [segment] <+: key ∧ segment.name ∈ scopeNames node := by
  cases h with
  | step => exact ⟨_, List.prefix_refl _, by simp [scopeNames, nodeName]⟩
  | arm hm => exact ⟨_, List.prefix_append _ _, by simp [scopeNames, nodeName]⟩
  | inside hc _ hr =>
    obtain ⟨segment, rfl, hname⟩ := hc.segment
    exact ⟨segment, hr.scope_le, hname⟩

theorem RunsAt.node_eq (hu : scopesUnique nodes = true) (hm : node ∈ nodes) (hn : other ∈ nodes)
    (h : RunsAt scope node key step) (h' : RunsAt scope other key step') : node = other := by
  rw [scopesUnique, Bool.and_eq_true] at hu
  obtain ⟨segment, hs, hname⟩ := h.segment
  obtain ⟨segment', hs', hname'⟩ := h'.segment
  obtain rfl := eq_of_prefix_item hs hs'
  by_contra hne
  have hdisjoint := (List.nodup_flatMap.mp (of_decide_eq_true hu.1)).2
  have hsymm : Std.Symm (Function.onFun List.Disjoint scopeNames) := ⟨fun _ _ hd _ hb ha => hd ha hb⟩
  exact (hdisjoint.forall hm hn hne) hname hname'

theorem Child.body_eq (hu : (scopeNames node).Nodup) (h : Child scope node inner body)
    (h' : Child scope node inner body') : body = body' := by
  cases h with
  | @arm name arms arm hm =>
    generalize he : scope ++ [({ name := arm.name } : PathSegment)] = inner at h'
    cases h' with
    | @arm _ _ arm' hm' =>
      simp only [List.append_cancel_left_eq, List.cons.injEq, PathSegment.mk.injEq, and_true] at he
      have hnodup := (List.nodup_cons.mp hu).2
      rw [List.inj_on_of_nodup_map hnodup hm hm' he]
  | loop =>
    cases h'
    rfl
  | item index =>
    generalize scope ++ [_] = inner at h'
    cases h'
    rfl
  | workflow =>
    cases h'
    rfl

theorem Child.mem_bodiesOf (h : Child scope node inner body) : body ∈ bodiesOf node := by
  cases h with
  | arm hm => exact List.mem_map_of_mem hm
  | loop => exact List.mem_singleton.mpr rfl
  | item index => exact List.mem_singleton.mpr rfl
  | workflow => exact List.mem_singleton.mpr rfl

theorem runsAt_unique (hu : scopesUnique nodes = true) (hm : node ∈ nodes) (hn : other ∈ nodes)
    (h : RunsAt scope node key step) (h' : RunsAt scope other key step') : step = step' := by
  obtain rfl := h.node_eq hu hm hn h'
  clear hn
  induction h generalizing nodes step' with
  | step =>
    cases h' with
    | step => rfl
    | inside hc => cases hc
  | @arm scope name arms arm harm =>
    rw [scopesUnique, Bool.and_eq_true] at hu
    have hnodup : (arms.map StepDefinition.name).Nodup := of_decide_eq_true (scopesUniqueIn_mem hu.2 hm)
    generalize he : scope ++ [({ name := name } : PathSegment)] ++ [{ name := arm.name }] = key at h'
    cases h' with
    | @arm _ _ _ arm' harm' =>
      simp only [List.append_cancel_left_eq, List.cons.injEq, PathSegment.mk.injEq, and_true] at he
      exact List.inj_on_of_nodup_map hnodup harm harm' he
    | inside hc => cases hc
  | @inside scope inner node child body key step hc hchild hr ih =>
    cases h' with
    | step => cases hc
    | arm => cases hc
    | @inside _ inner' _ child' body' _ _ hc' hchild' hr' =>
      obtain ⟨segment, rfl, -⟩ := hc.segment
      obtain ⟨segment', rfl, -⟩ := hc'.segment
      obtain rfl := eq_of_prefix_item hr.scope_le hr'.scope_le
      rw [scopesUnique, Bool.and_eq_true] at hu
      have hnodup := (List.nodup_flatMap.mp (of_decide_eq_true hu.1)).1 node hm
      obtain rfl := hc.body_eq hnodup hc'
      have hbody : scopesUnique body = true := scopesUnique_body (scopesUniqueIn_mem hu.2 hm) hc.mem_bodiesOf
      obtain rfl := hr.node_eq hbody hchild hchild' hr'
      exact ih hbody hchild hr'

end KimchiWorkflows.Engine

namespace KimchiWorkflows.Engine

open KimchiWorkflows.Flow

/-- A node of the tree, in a static scope it is run in. -/
inductive OccursAt (nodes : List WorkflowNode) : NodePath → WorkflowNode → Prop where
  | top {node : WorkflowNode} : node ∈ nodes → OccursAt nodes [] node
  | inside {scope inner : NodePath} {node child : WorkflowNode} {body : List WorkflowNode} :
      OccursAt nodes scope node → Child scope node inner body → child ∈ body → OccursAt nodes inner child

def itemKeyOf (scope : NodePath) (name : String) (index : Nat) : NodePath := appendForeachItem scope name index

inductive KeyIn : NodePath → WorkflowNode → NodePath → Prop where
  | own {scope : NodePath} {node : WorkflowNode} : KeyIn scope node (appendSegment scope (nodeName node))
  | arm {scope : NodePath} {name : String} {arms : List BranchArm} {arm : BranchArm} : arm ∈ arms →
      KeyIn scope (.branch name arms) (appendSegment scope arm.name)
  | item {scope : NodePath} {name : String} {body : List WorkflowNode} {selector : RunContext → Except String Value}
      {concurrency : Nat} {feedback : Bool} (index : Nat) :
      KeyIn scope (.foreach name body selector concurrency feedback) (itemKeyOf scope name index)
  | armStep {scope : NodePath} {name : String} {arms : List StepDefinition} {arm : StepDefinition} : arm ∈ arms →
      KeyIn scope (.parallel name arms) (appendSegment (appendSegment scope name) arm.name)
  | inside {scope inner key : NodePath} {node child : WorkflowNode} {body : List WorkflowNode} :
      Child scope node inner body → child ∈ body → KeyIn inner child key → KeyIn scope node key

/-- A construct, or an item of a foreach, runs the step under the key inside it. -/
inductive Held (nodes : List WorkflowNode) : NodePath → NodePath → Prop where
  | construct {scope key : NodePath} {node : WorkflowNode} {step : StepDefinition} : OccursAt nodes scope node →
      (∀ own, node ≠ .step own) → RunsAt scope node key step →
      Held nodes (appendSegment scope (nodeName node)) key
  | item {scope key : NodePath} {name : String} {body : List WorkflowNode}
      {selector : RunContext → Except String Value} {concurrency : Nat} {feedback : Bool} {child : WorkflowNode}
      {step : StepDefinition} (index : Nat) :
      OccursAt nodes scope (.foreach name body selector concurrency feedback) → child ∈ body →
      RunsAt (itemKeyOf scope name index) child key step → Held nodes (itemKeyOf scope name index) key

inductive HeldByArm (nodes : List WorkflowNode) : NodePath → NodePath → Prop where
  | arm {scope key : NodePath} {name : String} {arms : List BranchArm} {arm : BranchArm} {child : WorkflowNode}
      {step : StepDefinition} : OccursAt nodes scope (.branch name arms) → arm ∈ arms → child ∈ arm.body →
      RunsAt (appendSegment scope arm.name) child key step → HeldByArm nodes (appendSegment scope arm.name) key

end KimchiWorkflows.Engine
