import KimchiWorkflows.Engine.NodePath
import KimchiWorkflows.Flow.Scopes

/-!
Where the steps of a tree run, and which two of them a run can have under way at the same time.
-/

namespace KimchiWorkflows.Engine

open KimchiWorkflows.Flow

/-- A scope directly inside a node, and the nodes that run in it. -/
inductive Child (scope : NodePath) : WorkflowNode → NodePath → List WorkflowNode → Prop where
  | arm {name : String} {arms : List BranchArm} {arm : BranchArm} : arm ∈ arms →
      Child scope (.branch name arms) (scope ++ [{ name := arm.name }]) arm.body
  | loop {name : String} {mode : LoopMode} {body : List WorkflowNode}
      {condition : RunContext → Value → Except String Bool} {maxIterations : Nat} :
      Child scope (.loop name mode body condition maxIterations) (scope ++ [{ name := name }]) body
  | item {name : String} {body : List WorkflowNode} {selector : RunContext → Except String Value}
      {concurrency : Nat} {feedback : Bool} (index : Nat) :
      Child scope (.foreach name body selector concurrency feedback)
        (scope ++ [{ name := name, index := some (.foreach, index) }]) body
  | workflow {name : String} {nodes : List WorkflowNode} :
      Child scope (.workflow name nodes) (scope ++ [{ name := name }]) nodes

inductive RunsAt : NodePath → WorkflowNode → NodePath → StepDefinition → Prop where
  | step {scope : NodePath} {step : StepDefinition} : RunsAt scope (.step step) (scope ++ [{ name := step.name }]) step
  | arm {scope : NodePath} {name : String} {arms : List StepDefinition} {arm : StepDefinition} : arm ∈ arms →
      RunsAt scope (.parallel name arms) (scope ++ [{ name := name }] ++ [{ name := arm.name }]) arm
  | inside {scope inner : NodePath} {node child : WorkflowNode} {body : List WorkflowNode} {key : NodePath}
      {step : StepDefinition} : Child scope node inner body → child ∈ body → RunsAt inner child key step →
      RunsAt scope node key step

/-- Two executions below a node that its fan-outs let overlap. -/
inductive Overlap : NodePath → WorkflowNode → NodePath → StepDefinition → NodePath → StepDefinition → Prop where
  | arms {scope : NodePath} {name : String} {arms : List StepDefinition} {a b : StepDefinition} : a ∈ arms → b ∈ arms →
      a.name ≠ b.name → Overlap scope (.parallel name arms) (scope ++ [{ name := name }] ++ [{ name := a.name }]) a
        (scope ++ [{ name := name }] ++ [{ name := b.name }]) b
  | items {scope : NodePath} {name : String} {body : List WorkflowNode} {selector : RunContext → Except String Value}
      {concurrency : Nat} {feedback : Bool} {i j : Nat} {m n : WorkflowNode} {key key' : NodePath}
      {step step' : StepDefinition} : 1 < concurrency → i ≠ j → m ∈ body → n ∈ body →
      RunsAt (scope ++ [{ name := name, index := some (.foreach, i) }]) m key step →
      RunsAt (scope ++ [{ name := name, index := some (.foreach, j) }]) n key' step' →
      Overlap scope (.foreach name body selector concurrency feedback) key step key' step'
  | inside {scope inner : NodePath} {node child : WorkflowNode} {body : List WorkflowNode} {key key' : NodePath}
      {step step' : StepDefinition} : Child scope node inner body → child ∈ body →
      Overlap inner child key step key' step' → Overlap scope node key step key' step'

/-- A region of executions, with an overlap between them, has room for what the nodes run in the scope. -/
def Covers (clash : NodePath → StepDefinition → NodePath → StepDefinition → Prop)
    (region : NodePath → StepDefinition → Prop) (scope : NodePath) (nodes : List WorkflowNode) : Prop :=
  ∀ node ∈ nodes, (∀ key step, RunsAt scope node key step → region key step) ∧
    ∀ key step key' step', Overlap scope node key step key' step' → clash key step key' step'

theorem covers_child {scope inner : NodePath} {node : WorkflowNode} {body : List WorkflowNode}
    (h : Child scope node inner body) : Covers (Overlap scope node) (RunsAt scope node) inner body :=
  fun _ hm => ⟨fun _ _ hr => .inside h hm hr, fun _ _ _ _ ho => .inside h hm ho⟩

theorem Child.scope_le {scope inner : NodePath} {node : WorkflowNode} {body : List WorkflowNode}
    (h : Child scope node inner body) : scope <+: inner := by
  cases h <;> exact List.prefix_append _ _

theorem RunsAt.scope_le {scope key : NodePath} {node : WorkflowNode} {step : StepDefinition}
    (h : RunsAt scope node key step) : scope <+: key := by
  induction h with
  | step => exact List.prefix_append _ _
  | arm _ =>
    rw [List.append_assoc]
    exact List.prefix_append _ _
  | inside hc _ _ ih => exact hc.scope_le.trans ih

theorem eq_of_prefix_item {scope key : NodePath} {a b : PathSegment} (ha : scope ++ [a] <+: key)
    (hb : scope ++ [b] <+: key) : a = b := by
  obtain ⟨s, rfl⟩ := ha
  obtain ⟨t, ht⟩ := hb
  simp only [List.append_assoc, List.append_cancel_left_eq, List.singleton_append, List.cons.injEq] at ht
  exact ht.1.symm

theorem Overlap.key_ne {scope key key' : NodePath} {node : WorkflowNode} {step step' : StepDefinition}
    (h : Overlap scope node key step key' step') : key ≠ key' := by
  induction h with
  | arms _ _ hne =>
    intro he
    simp only [List.append_cancel_left_eq, List.cons.injEq, PathSegment.mk.injEq, and_true] at he
    exact hne he
  | items _ hne _ _ hr hr' =>
    rintro rfl
    have he := eq_of_prefix_item hr.scope_le hr'.scope_le
    simp only [PathSegment.mk.injEq, true_and, Option.some.injEq, Prod.mk.injEq] at he
    exact hne he
  | inside _ _ _ ih => exact ih

end KimchiWorkflows.Engine
