import KimchiWorkflows.Engine.Occurrences

/-!
The tags that a committed tree gives to the agent steps its fan-outs let overlap.
-/

namespace KimchiWorkflows.Engine

open KimchiWorkflows.Flow

variable {workflowName : String} {isolatedHere : Bool} {scope inner key key' : NodePath}
  {node resolved : WorkflowNode} {nodes body : List WorkflowNode} {step step' : StepDefinition}

/-- An agent step that may overlap with another one. -/
structure Guarded (agent : AgentStep) : Prop where
  isolated : agent.isolated = true
  asks : agent.asks = false
  shares : ∀ name, agent.resumable ≠ .key name

def GuardedStep (step : StepDefinition) : Prop := ∀ agent, step = .agent agent → Guarded agent

theorem guarded_resolveStep (h : resolveStep workflowName step true = .ok step') : GuardedStep step' := by
  rintro agent rfl
  cases step with
  | agent other =>
    simp only [resolveStep, Bool.not_true, Bool.false_eq_true, if_false] at h
    split_ifs at h with hvalid hasks hshared
    simp only [Except.ok.injEq, StepDefinition.agent.injEq] at h
    subst h
    refine ⟨rfl, by simpa using hasks, ?_⟩
    rintro name hname
    dsimp only at hname
    simp [hname] at hshared
  | _ => cases h

theorem guarded_resolveSteps {steps arms : List StepDefinition} (h : resolveSteps workflowName steps = .ok arms) :
    ∀ arm ∈ arms, GuardedStep arm := by
  induction steps generalizing arms with
  | nil =>
    cases h
    simp
  | cons step rest ih =>
    simp only [resolveSteps] at h
    split at h
    · cases h
    · rename_i first hfirst
      obtain ⟨tail, htail, rfl⟩ := of_map_ok h
      exact List.forall_mem_cons.mpr ⟨guarded_resolveStep hfirst, ih htail⟩

theorem resolveIsolation_mem (h : resolveIsolation workflowName isolatedHere nodes = .ok body)
    (hm : resolved ∈ body) : ∃ node, resolveNode workflowName isolatedHere node = .ok resolved := by
  induction nodes generalizing body with
  | nil =>
    cases h
    cases hm
  | cons first rest ih =>
    simp only [resolveIsolation] at h
    split at h
    · cases h
    · rename_i node hnode
      obtain ⟨tail, htail, rfl⟩ := of_map_ok h
      obtain rfl | hm := List.mem_cons.mp hm
      · exact ⟨first, hnode⟩
      · exact ih htail hm

theorem resolveArms_mem {arms taken : List BranchArm} {arm : BranchArm}
    (h : resolveArms workflowName isolatedHere arms = .ok taken) (hm : arm ∈ taken) :
    ∃ nodes, resolveIsolation workflowName isolatedHere nodes = .ok arm.body := by
  induction arms generalizing taken with
  | nil =>
    cases h
    cases hm
  | cons first rest ih =>
    obtain ⟨name, condition, nodes⟩ := first
    simp only [resolveArms] at h
    split at h
    · cases h
    · rename_i body hbody
      obtain ⟨tail, htail, rfl⟩ := of_map_ok h
      obtain rfl | hm := List.mem_cons.mp hm
      · exact ⟨nodes, hbody⟩
      · exact ih htail hm

theorem resolve_child (h : resolveNode workflowName isolatedHere node = .ok resolved)
    (hc : Child scope resolved inner body) : ∃ here nodes, (isolatedHere = true → here = true) ∧
      resolveIsolation workflowName here nodes = .ok body := by
  cases node with
  | step step =>
    obtain ⟨step', -, rfl⟩ := of_map_ok h
    cases hc
  | branch name arms =>
    obtain ⟨arms', harms, rfl⟩ := of_map_ok h
    cases hc with
    | arm hm =>
      obtain ⟨nodes, hn⟩ := resolveArms_mem harms hm
      exact ⟨isolatedHere, nodes, id, hn⟩
  | loop name mode nodes condition maxIterations =>
    obtain ⟨body', hbody, rfl⟩ := of_map_ok h
    cases hc
    exact ⟨isolatedHere, nodes, id, hbody⟩
  | «foreach» name nodes selector concurrency feedback =>
    obtain ⟨body', hbody, rfl⟩ := of_map_ok h
    cases hc
    exact ⟨_, nodes, fun hi => by rw [hi, Bool.true_or], hbody⟩
  | parallel name arms =>
    obtain ⟨arms', -, rfl⟩ := of_map_ok h
    cases hc
  | workflow name nodes =>
    obtain ⟨body', hbody, rfl⟩ := of_map_ok h
    cases hc
    exact ⟨isolatedHere, nodes, id, hbody⟩

theorem resolve_items {name : String} {selector : RunContext → Except String Value} {concurrency : Nat}
    {feedback : Bool} (hc : 1 < concurrency)
    (h : resolveNode workflowName isolatedHere node = .ok (.foreach name body selector concurrency feedback)) :
    ∃ nodes, resolveIsolation workflowName true nodes = .ok body := by
  cases node with
  | «foreach» name' nodes selector' concurrency' feedback' =>
    obtain ⟨body', hbody, he⟩ := of_map_ok h
    cases he
    refine ⟨nodes, ?_⟩
    rwa [decide_eq_true hc, Bool.or_true] at hbody
  | _ =>
    obtain ⟨_, -, he⟩ := of_map_ok h
    cases he

theorem resolve_parallel {name : String} {arms : List StepDefinition}
    (h : resolveNode workflowName isolatedHere node = .ok (.parallel name arms)) : ∀ arm ∈ arms, GuardedStep arm := by
  cases node with
  | parallel name' arms' =>
    obtain ⟨arms'', hs, he⟩ := of_map_ok h
    cases he
    exact guarded_resolveSteps hs
  | _ =>
    obtain ⟨_, -, he⟩ := of_map_ok h
    cases he

theorem guarded_runsAt (hr : RunsAt scope resolved key step)
    (h : resolveNode workflowName true node = .ok resolved) : GuardedStep step := by
  induction hr generalizing node with
  | step =>
    cases node with
    | step other =>
      obtain ⟨step', hs, he⟩ := of_map_ok h
      cases he
      exact guarded_resolveStep hs
    | _ =>
      obtain ⟨_, -, he⟩ := of_map_ok h
      cases he
  | arm hm => exact resolve_parallel h _ hm
  | inside hc hm _ ih =>
    obtain ⟨here, nodes, hi, hb⟩ := resolve_child h hc
    rw [hi rfl] at hb
    obtain ⟨child, hchild⟩ := resolveIsolation_mem hb hm
    exact ih hchild

theorem guarded_overlap (ho : Overlap scope resolved key step key' step')
    (h : resolveNode workflowName isolatedHere node = .ok resolved) : GuardedStep step ∧ GuardedStep step' := by
  induction ho generalizing node isolatedHere with
  | arms ha hb _ => exact ⟨resolve_parallel h _ ha, resolve_parallel h _ hb⟩
  | items hc _ hm hn hr hr' =>
    obtain ⟨nodes, hb⟩ := resolve_items hc h
    obtain ⟨first, hfirst⟩ := resolveIsolation_mem hb hm
    obtain ⟨second, hsecond⟩ := resolveIsolation_mem hb hn
    exact ⟨guarded_runsAt hr hfirst, guarded_runsAt hr' hsecond⟩
  | inside hc hm _ ih =>
    obtain ⟨here, nodes, -, hb⟩ := resolve_child h hc
    obtain ⟨child, hchild⟩ := resolveIsolation_mem hb hm
    exact ih hchild

theorem guarded_committed {workflow : WorkflowDefinition} (hc : Committed workflow) (hm : node ∈ workflow.nodes)
    (ho : Overlap scope node key step key' step') : GuardedStep step ∧ GuardedStep step' := by
  cases hc with
  | commit part _ _ hcommit =>
    obtain ⟨-, nodes, hr, rfl⟩ := commit_ok hcommit
    obtain ⟨original, horiginal⟩ := resolveIsolation_mem hr hm
    exact guarded_overlap ho horiginal

end KimchiWorkflows.Engine
