import KimchiWorkflows.Engine.Addressing

/-!
The paths of a committed tree are those the log can spell: every name on them has passed the check of its scope.
-/

namespace KimchiWorkflows.Engine

open KimchiWorkflows.Flow

variable {workflow : WorkflowDefinition} {nodes inner resolved : List WorkflowNode} {node : WorkflowNode}
  {segment : PathSegment} {door : Door} {path : NodePath} {place : Place} {workflowName : String} {here : Bool} {i : Nat}

theorem valid_of_nameComplaint {invalid duplicate : String → String} {seen names : List String}
    (h : nameComplaint invalid duplicate seen names = none) : ∀ name ∈ names, isValidNodeName name = true := by
  induction names generalizing seen with
  | nil => simp
  | cons name rest ih =>
    simp only [nameComplaint] at h
    split_ifs at h with hv hs
    refine List.forall_mem_cons.mpr ⟨?_, ih h⟩
    simpa using hv

theorem valid_of_scopeComplaint {seen : List String} (h : scopeComplaint workflowName seen nodes = none) :
    ∀ node ∈ nodes, ∀ name ∈ scopeNames node, isValidNodeName name = true := by
  induction nodes generalizing seen with
  | nil => simp
  | cons node rest ih =>
    simp only [scopeComplaint, Option.or_eq_none_iff] at h
    exact List.forall_mem_cons.mpr ⟨valid_of_nameComplaint h.1, ih h.2.2⟩

theorem valid_of_parallelComplaint {name : String} {arms : List StepDefinition}
    (h : parallelComplaint workflowName (.parallel name arms) = none) :
    ∀ arm ∈ arms, isValidNodeName arm.name = true := by
  simp only [parallelComplaint] at h
  split_ifs at h
  intro arm hm
  exact valid_of_nameComplaint h _ (List.mem_map_of_mem hm)

theorem resolveIsolation_steps {steps arms : List StepDefinition} (h : resolveSteps workflowName steps = .ok arms) :
    resolveIsolation workflowName true (steps.map WorkflowNode.step) = .ok (arms.map WorkflowNode.step) := by
  induction steps generalizing arms with
  | nil =>
    cases h
    rfl
  | cons step rest ih =>
    simp only [resolveSteps] at h
    split at h
    · cases h
    · rename_i first hfirst
      obtain ⟨tail, htail, rfl⟩ := of_map_ok h
      simp [resolveIsolation, resolveNode, hfirst, ih htail, Except.map]

theorem resolveIsolation_getElem? (h : resolveIsolation workflowName here nodes = .ok resolved)
    (hi : resolved[i]? = some node) :
    ∃ original, nodes[i]? = some original ∧ resolveNode workflowName here original = .ok node := by
  induction nodes generalizing resolved i with
  | nil =>
    cases h
    cases hi
  | cons first rest ih =>
    simp only [resolveIsolation] at h
    split at h
    · cases h
    · rename_i taken htaken
      obtain ⟨tail, htail, rfl⟩ := of_map_ok h
      cases i with
      | zero =>
        obtain rfl := Option.some.inj hi
        exact ⟨first, rfl, htaken⟩
      | succ i => exact ih htail hi

theorem resolveArms_getElem? {arms taken : List BranchArm} {arm : BranchArm} {j : Nat}
    (h : resolveArms workflowName here arms = .ok taken) (hj : taken[j]? = some arm) :
    ∃ original, arms[j]? = some original ∧ original.name = arm.name ∧
      resolveIsolation workflowName here original.body = .ok arm.body := by
  induction arms generalizing taken j with
  | nil =>
    cases h
    cases hj
  | cons first rest ih =>
    obtain ⟨name, condition, nodes⟩ := first
    simp only [resolveArms] at h
    split at h
    · cases h
    · rename_i body hbody
      obtain ⟨tail, htail, rfl⟩ := of_map_ok h
      cases j with
      | zero =>
        obtain rfl := Option.some.inj hj
        exact ⟨_, rfl, rfl, hbody⟩
      | succ j => exact ih htail hj

theorem opens_resolved {original : WorkflowNode} (h : resolveNode workflowName here original = .ok node)
    (ho : Opens node segment door inner) : ∃ below scope, Opens original segment door scope ∧
      resolveIsolation workflowName below scope = .ok inner := by
  cases original with
  | step step =>
    obtain ⟨tagged, ht, rfl⟩ := of_map_ok h
    cases ho with
    | step =>
      rw [name_resolveStep ht]
      exact ⟨here, [], .step, rfl⟩
  | branch name arms =>
    obtain ⟨taken, ht, rfl⟩ := of_map_ok h
    cases ho with
    | branch => exact ⟨here, [], .branch, rfl⟩
    | arm hj =>
      obtain ⟨arm, harm, hname, hbody⟩ := resolveArms_getElem? ht hj
      rw [← hname]
      exact ⟨here, arm.body, .arm harm, hbody⟩
  | loop name mode body condition maxIterations =>
    obtain ⟨taken, ht, rfl⟩ := of_map_ok h
    cases ho with
    | loop => exact ⟨here, body, .loop, ht⟩
    | iteration iteration => exact ⟨here, body, .iteration iteration, ht⟩
  | «foreach» name body selector concurrency feedback =>
    obtain ⟨taken, ht, rfl⟩ := of_map_ok h
    cases ho with
    | «foreach» => exact ⟨here, [], .foreach, rfl⟩
    | item index => exact ⟨_, body, .item index, ht⟩
  | parallel name arms =>
    obtain ⟨taken, ht, rfl⟩ := of_map_ok h
    cases ho with
    | parallel => exact ⟨true, _, .parallel, resolveIsolation_steps ht⟩
  | workflow name nodes =>
    obtain ⟨taken, ht, rfl⟩ := of_map_ok h
    cases ho with
    | workflow => exact ⟨here, nodes, .workflow, ht⟩

theorem addresses_resolved (h : resolveIsolation workflowName here nodes = .ok resolved)
    (ha : Addresses resolved path place) : Addresses nodes path place := by
  induction ha generalizing nodes here with
  | last hi ho =>
    obtain ⟨original, horiginal, hr⟩ := resolveIsolation_getElem? h hi
    obtain ⟨below, scope, hscope, -⟩ := opens_resolved hr ho
    exact .last horiginal hscope
  | inside hi ho _ ih =>
    obtain ⟨original, horiginal, hr⟩ := resolveIsolation_getElem? h hi
    obtain ⟨below, scope, hscope, hbelow⟩ := opens_resolved hr ho
    exact .inside horiginal hscope (ih hbelow)

theorem Opens.inner_cases (h : Opens node segment door inner) : inner = [] ∨ inner ∈ bodiesOf node ∨
    ∃ name arms, node = .parallel name arms ∧ inner = arms.map WorkflowNode.step := by
  cases h with
  | arm hj => exact .inr (.inl (List.mem_map_of_mem (List.mem_of_getElem? hj)))
  | parallel => exact .inr (.inr ⟨_, _, rfl, rfl⟩)
  | loop => exact .inr (.inl List.mem_cons_self)
  | iteration iteration => exact .inr (.inl List.mem_cons_self)
  | item index => exact .inr (.inl List.mem_cons_self)
  | workflow => exact .inr (.inl List.mem_cons_self)
  | _ => exact .inl rfl

theorem addresses_steps {arms : List StepDefinition} (h : Addresses (arms.map WorkflowNode.step) path place) :
    ∃ arm ∈ arms, path = [{ name := arm.name }] := by
  have harm : ∀ {i : Nat} {node : WorkflowNode}, (arms.map WorkflowNode.step)[i]? = some node →
      ∃ arm ∈ arms, node = .step arm := by
    intro i node hi
    obtain ⟨arm, hm, rfl⟩ := List.mem_map.mp (List.mem_of_getElem? hi)
    exact ⟨arm, hm, rfl⟩
  cases h with
  | last hi ho =>
    obtain ⟨arm, hm, rfl⟩ := harm hi
    cases ho
    exact ⟨arm, hm, rfl⟩
  | inside hi ho ha =>
    obtain ⟨arm, hm, rfl⟩ := harm hi
    cases ho
    cases ha with
    | last hi ho => cases hi
    | inside hi ho ha => cases hi

theorem Addresses.spellable (h : Addresses workflow.nodes path place) (hc : Committed workflow) : Spellable path := by
  refine ⟨h.ne_nil.1, ?_⟩
  induction hc generalizing path place with
  | @commit options workflow part hparts hnodes hcommit ih =>
    obtain ⟨hscope, nodes, hr, rfl⟩ := commit_ok hcommit
    have hvalid := valid_of_scopeComplaint hscope
    obtain ⟨-, -, hparallel⟩ := unique_of_scopeComplaint hscope
    cases addresses_resolved hr h with
    | last hi ho => exact List.forall_mem_singleton.mpr (hvalid _ (List.mem_of_getElem? hi) _ ho.name_mem)
    | inside hi ho ha =>
      have hm := List.mem_of_getElem? hi
      refine List.forall_mem_cons.mpr ⟨hvalid _ hm _ ho.name_mem, ?_⟩
      obtain rfl | hbody | ⟨name, arms, rfl, rfl⟩ := ho.inner_cases
      · cases ha with
        | last hi ho => cases hi
        | inside hi ho ha => cases hi
      · rw [← hnodes _ hm _ hbody] at ha
        exact ih _ hm _ hbody ha
      · obtain ⟨arm, harm, rfl⟩ := addresses_steps ha
        exact List.forall_mem_singleton.mpr (valid_of_parallelComplaint (hparallel _ hm) arm harm)

end KimchiWorkflows.Engine
