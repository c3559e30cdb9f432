import Mathlib.Data.List.Nodup
import KimchiWorkflows.Flow.Commit

namespace KimchiWorkflows.Flow

mutual

/-- Names are unique in every scope of the tree, and in every parallel among its arms. -/
def scopesUniqueUnder : WorkflowNode → Bool
  | .step _ => true
  | .branch _ arms => scopesUniqueInArms arms
  | .loop _ _ body _ _ => decide ((body.flatMap scopeNames).Nodup) && scopesUniqueIn body
  | .foreach _ body _ _ _ => decide ((body.flatMap scopeNames).Nodup) && scopesUniqueIn body
  | .parallel _ arms => decide ((arms.map StepDefinition.name).Nodup)
  | .workflow _ nodes => decide ((nodes.flatMap scopeNames).Nodup) && scopesUniqueIn nodes

def scopesUniqueIn : List WorkflowNode → Bool
  | [] => true
  | node :: rest => scopesUniqueUnder node && scopesUniqueIn rest

def scopesUniqueInArms : List BranchArm → Bool
  | [] => true
  | .mk _ _ body :: rest =>
    decide ((body.flatMap scopeNames).Nodup) && scopesUniqueIn body && scopesUniqueInArms rest

end

def scopesUnique (nodes : List WorkflowNode) : Bool :=
  decide ((nodes.flatMap scopeNames).Nodup) && scopesUniqueIn nodes

/-- The bodies a node is composed from, each committed as a workflow of its own. -/
def bodiesOf : WorkflowNode → List (List WorkflowNode)
  | .branch _ arms => arms.map BranchArm.body
  | .loop _ _ body _ _ => [body]
  | .foreach _ body _ _ _ => [body]
  | .workflow _ nodes => [nodes]
  | _ => []

/-- What the builder can hand out: committed from parts that were committed before it. -/
inductive Committed : WorkflowDefinition → Prop where
  | commit {options workflow : WorkflowDefinition} (part : List WorkflowNode → WorkflowDefinition) :
      (∀ node ∈ options.nodes, ∀ body ∈ bodiesOf node, Committed (part body)) →
      (∀ node ∈ options.nodes, ∀ body ∈ bodiesOf node, (part body).nodes = body) →
      commit options = .ok workflow → Committed workflow

variable {workflowName : String} {isolatedHere : Bool}

theorem nodup_of_nameComplaint {invalid duplicate : String → String} {seen names : List String}
    (h : nameComplaint invalid duplicate seen names = none) :
    names.Nodup ∧ ∀ name ∈ names, name ∉ seen := by
  induction names generalizing seen with
  | nil => simp
  | cons name rest ih =>
    simp only [nameComplaint] at h
    split_ifs at h with hv hs
    obtain ⟨hn, hd⟩ := ih h
    refine ⟨List.nodup_cons.mpr ⟨fun hm => hd name hm List.mem_cons_self, hn⟩, ?_⟩
    intro other ho
    rcases List.mem_cons.mp ho with rfl | ho
    · exact hs
    · exact fun hm => hd other ho (List.mem_cons_of_mem _ hm)

theorem unique_of_scopeComplaint {seen : List String} {nodes : List WorkflowNode}
    (h : scopeComplaint workflowName seen nodes = none) :
    (nodes.flatMap scopeNames).Nodup ∧ (∀ name ∈ nodes.flatMap scopeNames, name ∉ seen) ∧
      ∀ node ∈ nodes, parallelComplaint workflowName node = none := by
  induction nodes generalizing seen with
  | nil => simp
  | cons node rest ih =>
    simp only [scopeComplaint, Option.or_eq_none_iff] at h
    obtain ⟨hnames, hparallel, hrest⟩ := h
    obtain ⟨hnodup, hnew⟩ := nodup_of_nameComplaint hnames
    obtain ⟨hnodup', hnew', hparallel'⟩ := ih hrest
    refine ⟨?_, ?_, ?_⟩
    · rw [List.flatMap_cons]
      refine List.nodup_append.mpr ⟨hnodup, hnodup', ?_⟩
      rintro name hm _ hm' rfl
      exact hnew' name hm' (List.mem_append_left _ hm)
    · intro name hm
      rw [List.flatMap_cons] at hm
      rcases List.mem_append.mp hm with hm | hm
      · exact hnew name hm
      · exact fun hs => hnew' name hm (List.mem_append_right _ hs)
    · intro other ho
      rcases List.mem_cons.mp ho with rfl | ho
      · exact hparallel
      · exact hparallel' other ho

theorem nodup_of_parallelComplaint {name : String} {arms : List StepDefinition}
    (h : parallelComplaint workflowName (.parallel name arms) = none) :
    (arms.map StepDefinition.name).Nodup := by
  simp only [parallelComplaint] at h
  split_ifs at h
  exact (nodup_of_nameComplaint h).1

theorem name_resolveStep {step resolved : StepDefinition}
    (h : resolveStep workflowName step isolatedHere = .ok resolved) : resolved.name = step.name := by
  cases step with
  | agent agent =>
    simp only [resolveStep] at h
    split_ifs at h <;> cases h <;> rfl
  | _ => cases h; rfl

theorem of_map_ok {ε α β : Type} {f : α → β} {x : Except ε α} {y : β} (h : x.map f = .ok y) :
    ∃ a, x = .ok a ∧ f a = y := by
  cases x with
  | error error => cases h
  | ok a => exact ⟨a, rfl, Except.ok.inj h⟩

theorem names_resolveSteps {steps resolved : List StepDefinition}
    (h : resolveSteps workflowName steps = .ok resolved) :
    resolved.map StepDefinition.name = steps.map StepDefinition.name := by
  induction steps generalizing resolved with
  | nil => cases h; rfl
  | cons step rest ih =>
    simp only [resolveSteps] at h
    split at h
    · cases h
    · rename_i first hfirst
      obtain ⟨tail, htail, rfl⟩ := of_map_ok h
      rw [List.map_cons, List.map_cons, name_resolveStep hfirst, ih htail]

mutual

theorem resolveNode_scopes {node resolved : WorkflowNode} {isolatedHere : Bool}
    (h : resolveNode workflowName isolatedHere node = .ok resolved) :
    scopeNames resolved = scopeNames node ∧ scopesUniqueUnder resolved = scopesUniqueUnder node := by
  cases node with
  | step step =>
    obtain ⟨s, hs, rfl⟩ := of_map_ok h
    exact ⟨by simp [scopeNames, nodeName, name_resolveStep hs], rfl⟩
  | branch name arms =>
    obtain ⟨resolvedArms, hr, rfl⟩ := of_map_ok h
    obtain ⟨hnames, hunique⟩ := resolveArms_scopes hr
    exact ⟨by simp [scopeNames, hnames], hunique⟩
  | loop name mode body condition maxIterations =>
    obtain ⟨resolvedBody, hr, rfl⟩ := of_map_ok h
    obtain ⟨hnames, hunique⟩ := resolveIsolation_scopes hr
    exact ⟨rfl, by simp [scopesUniqueUnder, hnames, hunique]⟩
  | foreach name body selector concurrency feedback =>
    obtain ⟨resolvedBody, hr, rfl⟩ := of_map_ok h
    obtain ⟨hnames, hunique⟩ := resolveIsolation_scopes hr
    exact ⟨rfl, by simp [scopesUniqueUnder, hnames, hunique]⟩
  | parallel name arms =>
    obtain ⟨resolvedArms, hr, rfl⟩ := of_map_ok h
    exact ⟨rfl, by simp [scopesUniqueUnder, names_resolveSteps hr]⟩
  | workflow name nodes =>
    obtain ⟨resolvedNodes, hr, rfl⟩ := of_map_ok h
    obtain ⟨hnames, hunique⟩ := resolveIsolation_scopes hr
    exact ⟨rfl, by simp [scopesUniqueUnder, hnames, hunique]⟩

theorem resolveIsolation_scopes {nodes resolved : List WorkflowNode} {isolatedHere : Bool}
    (h : resolveIsolation workflowName isolatedHere nodes = .ok resolved) :
    resolved.flatMap scopeNames = nodes.flatMap scopeNames ∧ scopesUniqueIn resolved = scopesUniqueIn nodes := by
  cases nodes with
  | nil =>
    cases h
    exact ⟨rfl, rfl⟩
  | cons node rest =>
    simp only [resolveIsolation] at h
    split at h
    · cases h
    · rename_i first hfirst
      obtain ⟨tail, htail, rfl⟩ := of_map_ok h
      obtain ⟨hnames, hunique⟩ := resolveNode_scopes hfirst
      obtain ⟨hnames', hunique'⟩ := resolveIsolation_scopes htail
      exact ⟨by simp [hnames, hnames'], by simp [scopesUniqueIn, hunique, hunique']⟩

theorem resolveArms_scopes {arms resolved : List BranchArm} {isolatedHere : Bool}
    (h : resolveArms workflowName isolatedHere arms = .ok resolved) :
    resolved.map BranchArm.name = arms.map BranchArm.name ∧
      scopesUniqueInArms resolved = scopesUniqueInArms arms := by
  match arms with
  | [] =>
    cases h
    exact ⟨rfl, rfl⟩
  | .mk name condition body :: rest =>
    simp only [resolveArms] at h
    split at h
    · cases h
    · rename_i resolvedBody hbody
      obtain ⟨tail, htail, rfl⟩ := of_map_ok h
      obtain ⟨hnames, hunique⟩ := resolveIsolation_scopes hbody
      obtain ⟨hnames', hunique'⟩ := resolveArms_scopes htail
      exact ⟨by simp [BranchArm.name, hnames'], by simp [scopesUniqueInArms, hnames, hunique, hunique']⟩

end

theorem resolveIsolation_scopesUnique {nodes resolved : List WorkflowNode}
    (h : resolveIsolation workflowName isolatedHere nodes = .ok resolved) :
    scopesUnique resolved = scopesUnique nodes := by
  obtain ⟨hnames, hunique⟩ := resolveIsolation_scopes h
  rw [scopesUnique, scopesUnique, hnames, hunique]

theorem scopesUniqueInArms_of_bodies {arms : List BranchArm}
    (h : ∀ arm ∈ arms, scopesUnique arm.body = true) : scopesUniqueInArms arms = true := by
  induction arms with
  | nil => rfl
  | cons arm rest ih =>
    obtain ⟨name, condition, body⟩ := arm
    have hbody : scopesUnique body = true := h (.mk name condition body) List.mem_cons_self
    have hrest := ih (fun other ho => h other (List.mem_cons_of_mem _ ho))
    rw [scopesUnique] at hbody
    rw [scopesUniqueInArms, hbody, hrest]
    rfl

theorem scopesUniqueUnder_of_bodies {node : WorkflowNode}
    (h : ∀ body ∈ bodiesOf node, scopesUnique body = true)
    (hp : parallelComplaint workflowName node = none) : scopesUniqueUnder node = true := by
  cases node with
  | step step => rfl
  | branch name arms =>
    apply scopesUniqueInArms_of_bodies
    intro arm ha
    exact h arm.body (List.mem_map_of_mem ha)
  | loop name mode body condition maxIterations => exact h body List.mem_cons_self
  | foreach name body selector concurrency feedback => exact h body List.mem_cons_self
  | parallel name arms => simpa [scopesUniqueUnder] using nodup_of_parallelComplaint hp
  | workflow name nodes => exact h nodes List.mem_cons_self

theorem scopesUniqueIn_of_forall {nodes : List WorkflowNode}
    (h : ∀ node ∈ nodes, scopesUniqueUnder node = true) : scopesUniqueIn nodes = true := by
  induction nodes with
  | nil => rfl
  | cons node rest ih =>
    have hrest := ih (fun other ho => h other (List.mem_cons_of_mem _ ho))
    rw [scopesUniqueIn, h node List.mem_cons_self, hrest]
    rfl

theorem commit_ok {options workflow : WorkflowDefinition} (h : commit options = .ok workflow) :
    scopeComplaint options.name [] options.nodes = none ∧
      ∃ nodes, resolveIsolation options.name false options.nodes = .ok nodes ∧
        workflow = { options with nodes := nodes } := by
  simp only [commit] at h
  split_ifs at h
  split at h
  · cases h
  · rename_i hnone
    simp only [Option.or_eq_none_iff] at hnone
    obtain ⟨nodes, hr, rfl⟩ := of_map_ok h
    exact ⟨hnone.2.1, nodes, hr, rfl⟩

theorem Committed.of_parts {options workflow : WorkflowDefinition}
    (h : ∀ node ∈ options.nodes, ∀ body ∈ bodiesOf node, ∃ part, Committed part ∧ part.nodes = body)
    (hc : Flow.commit options = .ok workflow) : Committed workflow := by
  classical
  let part := fun body => if hb : ∃ part, Committed part ∧ part.nodes = body then hb.choose else options
  have hpart : ∀ node ∈ options.nodes, ∀ body ∈ bodiesOf node,
      Committed (part body) ∧ (part body).nodes = body := by
    intro node hm body hb
    have he := h node hm body hb
    simp only [part, dif_pos he]
    exact he.choose_spec
  exact .commit part (fun node hm body hb => (hpart node hm body hb).1)
    (fun node hm body hb => (hpart node hm body hb).2) hc

theorem Committed.assembled {options workflow : WorkflowDefinition} (parts : List WorkflowDefinition)
    (hp : ∀ part ∈ parts, Committed part)
    (hb : options.nodes.flatMap bodiesOf = parts.map WorkflowDefinition.nodes)
    (hc : Flow.commit options = .ok workflow) : Committed workflow := by
  refine .of_parts ?_ hc
  intro node hm body hbody
  have hmem := List.mem_flatMap.mpr ⟨node, hm, hbody⟩
  rw [hb] at hmem
  obtain ⟨part, hpart, rfl⟩ := List.mem_map.mp hmem
  exact ⟨part, hp part hpart, rfl⟩

theorem Committed.flat {options workflow : WorkflowDefinition} (h : options.nodes.flatMap bodiesOf = [])
    (hc : Flow.commit options = .ok workflow) : Committed workflow :=
  .assembled [] (fun _ hm => absurd hm List.not_mem_nil) h hc

theorem Committed.scopesUnique {workflow : WorkflowDefinition} (h : Committed workflow) :
    Flow.scopesUnique workflow.nodes = true := by
  induction h with
  | @commit options workflow part hparts hnodes hcommit ih =>
    obtain ⟨hscope, nodes, hr, rfl⟩ := commit_ok hcommit
    obtain ⟨hnodup, -, hparallel⟩ := unique_of_scopeComplaint hscope
    have hunder : ∀ node ∈ options.nodes, scopesUniqueUnder node = true := by
      intro node hm
      apply scopesUniqueUnder_of_bodies _ (hparallel node hm)
      intro body hb
      rw [← hnodes node hm body hb]
      exact ih node hm body hb
    show Flow.scopesUnique nodes = true
    rw [resolveIsolation_scopesUnique hr, Flow.scopesUnique, scopesUniqueIn_of_forall hunder]
    simpa using hnodup

inductive OccursIn (node : WorkflowNode) : List WorkflowNode → Prop where
  | here {nodes : List WorkflowNode} : node ∈ nodes → OccursIn node nodes
  | within {nodes body : List WorkflowNode} {other : WorkflowNode} : other ∈ nodes → body ∈ bodiesOf other →
      OccursIn node body → OccursIn node nodes

theorem scopesUnique_arm {arms : List BranchArm} {body : List WorkflowNode}
    (h : scopesUniqueInArms arms = true) (hb : body ∈ arms.map BranchArm.body) : scopesUnique body = true := by
  induction arms with
  | nil => cases hb
  | cons arm rest ih =>
    obtain ⟨name, condition, nodes⟩ := arm
    have hparts := (Bool.and_eq_true _ _).mp h
    rcases List.mem_cons.mp hb with rfl | hb
    · exact hparts.1
    · exact ih hparts.2 hb

theorem scopesUnique_body {node : WorkflowNode} {body : List WorkflowNode}
    (h : scopesUniqueUnder node = true) (hb : body ∈ bodiesOf node) : scopesUnique body = true := by
  cases node with
  | branch name arms => exact scopesUnique_arm h hb
  | step step => cases hb
  | parallel name arms => cases hb
  | _ =>
    rw [List.mem_singleton.mp hb]
    exact h

theorem scopesUniqueIn_mem {nodes : List WorkflowNode} {node : WorkflowNode}
    (h : scopesUniqueIn nodes = true) (hm : node ∈ nodes) : scopesUniqueUnder node = true := by
  induction nodes with
  | nil => cases hm
  | cons other rest ih =>
    have hparts := (Bool.and_eq_true _ _).mp h
    rcases List.mem_cons.mp hm with rfl | hm
    · exact hparts.1
    · exact ih hparts.2 hm

theorem OccursIn.unique {node : WorkflowNode} {nodes : List WorkflowNode} (h : OccursIn node nodes)
    (hu : scopesUnique nodes = true) : scopesUniqueUnder node = true ∧ (scopeNames node).Nodup := by
  induction h with
  | here hm =>
    have hparts := (Bool.and_eq_true _ _).mp hu
    refine ⟨scopesUniqueIn_mem hparts.2 hm, ?_⟩
    exact (List.nodup_flatMap.mp (of_decide_eq_true hparts.1)).1 _ hm
  | within hm hb _ ih =>
    have hparts := (Bool.and_eq_true _ _).mp hu
    exact ih (scopesUnique_body (scopesUniqueIn_mem hparts.2 hm) hb)

end KimchiWorkflows.Flow
