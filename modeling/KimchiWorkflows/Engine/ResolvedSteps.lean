import KimchiWorkflows.Engine.Addressing
import KimchiWorkflows.Engine.Recovery

/-!
The names on the key of a step lead to it, and to no other step.
-/

namespace KimchiWorkflows.Engine

open KimchiWorkflows.Flow

variable {nodes : List WorkflowNode} {node : WorkflowNode} {scope key path : NodePath} {step : StepDefinition}
  {head : String} {rest : List String}

mutual

theorem resolveAtNode_name (head : String) (rest : List String) (node : WorkflowNode)
    (h : resolveAtNode head rest node = some step) : head ∈ scopeNames node := by
  cases node with
  | branch name arms => exact List.mem_cons_of_mem _ (resolveAtArms_name head rest arms h)
  | step own =>
    simp only [resolveAtNode, Option.ite_none_right_eq_some] at h
    exact List.mem_singleton.mpr h.1.1.symm
  | parallel name arms =>
    unfold resolveAtNode at h
    split at h
    · simp only [Option.ite_none_right_eq_some] at h
      exact List.mem_singleton.mpr h.1.symm
    · cases h
  | _ =>
    simp only [resolveAtNode, Option.ite_none_right_eq_some] at h
    exact List.mem_singleton.mpr h.1.symm

theorem resolveAtArms_name (head : String) (rest : List String) (arms : List BranchArm)
    (h : resolveAtArms head rest arms = some step) : head ∈ arms.map BranchArm.name := by
  match arms with
  | [] => cases h
  | .mk name condition body :: arms =>
    rw [resolveAtArms] at h
    split_ifs at h with hname
    · exact hname ▸ List.mem_cons_self
    · exact List.mem_cons_of_mem _ (resolveAtArms_name head rest arms h)

end

theorem resolveInScope_of_node (hu : (nodes.flatMap scopeNames).Nodup) (hm : node ∈ nodes)
    (h : resolveAtNode head rest node = some step) : resolveInScope (head :: rest) nodes = some step := by
  induction nodes with
  | nil => cases hm
  | cons first others ih =>
    rw [List.flatMap_cons, List.nodup_append] at hu
    obtain ⟨-, hothers, hapart⟩ := hu
    have hhead := resolveAtNode_name head rest node h
    rw [resolveInScope]
    obtain rfl | hm := List.mem_cons.mp hm
    · rw [h, Option.some_or]
    · have hnone : resolveAtNode head rest first = none := by
        by_contra hne
        obtain ⟨found, hfound⟩ := Option.ne_none_iff_exists'.mp hne
        exact hapart _ (resolveAtNode_name head rest first hfound) _ (List.mem_flatMap.mpr ⟨node, hm, hhead⟩) rfl
      rw [hnone, Option.none_or]
      exact ih hothers hm

theorem resolveAtArms_of_arm {arms : List BranchArm} {arm : BranchArm} (hu : (arms.map BranchArm.name).Nodup)
    (hm : arm ∈ arms) : resolveAtArms arm.name rest arms = resolveInScope rest arm.body := by
  induction arms with
  | nil => cases hm
  | cons first others ih =>
    obtain ⟨name, condition, body⟩ := first
    obtain ⟨hfirst, hothers⟩ := List.nodup_cons.mp hu
    rw [resolveAtArms]
    obtain rfl | hm := List.mem_cons.mp hm
    · exact if_pos rfl
    · have hne : name ≠ arm.name := by
        intro he
        apply hfirst
        rw [show (BranchArm.mk name condition body).name = arm.name from he]
        exact List.mem_map_of_mem hm
      rw [if_neg hne, ih hothers hm]

theorem find?_name {arms : List StepDefinition} {arm : StepDefinition} (hu : (arms.map StepDefinition.name).Nodup)
    (hm : arm ∈ arms) : arms.find? (fun step => step.name = arm.name) = some arm := by
  induction arms with
  | nil => cases hm
  | cons first others ih =>
    obtain ⟨hfirst, hothers⟩ := List.nodup_cons.mp hu
    obtain rfl | hm := List.mem_cons.mp hm
    · simp
    · have hne : first.name ≠ arm.name := by
        intro he
        exact hfirst (he ▸ List.mem_map_of_mem hm)
      rw [List.find?_cons_of_neg (by simpa using hne), ih hothers hm]

theorem resolveAtNode_opens {segment : PathSegment} {door : Door} {inner : List WorkflowNode}
    (hu : scopesUniqueUnder node = true) (hn : (scopeNames node).Nodup) (ho : Opens node segment door inner)
    (hl : Locates inner path (.step step) .own)
    (hr : resolveStepAtStaticPath inner (path.map PathSegment.name) = some step) :
    resolveAtNode segment.name (path.map PathSegment.name) node = some step := by
  cases ho with
  | step => cases hl <;> rename_i hm _ <;> cases hm
  | branch => cases hl <;> rename_i hm _ <;> cases hm
  | «foreach» => cases hl <;> rename_i hm _ <;> cases hm
  | arm hj =>
    rw [resolveAtNode, resolveAtArms_of_arm (List.nodup_cons.mp hn).2 (List.mem_of_getElem? hj)]
    exact hr
  | @parallel name arms =>
    have harms : (arms.map StepDefinition.name).Nodup := of_decide_eq_true hu
    cases hl with
    | last hm ho =>
      obtain ⟨arm, harm, he⟩ := List.mem_map.mp hm
      cases he
      cases ho
      simp only [List.map_cons, List.map_nil, resolveAtNode, if_true]
      exact find?_name harms harm
    | inside hm ho hl =>
      obtain ⟨arm, harm, rfl⟩ := List.mem_map.mp hm
      cases ho
      cases hl <;> rename_i hm _ <;> cases hm
  | _ => simpa only [resolveStepAtStaticPath, resolveAtNode, if_true] using hr

theorem resolve_located (hu : scopesUnique nodes = true) (h : Locates nodes path (.step step) .own) :
    resolveStepAtStaticPath nodes (path.map PathSegment.name) = some step := by
  generalize ht : WorkflowNode.step step = target at h
  generalize hd : Door.own = door at h
  induction h with
  | last hm ho =>
    subst ht
    cases ho
    have hnodup := of_decide_eq_true (Bool.and_eq_true_iff.mp hu).1
    exact resolveInScope_of_node hnodup hm (by simp [resolveAtNode])
  | inside hm ho hl ih =>
    subst ht hd
    obtain ⟨hnodup, hunder⟩ := Bool.and_eq_true_iff.mp hu
    have hnode := scopesUniqueIn_mem hunder hm
    have hnames := (List.nodup_flatMap.mp (of_decide_eq_true hnodup)).1 _ hm
    exact resolveInScope_of_node (of_decide_eq_true hnodup) hm
      (resolveAtNode_opens hnode hnames ho hl (ih (ho.unique_inner hnode) rfl rfl))

theorem Child.opens {inner : NodePath} {body : List WorkflowNode} (h : Child scope node inner body) :
    ∃ segment door, inner = scope ++ [segment] ∧ Opens node segment door body := by
  cases h with
  | arm hm =>
    obtain ⟨j, hj⟩ := List.mem_iff_getElem?.mp hm
    exact ⟨_, _, rfl, .arm hj⟩
  | loop => exact ⟨_, _, rfl, .loop⟩
  | item index => exact ⟨_, _, rfl, .item index⟩
  | workflow => exact ⟨_, _, rfl, .workflow⟩

theorem located_armStep {name : String} {arms : List StepDefinition} {arm : StepDefinition}
    (hm : .parallel name arms ∈ nodes) (harm : arm ∈ arms) :
    Locates nodes [{ name := name }, { name := arm.name }] (.step arm) .own :=
  .inside hm .parallel (.last (List.mem_map_of_mem harm) .step)

theorem located_runsAt (hm : node ∈ nodes) (h : RunsAt scope node key step) :
    ∃ rest, key = scope ++ rest ∧ Locates nodes rest (.step step) .own := by
  induction h generalizing nodes with
  | step => exact ⟨_, rfl, .last hm .step⟩
  | arm harm => exact ⟨_, List.append_assoc _ _ _, located_armStep hm harm⟩
  | inside hc hchild _ ih =>
    obtain ⟨segment, door, rfl, ho⟩ := hc.opens
    obtain ⟨rest, rfl, hl⟩ := ih hchild
    exact ⟨segment :: rest, by simp, .inside hm ho hl⟩

theorem names_staticKeyOf (path : NodePath) : (staticKeyOf path).map PathSegment.name = path.map PathSegment.name := by
  rw [staticKeyOf, staticPathOf, List.map_map]
  exact List.map_congr_left (fun segment _ => name_staticSegmentOf segment)

end KimchiWorkflows.Engine
