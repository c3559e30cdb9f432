import KimchiWorkflows.Engine.FanOutConfinement

/-!
The keys that belong to the arms of branches and parallels, read from a scope on.
-/

namespace KimchiWorkflows.Engine

open KimchiWorkflows.Flow

mutual

def armAt : WorkflowNode → NodePath → Bool
  | .step _, _ => false
  | .branch _ arms, key => armInArms arms key
  | .loop name _ body _ _, key => decide (key.head? = some { name := name }) && armIn body key.tail
  | .foreach name body _ _ _, key =>
    key.head?.any (fun segment => segment.name = name && segment.index.any (fun index => index.1 = .foreach)) &&
      armIn body key.tail
  | .parallel name arms, key => arms.any (fun arm => key = [{ name := name }, { name := arm.name }])
  | .workflow name nodes, key => decide (key.head? = some { name := name }) && armIn nodes key.tail

def armIn : List WorkflowNode → NodePath → Bool
  | [], _ => false
  | node :: rest, key => armAt node key || armIn rest key

def armInArms : List BranchArm → NodePath → Bool
  | [], _ => false
  | .mk name _ body :: rest, key =>
    (decide (key.head? = some { name := name }) && (key.tail.isEmpty || armIn body key.tail)) || armInArms rest key

end

variable {nodes : List WorkflowNode} {node : WorkflowNode} {arms : List BranchArm} {key rest : NodePath}
  {segment : PathSegment}

theorem head_of_armInArms (h : armInArms arms (segment :: rest) = true) :
    segment.name ∈ arms.map BranchArm.name := by
  induction arms with
  | nil => cases h
  | cons arm others ih =>
    obtain ⟨name, condition, body⟩ := arm
    rw [armInArms, Bool.or_eq_true, Bool.and_eq_true] at h
    obtain ⟨hhead, -⟩ | hrest := h
    · have hs : segment = { name := name } := by simpa using hhead
      rw [hs]
      exact List.mem_cons_self
    · exact List.mem_cons_of_mem _ (ih hrest)

theorem armInArms_nil (arms : List BranchArm) : armInArms arms [] = false := by
  induction arms with
  | nil => rfl
  | cons arm others ih =>
    obtain ⟨name, condition, body⟩ := arm
    rw [armInArms, ih]
    rfl

theorem armAt_nil (node : WorkflowNode) : armAt node [] = false := by
  cases node with
  | branch name arms => exact armInArms_nil arms
  | parallel name arms => simp [armAt]
  | _ => rfl

theorem head_of_armAt (h : armAt node (segment :: rest) = true) : segment.name ∈ scopeNames node := by
  cases node with
  | step step => cases h
  | branch name arms => exact List.mem_cons_of_mem _ (head_of_armInArms h)
  | parallel name arms =>
    obtain ⟨arm, -, ha⟩ := List.any_eq_true.mp h
    have hs : segment = { name := name } := (List.cons.inj (of_decide_eq_true ha)).1
    rw [hs]
    exact List.mem_singleton_self _
  | foreach name body selector concurrency feedback =>
    rw [armAt, Bool.and_eq_true] at h
    have hs : segment.name = name := by
      have := h.1
      simp only [List.head?_cons, Option.any_some, Bool.and_eq_true, decide_eq_true_eq] at this
      exact this.1
    rw [hs]
    exact List.mem_singleton_self _
  | loop name mode body condition maxIterations =>
    rw [armAt, Bool.and_eq_true] at h
    have hs : segment = { name := name } := by simpa using h.1
    rw [hs]
    exact List.mem_singleton_self _
  | workflow name nodes =>
    rw [armAt, Bool.and_eq_true] at h
    have hs : segment = { name := name } := by simpa using h.1
    rw [hs]
    exact List.mem_singleton_self _

theorem armIn_eq_false (h : ∀ node ∈ nodes, segment.name ∉ scopeNames node) : armIn nodes (segment :: rest) = false := by
  induction nodes with
  | nil => rfl
  | cons node others ih =>
    have hnode : armAt node (segment :: rest) = false := by
      rw [Bool.eq_false_iff]
      exact fun ha => h node List.mem_cons_self (head_of_armAt ha)
    rw [armIn, hnode, ih (fun other ho => h other (List.mem_cons_of_mem _ ho))]
    rfl

theorem armIn_eq (hu : (nodes.flatMap scopeNames).Nodup) (hm : node ∈ nodes)
    (hs : segment.name ∈ scopeNames node) : armIn nodes (segment :: rest) = armAt node (segment :: rest) := by
  induction nodes with
  | nil => cases hm
  | cons other others ih =>
    obtain ⟨-, hrest, hdisjoint⟩ := List.nodup_append'.mp (by simpa using hu)
    rw [armIn]
    obtain rfl | hm := List.mem_cons.mp hm
    · rw [armIn_eq_false (fun next hn hsn => hdisjoint hs (List.mem_flatMap.mpr ⟨next, hn, hsn⟩)), Bool.or_false]
    · have hother : armAt other (segment :: rest) = false := by
        rw [Bool.eq_false_iff]
        exact fun ha => hdisjoint (head_of_armAt ha) (List.mem_flatMap.mpr ⟨node, hm, hs⟩)
      rw [hother, Bool.false_or, ih hrest hm]

theorem armIn_nil (nodes : List WorkflowNode) : armIn nodes [] = false := by
  induction nodes with
  | nil => rfl
  | cons node rest ih => rw [armIn, armAt_nil, ih, Bool.or_false]

theorem armAt_own (hu : (scopeNames node).Nodup) : armAt node [{ name := nodeName node }] = false := by
  cases node with
  | step step => rfl
  | branch name arms =>
    rw [Bool.eq_false_iff]
    exact fun ha => (List.nodup_cons.mp hu).1 (head_of_armInArms ha)
  | parallel name arms => simp [armAt]
  | loop name mode body condition maxIterations => simp [armAt, armIn_nil]
  | foreach name body selector concurrency feedback => simp [armAt, armIn_nil]
  | workflow name nodes => simp [armAt, armIn_nil]

theorem armInArms_eq {arm : BranchArm} (hu : (arms.map BranchArm.name).Nodup) (ha : arm ∈ arms) :
    armInArms arms ({ name := arm.name } :: rest) = (rest.isEmpty || armIn arm.body rest) := by
  induction arms with
  | nil => cases ha
  | cons other others ih =>
    obtain ⟨name, condition, body⟩ := other
    obtain ⟨hnew, hrest⟩ := List.nodup_cons.mp hu
    rw [armInArms]
    obtain rfl | ha := List.mem_cons.mp ha
    · have hothers : armInArms others ({ name := name } :: rest) = false := by
        rw [Bool.eq_false_iff]
        exact fun h => hnew (head_of_armInArms h)
      simp [BranchArm.name, BranchArm.body, hothers]
    · have hne : arm.name ≠ name := fun he => hnew (List.mem_map.mpr ⟨arm, ha, he⟩)
      rw [ih hrest ha]
      simp [hne]

end KimchiWorkflows.Engine
