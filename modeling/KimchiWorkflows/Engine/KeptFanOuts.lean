import KimchiWorkflows.Engine.KeptOutputs
import KimchiWorkflows.Flow.Scopes

namespace KimchiWorkflows.Engine

open KimchiWorkflows.Flow Process Process.Proc

variable {env : RunEnv} {isArm : Bool} {key parentPath : NodePath} {frames : List ScopeFrame} {name : String}
  {input : Value} {reentry : Option Reentry} {body : List Walked} {segment : PathSegment} {rest : NodePath}

section Foreach

variable {each : ForeachDefinition} {items : List Value} {history : ItemHistory}
  (hn : ∀ node ∈ body, Bookkept node.1 node.2) (hu : ((body.map Prod.fst).flatMap scopeNames).Nodup)
  (hb : ∀ index segment rest, key = itemKey parentPath each.name index ++ segment :: rest →
    armIn (body.map Prod.fst) (segment :: rest) = isArm)
  (hown : staticChildKey parentPath each.name ≠ key)

include hn hu hb in
theorem carries_runItem {index : Nat} {next : ExecOutcome → Code} (h : ∀ outcome, Carries isArm key (next outcome)) :
    Carries isArm key (runItem each body parentPath frames items index input reentry next) := by
  refine carries_opening (fun _ => rfl) (carries_andThen (carries_runNodeSequence hn hu (hb index)) ?_)
  intro outcome
  refine carries_emitAll ?_ (h outcome)
  intro event he _ note
  cases outcome with
  | ok output =>
    rw [List.mem_singleton.mp he]
    rfl
  | _ => cases he

include hown in
theorem carries_completeForeach (results : List Value) :
    Carries isArm key (completeForeach each parentPath results) := by
  refine carries_checkpoint ?_ _ _
  rw [foreachPath, staticKeyOf_appendSegment]
  exact hown

include hn hu hb hown

theorem carries_runItemsFrom {remaining index : Nat} {results : List Value} {fed : Value} :
    Carries isArm key
      (runItemsFrom each body parentPath frames items remaining index results fed reentry) := by
  induction remaining generalizing index results fed reentry with
  | zero => exact carries_completeForeach hown results
  | succ remaining ih =>
    refine carries_look ?_
    intro memory
    split
    · exact carries_conclude _
    · refine carries_runItem hn hu hb ?_
      intro outcome
      cases outcome with
      | ok output => exact ih
      | _ => exact carries_conclude _

theorem carries_runForeachSequential :
    Carries isArm key (runForeachSequential each body parentPath frames items input history reentry) := by
  cases reentry with
  | none => exact carries_runItemsFrom hn hu hb hown
  | some active =>
    simp only [runForeachSequential]
    split
    · exact carries_raise _
    · exact carries_runItemsFrom hn hu hb hown

theorem carries_runForeachConcurrentFresh :
    Carries isArm key (runForeachConcurrentFresh each body parentPath frames items history) := by
  unfold runForeachConcurrentFresh
  refine carries_pool ?_ ?_ (fun results => carries_settleAll (carries_completeForeach hown _))
  · intro task ht
    obtain ⟨index, -, rfl⟩ := List.mem_map.mp ht
    exact carries_runItem hn hu hb (fun outcome => carries_conclude outcome)
  · intro i j first second hi hj hij
    rw [List.getElem?_map] at hi hj
    obtain ⟨k, hk, rfl⟩ := Option.map_eq_some_iff.mp hi
    obtain ⟨l, hl, rfl⟩ := Option.map_eq_some_iff.mp hj
    have hkl : k ≠ l := by
      rintro rfl
      have hnodup : ((List.range items.length).filter (fun index => !Dict.has history index)).Nodup :=
        List.nodup_range.filter _
      obtain ⟨hi', hget⟩ := List.getElem?_eq_some_iff.mp hk
      obtain ⟨hj', hget'⟩ := List.getElem?_eq_some_iff.mp hl
      exact hij ((hnodup.getElem_inj_iff).mp (hget.trans hget'.symm))
    have hitem : ∀ index, ¬ itemKey parentPath each.name index <+: key →
        (runItem each body parentPath frames items index (items.getD index .undefined) none conclude).Only
          (noteGhost key).Silent (fun _ => True) := by
      intro index hout
      have hc : Confined (Within (itemKey parentPath each.name index))
          (runItem each body parentPath frames items index (items.getD index .undefined) none conclude) :=
        confined_runItem (fun node hm => (hn node hm).stays) (fun _ => id)
          (fun outcome ho => confined_conclude ho)
      refine hc.silent ?_
      rintro path hp rfl
      exact hout hp
    by_cases hkey : itemKey parentPath each.name k <+: key
    · refine .inr (hitem l ?_)
      intro hlkey
      have hprefix := List.prefix_of_prefix_length_le hkey hlkey (by rw [length_itemKey, length_itemKey])
      have hsame := hprefix.eq_of_length (by rw [length_itemKey, length_itemKey])
      rw [itemKey, itemKey, staticPathOf_appendForeachItem, staticPathOf_appendForeachItem] at hsame
      have hlast := List.append_cancel_left hsame
      simp only [List.cons.injEq, PathSegment.mk.injEq, Option.some.injEq, Prod.mk.injEq, true_and, and_true] at hlast
      exact hkl hlast
    · exact .inl (hitem k hkey)

omit hown in
theorem carries_runExtraItems {finish : List (Nat × ExecOutcome) → Code} {toRun : List Nat}
    {settled : List (Nat × ExecOutcome)} (h : ∀ settled, Carries isArm key (finish settled)) :
    Carries isArm key (runExtraItems each body parentPath frames items finish toRun settled) := by
  induction toRun generalizing settled with
  | nil => exact h settled
  | cons index rest ih =>
    refine carries_look ?_
    intro memory
    split
    · exact h _
    · exact carries_runItem hn hu hb (fun outcome => ih)

theorem carries_runForeachConcurrentReentry {active : Reentry} :
    Carries isArm key (runForeachConcurrentReentry each body parentPath frames items env history active) := by
  unfold runForeachConcurrentReentry
  split
  · exact carries_raise _
  · refine carries_runItem hn hu hb ?_
    intro outcome
    refine carries_runExtraItems hn hu hb ?_
    exact fun settled => carries_settleConcurrent (carries_completeForeach hown _)

theorem carries_runForeachNode :
    Carries isArm key (runForeachNode env each body input parentPath frames reentry) := by
  refine carries_look ?_
  intro memory
  dsimp only
  split
  · exact carries_conclude _
  · refine carries_opening (fun _ => rfl) ?_
    split
    · exact carries_runForeachSequential hn hu hb hown
    · split
      · exact carries_runForeachConcurrentReentry hn hu hb hown
      · exact carries_runForeachConcurrentFresh hn hu hb hown
  · exact carries_conclude _

omit hn hu hb hown

theorem carriesIn_runForeachNode (hn : ∀ node ∈ body, Bookkept node.1 node.2)
    (hu : ((body.map Prod.fst).flatMap scopeNames).Nodup) :
    CarriesIn (.foreach each.name (body.map Prod.fst) each.selector each.concurrency each.feedback)
      (runForeachNode env each body) := by
  intro input parentPath frames reentry segment rest isArm hs harm hne
  refine carries_runForeachNode hn hu ?_ (ne_own hne)
  intro index inner others he
  rw [itemKey, staticPathOf_appendForeachItem, List.append_assoc] at he
  obtain ⟨rfl, rfl⟩ := List.cons.inj (List.append_cancel_left he)
  simpa [armAt] using harm

end Foreach

section Parallel

variable {arms : List StepDefinition} {parallelPath : NodePath}
  (hb : ∀ arm ∈ arms, key = staticChildKey parallelPath arm.name → isArm = true)
  (hown : staticKeyOf parallelPath ≠ key)

theorem silent_arm {arm : StepDefinition} (h : staticChildKey parallelPath arm.name ≠ key) :
    (runStepNode env arm input parallelPath frames reentry).Only (noteGhost key).Silent (fun _ => True) := by
  refine (confined_runStepNode arm input reentry).silent ?_
  rintro path rfl
  rw [staticKeyOf_appendSegment]
  exact h

theorem carries_arm {arm : StepDefinition} (h : key = staticChildKey parallelPath arm.name → isArm = true) :
    Carries isArm key (runStepNode env arm input parallelPath frames reentry) := by
  by_cases hkey : key = staticChildKey parallelPath arm.name
  · rw [h hkey, hkey]
    exact carries_marks (fun note => marksOwn_runStepNode arm _ _ _ _ note)
  · refine carries_silent (confined_runStepNode arm input reentry) ?_
    rintro path rfl
    rw [staticKeyOf_appendSegment]
    exact Ne.symm hkey

include hown in
theorem carries_completeParallel (output : Record) : Carries isArm key (completeParallel parallelPath output) :=
  carries_checkpoint hown _ _

include hb hown

theorem carries_runParallelFresh (hu : (arms.map StepDefinition.name).Nodup) :
    Carries isArm key (runParallelFresh env arms input parallelPath frames) := by
  refine carries_emit (fun _ _ => rfl) (carries_pool ?_ ?_
    (fun results => carries_settleAll (carries_completeParallel hown _)))
  · intro task ht
    obtain ⟨arm, ha, rfl⟩ := List.mem_map.mp ht
    exact carries_arm (hb arm ha)
  · intro i j first second hi hj hij
    rw [List.getElem?_map] at hi hj
    obtain ⟨arm, ha, rfl⟩ := Option.map_eq_some_iff.mp hi
    obtain ⟨other, ho, rfl⟩ := Option.map_eq_some_iff.mp hj
    by_cases hkey : staticChildKey parallelPath arm.name = key
    · refine .inr (silent_arm ?_)
      rintro hother
      have hname : arm.name = other.name := by
        have := List.append_cancel_left (hkey.trans hother.symm)
        simpa using this
      have hi' : (arms.map StepDefinition.name)[i]? = some arm.name := by rw [List.getElem?_map, ha]; rfl
      have hj' : (arms.map StepDefinition.name)[j]? = some arm.name := by rw [List.getElem?_map, ho, hname]; rfl
      obtain ⟨hlt, hget⟩ := List.getElem?_eq_some_iff.mp hi'
      obtain ⟨hlt', hget'⟩ := List.getElem?_eq_some_iff.mp hj'
      exact hij ((hu.getElem_inj_iff).mp (hget.trans hget'.symm))
    · exact .inl (silent_arm hkey)

theorem carries_reenterArms {active : Reentry} {targetName : String} {gathered : Gathered} :
    Carries isArm key (reenterArms env input parallelPath frames active targetName
      (settleReentry name targetName parallelPath) arms gathered) := by
  induction arms generalizing gathered with
  | nil =>
    simp only [reenterArms, settleReentry]
    split
    · exact carries_raise _
    · exact carries_settleConcurrent (carries_completeParallel hown _)
  | cons arm rest ih =>
    have hrest : ∀ gathered, Carries isArm key (reenterArms env input parallelPath frames active targetName
        (settleReentry name targetName parallelPath) rest gathered) :=
      fun gathered => ih (fun other ho => hb other (List.mem_cons_of_mem _ ho))
    have harm : ∀ reentry, Carries isArm key (runStepNode env arm input parallelPath frames reentry) :=
      fun reentry => carries_arm (hb arm List.mem_cons_self)
    simp only [reenterArms]
    split
    · exact carries_andThen (harm _) (fun outcome => hrest _)
    · refine carries_look ?_
      intro memory
      split
      · exact hrest _
      · split
        · exact hrest _
        · split
          · exact hrest _
          · exact carries_andThen (harm _) (fun outcome => hrest _)

omit hb hown

theorem carriesIn_runParallelNode (hu : (arms.map StepDefinition.name).Nodup) :
    CarriesIn (.parallel name arms) (runParallelNode env name arms) := by
  intro input parentPath frames reentry segment rest isArm hs harm hne
  have hown : staticKeyOf (appendSegment parentPath name) ≠ staticPathOf parentPath ++ segment :: rest := by
    rw [staticKeyOf_appendSegment]
    exact ne_own hne
  have hb : ∀ arm ∈ arms, staticPathOf parentPath ++ segment :: rest =
      staticChildKey (appendSegment parentPath name) arm.name → isArm = true := by
    intro arm ha he
    rw [staticChildKey, staticPathOf_appendSegment, staticChildKey, List.append_assoc] at he
    rw [← harm, List.append_cancel_left he]
    exact List.any_eq_true.mpr ⟨arm, ha, by simp⟩
  cases reentry with
  | none => exact carries_runParallelFresh hb hown hu
  | some active =>
    simp only [runParallelNode, runParallelReentry]
    split
    · exact carries_raise _
    · exact carries_reenterArms hb hown

end Parallel

mutual

theorem bookkept_runNode (henv : PendingByKey env) (node : WorkflowNode) (hu : (scopeNames node).Nodup)
    (h : scopesUniqueUnder node = true) : Bookkept node (runNode env node) := by
  refine ⟨hu, stays_runNode henv node, marksOwn_runNode henv node hu, ?_⟩
  cases node with
  | step step =>
    intro input parentPath frames reentry segment rest isArm hs harm hne
    have hconfined : Confined (fun path => path = appendSegment parentPath step.name)
        (runStepNode env step input parentPath frames reentry) := confined_runStepNode step input reentry
    refine carries_silent hconfined ?_
    rintro path rfl
    rw [staticKeyOf_appendSegment]
    exact ne_own hne
  | branch name arms =>
    have harms := bookkept_walkedArms henv arms h
    exact carriesIn_runBranchNode (fun arm ha => (harms arm ha).1) (fun arm ha => (harms arm ha).2.2)
      (fun arm ha => (harms arm ha).2.1) hu
  | loop name mode body condition maxIterations =>
    obtain ⟨hnodup, hbody⟩ := (Bool.and_eq_true _ _).mp h
    exact carriesIn_runLoopNode (map_fst_walked env body)
      (bookkept_walked henv body (of_decide_eq_true hnodup) hbody) (of_decide_eq_true hnodup)
  | foreach name body selector concurrency feedback =>
    obtain ⟨hnodup, hbody⟩ := (Bool.and_eq_true _ _).mp h
    have hfst := map_fst_walked env body
    have hcarries := @carriesIn_runForeachNode env (walked env body) ⟨name, selector, concurrency, feedback⟩
      (bookkept_walked henv body (of_decide_eq_true hnodup) hbody) (hfst.symm ▸ of_decide_eq_true hnodup)
    rwa [hfst] at hcarries
  | parallel name arms => exact carriesIn_runParallelNode (of_decide_eq_true h)
  | workflow name nodes =>
    obtain ⟨hnodup, hbody⟩ := (Bool.and_eq_true _ _).mp h
    exact carriesIn_runNestedWorkflowNode (map_fst_walked env nodes)
      (bookkept_walked henv nodes (of_decide_eq_true hnodup) hbody) (of_decide_eq_true hnodup)

theorem bookkept_walked (henv : PendingByKey env) (nodes : List WorkflowNode)
    (hu : (nodes.flatMap scopeNames).Nodup) (h : scopesUniqueIn nodes = true) :
    ∀ node ∈ walked env nodes, Bookkept node.1 node.2 := by
  cases nodes with
  | nil => simp [walked]
  | cons node rest =>
    obtain ⟨hnode, hrest, -⟩ := List.nodup_append'.mp (by simpa using hu)
    obtain ⟨hunder, hothers⟩ := (Bool.and_eq_true _ _).mp h
    intro other ho
    rcases List.mem_cons.mp ho with rfl | ho
    · exact bookkept_runNode henv node hnode hunder
    · exact bookkept_walked henv rest hrest hothers other ho

theorem bookkept_walkedArms (henv : PendingByKey env) (arms : List BranchArm)
    (h : scopesUniqueInArms arms = true) :
    ∀ arm ∈ walkedArms env arms, (arm.1 ∈ arms ∧ arm.2.map Prod.fst = arm.1.body) ∧
      (arm.1.body.flatMap scopeNames).Nodup ∧ ∀ node ∈ arm.2, Bookkept node.1 node.2 := by
  match arms with
  | [] => simp [walkedArms]
  | .mk name condition body :: rest =>
    obtain ⟨hfirst, hrest⟩ := (Bool.and_eq_true _ _).mp h
    obtain ⟨hnodup, hbody⟩ := (Bool.and_eq_true _ _).mp hfirst
    intro arm ha
    rcases List.mem_cons.mp ha with rfl | ha
    · exact ⟨⟨List.mem_cons_self, map_fst_walked env body⟩, of_decide_eq_true hnodup,
        bookkept_walked henv body (of_decide_eq_true hnodup) hbody⟩
    · obtain ⟨⟨hm, hfst⟩, hrest⟩ := bookkept_walkedArms henv rest hrest arm ha
      exact ⟨⟨List.mem_cons_of_mem _ hm, hfst⟩, hrest⟩

end

end KimchiWorkflows.Engine
