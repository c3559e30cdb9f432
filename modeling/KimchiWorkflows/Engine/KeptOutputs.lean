import KimchiWorkflows.Engine.ArmKeys
import KimchiWorkflows.Engine.KeptNotes

namespace KimchiWorkflows.Engine

open KimchiWorkflows.Flow Process Process.Proc

variable {env : RunEnv} {isArm : Bool} {key path parentPath : NodePath} {frames : List ScopeFrame}
  {name : String} {input : Value} {reentry : Option Reentry} {body : List Walked} {segment : PathSegment}
  {rest : NodePath}

def CarriesIn (node : WorkflowNode) (run : NodeRunner) : Prop :=
  ∀ input parentPath frames reentry segment rest isArm, segment.name ∈ scopeNames node →
    armAt node (segment :: rest) = isArm → segment :: rest ≠ [{ name := nodeName node }] →
    Carries isArm (staticPathOf parentPath ++ segment :: rest) (run input parentPath frames reentry)

/-- What a node does to the notes of its own key, of those inside it and of those outside. -/
structure Bookkept (node : WorkflowNode) (run : NodeRunner) : Prop where
  unique : (scopeNames node).Nodup
  stays : Stays node run
  marks : MarksOwn node run
  carries : CarriesIn node run

/-- In whichever lane the key is, it is in no other. -/
theorem carries_pool {tasks : List Code} {localLimit : Nat} {next : List (Option Settlement) → Code}
    (hlanes : ∀ task ∈ tasks, Carries isArm key task)
    (hquiet : ∀ (i j : Nat) (first second : Code), tasks[i]? = some first → tasks[j]? = some second → i ≠ j →
      first.Only (noteGhost key).Silent (fun _ => True) ∨ second.Only (noteGhost key).Silent (fun _ => True))
    (hnext : ∀ results, Carries isArm key (next results)) :
    Carries isArm key (runConcurrent tasks localLimit next) := by
  cases tasks with
  | nil => exact hnext []
  | cons first rest =>
    have hget : ∀ i, i < (first :: rest).length → (first :: rest)[i]? = some ((first :: rest).getD i first) := by
      intro i hi
      rw [List.getD_eq_getElem?_getD, List.getElem?_eq_getElem hi, Option.getD_some]
    obtain ⟨owner, howner, hothers⟩ : ∃ owner, owner < (first :: rest).length ∧
        ∀ i, i < (first :: rest).length → i ≠ owner →
          ((first :: rest).getD i first).Only (noteGhost key).Silent (fun _ => True) := by
      by_cases hloud : ∃ owner, owner < (first :: rest).length ∧
          ¬ ((first :: rest).getD owner first).Only (noteGhost key).Silent (fun _ => True)
      · obtain ⟨owner, howner, hown⟩ := hloud
        refine ⟨owner, howner, ?_⟩
        intro i hi hne
        obtain hquiet | hquiet := hquiet i owner _ _ (hget i hi) (hget owner howner) hne
        · exact hquiet
        · exact absurd hquiet hown
      · refine ⟨0, Nat.succ_pos _, ?_⟩
        intro i hi _
        by_contra h
        exact hloud ⟨i, hi, h⟩
    intro note hn
    have hcarries := hlanes _ (List.mem_of_getElem? (hget owner howner)) note hn
    refine ⟨owner, note, fun note' _ => note'.Kept isArm, fun _ => True, hothers, fun _ _ _ _ => trivial, ?_,
      fun _ => rfl, ?_⟩
    · dsimp only
      split_ifs
      · exact hcarries
      · exact ⟨rfl, hcarries⟩
    · rintro results note' ⟨-, hsettled⟩
      split at hsettled
      · exact hnext results note' hsettled
      · exact hnext results note' (hsettled ▸ hn)

section Sequence

theorem carries_walkNodes (hn : ∀ node ∈ body, Bookkept node.1 node.2)
    (hb : ∀ node ∈ body, ∀ segment rest, segment.name ∈ scopeNames node.1 →
      key = staticPathOf parentPath ++ segment :: rest → armAt node.1 (segment :: rest) = isArm) :
    Carries isArm key (walkNodes parentPath frames body input reentry) := by
  induction body generalizing input reentry with
  | nil => exact carries_conclude _
  | cons entry others ih =>
    obtain ⟨node, run⟩ := entry
    have hnode : Bookkept node run := hn (node, run) List.mem_cons_self
    have hrest : ∀ output, Carries isArm key (walkNodes parentPath frames others output none) :=
      fun output => ih (fun other ho => hn other (List.mem_cons_of_mem _ ho))
        (fun other ho => hb other (List.mem_cons_of_mem _ ho))
    have hstore : ∀ output, staticChildKey parentPath (nodeName node) ≠ key →
        Carries isArm key (.act (.setStepOutput (staticChildKey parentPath (nodeName node)) output)
          (walkNodes parentPath frames others output none)) :=
      fun output hne => carries_act (fun note => if_neg hne) (hrest output)
    refine carries_look ?_
    intro memory
    split
    · exact carries_conclude _
    by_cases hin : ∃ segment rest, segment.name ∈ scopeNames node ∧
        key = staticPathOf parentPath ++ segment :: rest
    · obtain ⟨segment, rest, hs, rfl⟩ := hin
      have harm := hb (node, run) List.mem_cons_self segment rest hs rfl
      by_cases hown : segment :: rest = [{ name := nodeName node }]
      · -- the node's own key: it settles, and is stored at once
        rw [hown, armAt_own hnode.unique] at harm
        subst harm
        obtain ⟨rfl, rfl⟩ := List.cons.inj hown
        intro note hk
        refine tracks_bind (hnode.marks input parentPath frames reentry note) ?_
        intro note' result hm
        cases result with
        | error error =>
          obtain rfl : note' = note := hm
          exact hk
        | ok outcome =>
          cases outcome with
          | ok output =>
            have hkept : (note'.next (staticChildKey parentPath (nodeName node))
                (.setStepOutput (staticChildKey parentPath (nodeName node)) output)).Kept false := kept_store hm
            exact hrest output _ hkept
          | _ =>
            obtain rfl : note' = note := hm
            exact hk
      · refine carries_ifOk (hnode.carries input parentPath frames reentry segment rest isArm hs harm hown) ?_
        intro output
        refine hstore output ?_
        intro he
        exact hown (List.append_cancel_left he).symm
    · have hquiet : ∀ path, Under (staticPathOf parentPath) (scopeNames node) path → staticKeyOf path ≠ key := by
        rintro path ⟨segment, hs, rest, hp⟩ rfl
        refine hin ⟨segment, rest, hs, ?_⟩
        rw [show staticKeyOf path = staticPathOf path from rfl, ← hp, List.append_assoc]
        rfl
      refine carries_ifOk (carries_silent (hnode.stays input parentPath frames reentry) hquiet) ?_
      intro output
      refine hstore output ?_
      rw [← staticKeyOf_appendSegment]
      exact hquiet _ (under_node (nodeName_mem_scopeNames node))

theorem carries_runNodeSequence {startIndex : Nat} (hn : ∀ node ∈ body, Bookkept node.1 node.2)
    (hu : ((body.map Prod.fst).flatMap scopeNames).Nodup)
    (hb : ∀ segment rest, key = staticPathOf path ++ segment :: rest →
      armIn (body.map Prod.fst) (segment :: rest) = isArm) :
    Carries isArm key (runNodeSequence body input path frames startIndex reentry) := by
  have hwalk : ∀ index input reentry,
      Carries isArm key (walkNodes path frames (body.drop index) input reentry) := by
    intro index input reentry
    refine carries_walkNodes (fun node hm => hn node (List.mem_of_mem_drop hm)) ?_
    intro node hm segment rest hs hkey
    rw [← armIn_eq hu (List.mem_map_of_mem (List.mem_of_mem_drop hm)) hs]
    exact hb segment rest hkey
  cases reentry with
  | none => exact hwalk startIndex input none
  | some active =>
    simp only [runNodeSequence]
    split
    · exact carries_raise _
    · split
      · exact carries_conclude _
      · exact carries_look (fun memory => hwalk _ _ _)

end Sequence

variable {nodes : List WorkflowNode} (hbody : body.map Prod.fst = nodes)
  (hn : ∀ node ∈ body, Bookkept node.1 node.2) (hu : (nodes.flatMap scopeNames).Nodup)

theorem ne_own (h : segment :: rest ≠ [{ name := name }]) :
    staticChildKey parentPath name ≠ staticPathOf parentPath ++ segment :: rest :=
  fun he => h (List.append_cancel_left he).symm

theorem carries_opening {event : RunEvent} {reentered : Bool} {code : Code}
    (he : ∀ note : Note, note.hear key event = note) (h : Carries isArm key code) :
    Carries isArm key (emitAll (if reentered then [] else [event]) code) := by
  cases reentered with
  | true => exact h
  | false => exact carries_emit (fun _ => he) h

theorem carries_checkpoint (h : staticKeyOf path ≠ key) (output : Value) (outcome : ExecOutcome) :
    Carries isArm key (emitNodeCompleted path output (conclude outcome)) :=
  carries_emit (fun _ => hear_other rfl h) (carries_conclude _)

include hbody hn hu

theorem carriesIn_runLoopNode {mode : LoopMode} {condition : RunContext → Value → Except String Bool}
    {maxIterations : Nat} : CarriesIn (.loop name mode nodes condition maxIterations)
      (runLoopNode env ⟨name, mode, condition, maxIterations⟩ body) := by
  subst hbody
  intro input parentPath frames reentry segment rest isArm hs harm hne
  have hkey : staticKeyOf (appendSegment parentPath name) ≠ staticPathOf parentPath ++ segment :: rest := by
    rw [staticKeyOf_appendSegment]
    exact ne_own hne
  have hround : ∀ iteration input frames reentry, Carries isArm (staticPathOf parentPath ++ segment :: rest)
      (runNodeSequence body input (appendLoopIteration parentPath name iteration) frames 0 reentry) := by
    intro iteration input frames reentry
    refine carries_runNodeSequence hn hu ?_
    intro inner others he
    rw [staticPathOf_appendLoopIteration, staticChildKey, List.append_assoc] at he
    obtain ⟨rfl, rfl⟩ := List.cons.inj (List.append_cancel_left he)
    simpa [armAt] using harm
  have hiterate : ∀ remaining iteration iterationInput reentry,
      Carries isArm (staticPathOf parentPath ++ segment :: rest)
        (iterate env ⟨name, mode, condition, maxIterations⟩ body parentPath frames remaining iteration
          iterationInput reentry) := by
    intro remaining
    induction remaining with
    | zero => exact fun _ _ _ => carries_conclude _
    | succ remaining ih =>
      intro iteration iterationInput reentry
      refine carries_look ?_
      intro memory
      split
      · exact carries_conclude _
      · refine carries_opening (fun _ => rfl) (carries_ifOk (hround _ _ _ _) ?_)
        intro output
        refine carries_look ?_
        intro memory
        split
        · exact carries_conclude _
        · split
          · exact carries_checkpoint hkey _ _
          · exact ih _ _ _
  cases reentry with
  | none => exact carries_emit (fun _ _ => rfl) (hiterate _ _ _ _)
  | some active =>
    simp only [runLoopNode]
    split
    · exact carries_raise _
    · exact carries_look (fun memory => hiterate _ _ _ _)

theorem carriesIn_runNestedWorkflowNode :
    CarriesIn (.workflow name nodes) (runNestedWorkflowNode name body) := by
  subst hbody
  intro input parentPath frames reentry segment rest isArm hs harm hne
  refine carries_opening (fun _ => rfl) (carries_ifOk (carries_runNodeSequence hn hu ?_) ?_)
  · intro inner others he
    rw [staticPathOf_appendSegment, staticChildKey, List.append_assoc] at he
    obtain ⟨rfl, rfl⟩ := List.cons.inj (List.append_cancel_left he)
    simpa [armAt] using harm
  · intro output
    refine carries_checkpoint ?_ _ _
    rw [staticKeyOf_appendSegment]
    exact ne_own hne

omit hbody hn hu

section Branch

theorem carries_runTakenArms {finish : Record → Code} {decisions : List DecidedArm} {result : Record}
    (hn : ∀ decision ∈ decisions, ∀ node ∈ decision.1.2, Bookkept node.1 node.2)
    (hu : ∀ decision ∈ decisions, ((decision.1.2.map Prod.fst).flatMap scopeNames).Nodup)
    (hown : ∀ decision ∈ decisions, key = staticChildKey parentPath decision.1.1.name → isArm = true)
    (hb : ∀ decision ∈ decisions, ∀ segment rest,
      key = staticChildKey parentPath decision.1.1.name ++ segment :: rest →
      armIn (decision.1.2.map Prod.fst) (segment :: rest) = isArm)
    (hf : ∀ result, Carries isArm key (finish result)) :
    Carries isArm key (runTakenArms input parentPath frames finish decisions result reentry) := by
  induction decisions generalizing result reentry with
  | nil => exact hf result
  | cons decision others ih =>
    obtain ⟨⟨arm, nodes⟩, taken⟩ := decision
    have hrest : ∀ result reentry,
        Carries isArm key (runTakenArms input parentPath frames finish others result reentry) :=
      fun result reentry => ih (fun d hd => hn d (List.mem_cons_of_mem _ hd))
        (fun d hd => hu d (List.mem_cons_of_mem _ hd)) (fun d hd => hown d (List.mem_cons_of_mem _ hd))
        (fun d hd => hb d (List.mem_cons_of_mem _ hd))
    have hrun : ∀ armReentry, Carries isArm key (runArm nodes input parentPath frames arm.name armReentry
        (fun output => runTakenArms input parentPath frames finish others (assign result arm.name output)
          none)) := by
      intro armReentry
      refine carries_look ?_
      intro memory
      split
      · exact carries_conclude _
      · refine carries_ifOk (carries_runNodeSequence (hn _ List.mem_cons_self) (hu _ List.mem_cons_self) ?_) ?_
        · intro segment rest he
          rw [staticPathOf_appendSegment] at he
          exact hb _ List.mem_cons_self segment rest he
        · intro output
          refine carries_emit ?_ (hrest _ _)
          intro hfalse
          refine hear_other rfl ?_
          rw [staticKeyOf_appendSegment]
          intro he
          rw [hown _ List.mem_cons_self he.symm] at hfalse
          cases hfalse
    cases taken with
    | false => exact hrest _ _
    | true =>
      simp only [runTakenArms, if_true]
      cases reentry with
      | none => exact hrun none
      | some active =>
        dsimp only
        split
        · exact carries_raise _
        · split
          · exact hrun _
          · exact carries_look (fun memory => hrest _ _)

theorem carriesIn_runBranchNode {arms : List BranchArm} {walkedArms : List WalkedArm}
    (hw : ∀ arm ∈ walkedArms, arm.1 ∈ arms ∧ arm.2.map Prod.fst = arm.1.body)
    (hn : ∀ arm ∈ walkedArms, ∀ node ∈ arm.2, Bookkept node.1 node.2)
    (hu : ∀ arm ∈ walkedArms, (arm.1.body.flatMap scopeNames).Nodup)
    (hname : (scopeNames (.branch name arms)).Nodup) :
    CarriesIn (.branch name arms) (runBranchNode env name walkedArms) := by
  intro input parentPath frames reentry segment rest isArm hs harm hne
  have hnodup := (List.nodup_cons.mp hname).2
  have hat : ∀ arm ∈ walkedArms, segment = { name := arm.1.name } →
      (rest.isEmpty || armIn arm.1.body rest) = isArm := by
    intro arm ha he
    rw [← armInArms_eq hnodup (hw arm ha).1, ← he]
    exact harm
  refine carries_opening (fun _ => rfl) ?_
  refine carries_look ?_
  intro memory
  split
  · exact carries_conclude _
  · rename_i decisions hd
    have hmem := mem_of_decideArms hd
    refine carries_emitAll ?_ (carries_runTakenArms ?_ ?_ ?_ ?_ ?_)
    · intro event he _ note
      split at he
      · cases he
      · obtain ⟨decision, -, rfl⟩ := List.mem_map.mp he
        rfl
    · exact fun decision hm => hn _ (hmem decision hm)
    · intro decision hm
      rw [(hw _ (hmem decision hm)).2]
      exact hu _ (hmem decision hm)
    · intro decision hm he
      obtain ⟨rfl, rfl⟩ := List.cons.inj (List.append_cancel_left he)
      rw [← hat _ (hmem decision hm) rfl]
      rfl
    · intro decision hm inner others he
      rw [staticChildKey, List.append_assoc] at he
      obtain ⟨rfl, rfl⟩ := List.cons.inj (List.append_cancel_left he)
      rw [(hw _ (hmem decision hm)).2, ← hat _ (hmem decision hm) rfl]
      rfl
    · intro result
      refine carries_checkpoint ?_ _ _
      rw [staticKeyOf_appendSegment]
      exact ne_own hne

end Branch

end KimchiWorkflows.Engine
