import KimchiWorkflows.Engine.Walker
import KimchiWorkflows.Testing.MirroredNodes

/-!
A tree and the tree rebuilt with overrides run alike, node by node.
-/

namespace KimchiWorkflows.Testing

open KimchiWorkflows.Flow KimchiWorkflows.Engine Process Process.Proc

variable {overrides : StepOverrides} {env : RunEnv} {parentPath : NodePath} {frames : List ScopeFrame}
  {input : Value} {reentry : Option Reentry} {body body' : List Walked}

def RunsAlike (overrides : StepOverrides) (run run' : NodeRunner) : Prop :=
  ∀ input parentPath frames reentry,
    Mirrored overrides (run input parentPath frames reentry) (run' input parentPath frames reentry)

structure WalksAlike (overrides : StepOverrides) (node node' : Walked) : Prop where
  name : nodeName node'.1 = nodeName node.1
  target : ∀ targetName, matchesReentryTarget targetName node'.1 = matchesReentryTarget targetName node.1
  runs : RunsAlike overrides node.2 node'.2

abbrev BodiesAlike (overrides : StepOverrides) (body body' : List Walked) : Prop :=
  List.Forall₂ (WalksAlike overrides) body body'

theorem BodiesAlike.names (h : BodiesAlike overrides body body') :
    body'.map (fun node => nodeName node.1) = body.map (fun node => nodeName node.1) := by
  induction h with
  | nil => rfl
  | cons hnode _ ih => rw [List.map_cons, List.map_cons, hnode.name, ih]

theorem BodiesAlike.findIdx (h : BodiesAlike overrides body body') (targetName : String) :
    body'.findIdx? (fun node => matchesReentryTarget targetName node.1) =
      body.findIdx? (fun node => matchesReentryTarget targetName node.1) := by
  induction h with
  | nil => rfl
  | cons hnode _ ih => rw [List.findIdx?_cons, List.findIdx?_cons, hnode.target, ih]

theorem elim_of_names {α : Type} {found found' : Option Walked} (default : α) (read : String → α)
    (h : found'.map (fun node => nodeName node.1) = found.map (fun node => nodeName node.1)) :
    found'.elim default (fun node => read (nodeName node.1)) = found.elim default (fun node => read (nodeName node.1)) := by
  cases found with
  | none =>
    cases found' with
    | none => rfl
    | some node => cases h
  | some node =>
    cases found' with
    | none => cases h
    | some node' => exact congrArg read (Option.some.inj h)

theorem recoveredInput_alike (h : BodiesAlike overrides body body') (index : Nat) (memory : RunMemory) :
    recoveredInput body' index input parentPath memory = recoveredInput body index input parentPath memory := by
  cases index with
  | zero => rfl
  | succ before =>
    refine elim_of_names input (fun name => memory.outputAt (staticChildKey parentPath name)) ?_
    rw [← List.getElem?_map, ← List.getElem?_map, h.names]

theorem reseededInput_alike (h : BodiesAlike overrides body body') (loopName : String) (iteration : Nat)
    (memory : RunMemory) : reseededInput body' loopName parentPath iteration input memory =
      reseededInput body loopName parentPath iteration input memory := by
  unfold reseededInput
  have hlast := elim_of_names Value.undefined
    (fun name => memory.outputAt (staticChildKey parentPath loopName ++ [{ name := name }]))
    (show (body'.getLast?).map _ = (body.getLast?).map _ by rw [← List.getLast?_map, ← List.getLast?_map, h.names])
  dsimp only at hlast ⊢
  rw [hlast]

theorem mirrored_walkNodes (h : BodiesAlike overrides body body') :
    Mirrored overrides (walkNodes parentPath frames body input reentry) (walkNodes parentPath frames body' input reentry) := by
  induction h generalizing input reentry with
  | nil => exact mirrored_conclude _
  | @cons node node' rest rest' hnode _ ih =>
    obtain ⟨node, run⟩ := node
    obtain ⟨node', run'⟩ := node'
    refine .look (fun memory => ?_)
    split
    · exact mirrored_conclude _
    · refine mirrored_ifOk (hnode.runs _ _ _ _) ?_
      intro output
      rw [show nodeName node' = nodeName node from hnode.name]
      exact .act _ ih

theorem mirrored_runNodeSequence (h : BodiesAlike overrides body body') (startIndex : Nat) :
    Mirrored overrides (runNodeSequence body input parentPath frames startIndex reentry)
      (runNodeSequence body' input parentPath frames startIndex reentry) := by
  have hdrop : ∀ index, BodiesAlike overrides (body.drop index) (body'.drop index) :=
    fun index => List.forall₂_drop index h
  cases reentry with
  | none => exact mirrored_walkNodes (hdrop _)
  | some active =>
    simp only [runNodeSequence]
    split
    · exact mirrored_raise _
    · rename_i targetName _
      rw [h.findIdx targetName]
      split
      · exact mirrored_conclude _
      · refine .look (fun memory => ?_)
        rw [recoveredInput_alike h]
        exact mirrored_walkNodes (hdrop _)

section Branch

structure ArmsAlike (overrides : StepOverrides) (arm arm' : WalkedArm) : Prop where
  name : arm'.1.name = arm.1.name
  condition : arm'.1.condition = arm.1.condition
  body : BodiesAlike overrides arm.2 arm'.2

def DecidedAlike (overrides : StepOverrides) (decision decision' : DecidedArm) : Prop :=
  ArmsAlike overrides decision.1 decision'.1 ∧ decision'.2 = decision.2

theorem decideArms_alike {arms arms' : List WalkedArm} (h : List.Forall₂ (ArmsAlike overrides) arms arms')
    (branchName : String) (ctx : RunContext) :
    (∃ error, decideArms branchName ctx arms = .error error ∧ decideArms branchName ctx arms' = .error error) ∨
      ∃ decisions decisions', decideArms branchName ctx arms = .ok decisions ∧
        decideArms branchName ctx arms' = .ok decisions' ∧
        List.Forall₂ (DecidedAlike overrides) decisions decisions' := by
  induction h with
  | nil => exact .inr ⟨[], [], rfl, rfl, .nil⟩
  | @cons arm arm' rest rest' harm _ ih =>
    simp only [decideArms, harm.name, harm.condition]
    cases invokeCallback ("branch \"" ++ branchName ++ "\" condition for arm \"" ++ arm.1.name ++ "\"")
        (arm.1.condition ctx) with
    | error error => exact .inl ⟨error, rfl, rfl⟩
    | ok taken =>
      obtain ⟨error, he, he'⟩ | ⟨decisions, decisions', hd, hd', hall⟩ := ih
      · exact .inl ⟨error, by rw [he]; rfl, by rw [he']; rfl⟩
      · exact .inr ⟨(arm, taken) :: decisions, (arm', taken) :: decisions', by rw [hd]; rfl, by rw [hd']; rfl,
          .cons ⟨harm, rfl⟩ hall⟩

theorem armEvents_alike {decisions decisions' : List DecidedArm}
    (h : List.Forall₂ (DecidedAlike overrides) decisions decisions') :
    armEvents parentPath decisions' = armEvents parentPath decisions := by
  induction h with
  | nil => rfl
  | cons hd _ ih =>
    simp only [armEvents, List.map_cons] at ih ⊢
    rw [ih, hd.1.name, hd.2]

theorem mirrored_runTakenArms {decisions decisions' : List DecidedArm} {finish : Record → Code}
    (h : List.Forall₂ (DecidedAlike overrides) decisions decisions')
    (hf : ∀ result, Mirrored overrides (finish result) (finish result)) (result : Record) :
    Mirrored overrides (runTakenArms input parentPath frames finish decisions result reentry)
      (runTakenArms input parentPath frames finish decisions' result reentry) := by
  induction h generalizing result reentry with
  | nil => exact hf result
  | @cons decision decision' rest rest' hd _ ih =>
    obtain ⟨⟨arm, nodes⟩, taken⟩ := decision
    obtain ⟨⟨arm', nodes'⟩, taken'⟩ := decision'
    obtain ⟨harm, htaken⟩ := hd
    have hname : arm'.name = arm.name := harm.name
    obtain rfl : taken' = taken := htaken
    have hrun : ∀ armReentry, Mirrored overrides
        (runArm nodes input parentPath frames arm.name armReentry (fun output =>
          runTakenArms input parentPath frames finish rest (assign result arm.name output) none))
        (runArm nodes' input parentPath frames arm.name armReentry (fun output =>
          runTakenArms input parentPath frames finish rest' (assign result arm.name output) none)) := by
      intro armReentry
      refine .look (fun memory => ?_)
      split
      · exact mirrored_conclude _
      · exact mirrored_ifOk (mirrored_runNodeSequence harm.body _) (fun output => mirrored_emit _ (ih _))
    cases taken' with
    | false => exact ih _
    | true =>
      simp only [runTakenArms, if_true, hname]
      cases reentry with
      | none => exact hrun none
      | some active =>
        dsimp only
        split
        · exact mirrored_raise _
        · split_ifs
          · exact hrun _
          · exact .look (fun memory => ih _)

theorem runsAlike_runBranchNode {name : String} {arms arms' : List WalkedArm}
    (h : List.Forall₂ (ArmsAlike overrides) arms arms') :
    RunsAlike overrides (runBranchNode env name arms) (runBranchNode env name arms') := by
  intro input parentPath frames reentry
  refine mirrored_emitAll _ (.look (fun memory => ?_))
  obtain ⟨error, he, he'⟩ | ⟨decisions, decisions', hd, hd', hall⟩ :=
    decideArms_alike h name (createRunContext env memory parentPath frames (appendSegment parentPath name))
  · simp only [he, he']
    exact mirrored_conclude _
  · simp only [hd, hd', armEvents_alike hall]
    exact mirrored_emitAll _ (mirrored_runTakenArms hall (fun result => mirrored_emit _ (mirrored_conclude _)) _)

end Branch

section Loop

variable {loop : LoopDefinition}

theorem mirrored_iterate (h : BodiesAlike overrides body body') (remaining iteration : Nat) :
    Mirrored overrides (iterate env loop body parentPath frames remaining iteration input reentry)
      (iterate env loop body' parentPath frames remaining iteration input reentry) := by
  induction remaining generalizing iteration input reentry with
  | zero => exact mirrored_conclude _
  | succ remaining ih =>
    refine .look (fun memory => ?_)
    split
    · exact mirrored_conclude _
    · refine mirrored_emitAll _ (mirrored_ifOk (mirrored_runNodeSequence h _) (fun output => .look (fun memory => ?_)))
      split
      · exact mirrored_conclude _
      · split_ifs
        · exact mirrored_emit _ (mirrored_conclude _)
        · exact ih _

theorem runsAlike_runLoopNode (h : BodiesAlike overrides body body') :
    RunsAlike overrides (runLoopNode env loop body) (runLoopNode env loop body') := by
  intro input parentPath frames reentry
  cases reentry with
  | none => exact mirrored_emit _ (mirrored_iterate h _ _)
  | some active =>
    simp only [runLoopNode]
    split
    · exact mirrored_raise _
    · refine .look (fun memory => ?_)
      rw [reseededInput_alike h]
      exact mirrored_iterate h _ _

end Loop

theorem runsAlike_runNestedWorkflowNode {name : String} (h : BodiesAlike overrides body body') :
    RunsAlike overrides (runNestedWorkflowNode name body) (runNestedWorkflowNode name body') := by
  intro input parentPath frames reentry
  exact mirrored_emitAll _ (mirrored_ifOk (mirrored_runNodeSequence h _)
    (fun output => mirrored_emit _ (mirrored_conclude _)))

section Foreach

variable {each : ForeachDefinition} {items : List Value} {history : ItemHistory}

theorem mirrored_completeForeach (results : List Value) :
    Mirrored overrides (completeForeach each parentPath results) (completeForeach each parentPath results) :=
  mirrored_emit _ (mirrored_conclude _)

variable (h : BodiesAlike overrides body body')

include h

theorem mirrored_runItem (index : Nat) {next next' : ExecOutcome → Code}
    (hn : ∀ outcome, Mirrored overrides (next outcome) (next' outcome)) :
    Mirrored overrides (runItem each body parentPath frames items index input reentry next)
      (runItem each body' parentPath frames items index input reentry next') :=
  mirrored_emitAll _ (mirrored_andThen (mirrored_runNodeSequence h _) (fun outcome => mirrored_emitAll _ (hn outcome)))

theorem mirrored_runItemsFrom (remaining index : Nat) (results : List Value) (fed : Value) :
    Mirrored overrides (runItemsFrom each body parentPath frames items remaining index results fed reentry)
      (runItemsFrom each body' parentPath frames items remaining index results fed reentry) := by
  induction remaining generalizing index results fed reentry with
  | zero => exact mirrored_completeForeach results
  | succ remaining ih =>
    refine .look (fun memory => ?_)
    split
    · exact mirrored_conclude _
    · refine mirrored_runItem h _ ?_
      intro outcome
      cases outcome with
      | ok output => exact ih _ _ _
      | _ => exact mirrored_conclude _

theorem mirrored_runForeachSequential :
    Mirrored overrides (runForeachSequential each body parentPath frames items input history reentry)
      (runForeachSequential each body' parentPath frames items input history reentry) := by
  cases reentry with
  | none => exact mirrored_runItemsFrom h _ _ _ _
  | some active =>
    simp only [runForeachSequential]
    split
    · exact mirrored_raise _
    · exact mirrored_runItemsFrom h _ _ _ _

theorem mirrored_runForeachConcurrentFresh :
    Mirrored overrides (runForeachConcurrentFresh each body parentPath frames items history)
      (runForeachConcurrentFresh each body' parentPath frames items history) := by
  unfold runForeachConcurrentFresh
  refine mirrored_runConcurrent _ ?_ ?_
  · rw [List.forall₂_map_left_iff, List.forall₂_map_right_iff, List.forall₂_same]
    exact fun index _ => mirrored_runItem h index (fun outcome => mirrored_conclude _)
  · exact fun results => mirrored_settleAll _ (mirrored_completeForeach _)

theorem mirrored_runExtraItems {finish : List (Nat × ExecOutcome) → Code}
    (hf : ∀ settled, Mirrored overrides (finish settled) (finish settled)) (toRun : List Nat)
    (settled : List (Nat × ExecOutcome)) :
    Mirrored overrides (runExtraItems each body parentPath frames items finish toRun settled)
      (runExtraItems each body' parentPath frames items finish toRun settled) := by
  induction toRun generalizing settled with
  | nil => exact hf settled
  | cons index rest ih =>
    refine .look (fun memory => ?_)
    split
    · exact hf _
    · exact mirrored_runItem h _ (fun outcome => ih _)

theorem mirrored_runForeachConcurrentReentry (active : Reentry) :
    Mirrored overrides (runForeachConcurrentReentry each body parentPath frames items env history active)
      (runForeachConcurrentReentry each body' parentPath frames items env history active) := by
  unfold runForeachConcurrentReentry
  split
  · exact mirrored_raise _
  · refine mirrored_runItem h _ (fun outcome => mirrored_runExtraItems h (fun settled => ?_) _ _)
    exact mirrored_settleConcurrent _ _ (mirrored_completeForeach _)

theorem runsAlike_runForeachNode : RunsAlike overrides (runForeachNode env each body) (runForeachNode env each body') := by
  intro input parentPath frames reentry
  refine .look (fun memory => ?_)
  dsimp only
  split
  · exact mirrored_conclude _
  · refine mirrored_emitAll _ ?_
    split_ifs
    · exact mirrored_runForeachSequential h
    · split
      · exact mirrored_runForeachConcurrentReentry h _
      · exact mirrored_runForeachConcurrentFresh h
  · exact mirrored_conclude _

end Foreach

section Parallel

variable {arms : List StepDefinition} {parallelPath : NodePath} (h : ∀ arm ∈ arms, Suits overrides arm)

theorem armOutputs_rewritten (arms : List StepDefinition) (results : List (Option Settlement)) :
    armOutputs (arms.map (rewriteStep overrides)) results = armOutputs arms results := by
  unfold armOutputs
  rw [List.zip_map_left, List.foldl_map]
  simp only [Prod.map_fst, Prod.map_snd, name_rewriteStep, id_eq]

theorem mirrored_completeParallel (output : Record) :
    Mirrored overrides (completeParallel parallelPath output) (completeParallel parallelPath output) :=
  mirrored_emit _ (mirrored_conclude _)

include h

theorem mirrored_runParallelFresh : Mirrored overrides (runParallelFresh env arms input parallelPath frames)
    (runParallelFresh env (arms.map (rewriteStep overrides)) input parallelPath frames) := by
  refine mirrored_emit _ (mirrored_runConcurrent _ ?_ (fun results => ?_))
  · rw [List.map_map, List.forall₂_map_left_iff, List.forall₂_map_right_iff, List.forall₂_same]
    exact fun arm hm => mirrored_runStepNode (h arm hm)
  · rw [armOutputs_rewritten]
    exact mirrored_settleAll _ (mirrored_completeParallel _)

theorem mirrored_reenterArms {finish : Gathered → Code} (hf : ∀ gathered, Mirrored overrides (finish gathered) (finish gathered))
    (active : Reentry) (targetName : String) (gathered : Gathered) :
    Mirrored overrides (reenterArms env input parallelPath frames active targetName finish arms gathered)
      (reenterArms env input parallelPath frames active targetName finish (arms.map (rewriteStep overrides)) gathered) := by
  induction arms generalizing gathered with
  | nil => exact hf gathered
  | cons arm rest ih =>
    have harm := h arm List.mem_cons_self
    have hnext : ∀ gathered, Mirrored overrides
        (reenterArms env input parallelPath frames active targetName finish rest gathered)
        (reenterArms env input parallelPath frames active targetName finish (rest.map (rewriteStep overrides)) gathered) :=
      fun gathered => ih (fun other hm => h other (List.mem_cons_of_mem _ hm)) gathered
    simp only [List.map_cons, reenterArms, name_rewriteStep]
    split
    · exact mirrored_andThen (mirrored_runStepNode harm) (fun outcome => hnext _)
    · refine .look (fun memory => ?_)
      split
      · exact hnext _
      · split
        · exact hnext _
        · split
          · exact hnext _
          · exact mirrored_andThen (mirrored_runStepNode harm) (fun outcome => hnext _)

theorem runsAlike_runParallelNode (name : String) : RunsAlike overrides (runParallelNode env name arms)
    (runParallelNode env name (arms.map (rewriteStep overrides))) := by
  intro input parentPath frames reentry
  cases reentry with
  | none => exact mirrored_runParallelFresh h
  | some active =>
    simp only [runParallelNode, runParallelReentry]
    split
    · exact mirrored_raise _
    · refine mirrored_reenterArms h ?_ _ _ _
      intro gathered
      unfold settleReentry
      split
      · exact mirrored_raise _
      · exact mirrored_settleConcurrent _ _ (mirrored_completeParallel _)

end Parallel

theorem target_rewriteNode (targetName : String) (node : WorkflowNode) :
    matchesReentryTarget targetName (rewriteNode overrides node) = matchesReentryTarget targetName node := by
  cases node with
  | branch name arms => simp [rewriteNode, matchesReentryTarget, rewriteArms_eq, List.any_map, Function.comp_def]
  | _ =>
    refine decide_eq_decide.mpr ?_
    rw [nodeName_rewriteNode]

mutual

theorem runsAlike_runNode (node : WorkflowNode) (h : ∀ step ∈ stepsUnder node, Suits overrides step) :
    RunsAlike overrides (runNode env node) (runNode env (rewriteNode overrides node)) := by
  cases node with
  | step step => exact fun _ _ _ _ => mirrored_runStepNode (h step (List.mem_singleton_self _))
  | branch name arms => exact runsAlike_runBranchNode (armsAlike_walkedArms arms h)
  | loop name mode body condition maxIterations => exact runsAlike_runLoopNode (bodiesAlike_walked body h)
  | «foreach» name body selector concurrency feedback => exact runsAlike_runForeachNode (bodiesAlike_walked body h)
  | parallel name arms => exact runsAlike_runParallelNode h name
  | workflow name nodes => exact runsAlike_runNestedWorkflowNode (bodiesAlike_walked nodes h)

theorem bodiesAlike_walked (nodes : List WorkflowNode) (h : ∀ step ∈ stepsIn nodes, Suits overrides step) :
    BodiesAlike overrides (walked env nodes) (walked env (rewriteNodes overrides nodes)) := by
  match nodes with
  | [] => exact .nil
  | node :: rest =>
    rw [stepsIn, List.forall_mem_append] at h
    exact .cons ⟨nodeName_rewriteNode node, fun targetName => target_rewriteNode targetName node,
      runsAlike_runNode node h.1⟩ (bodiesAlike_walked rest h.2)

theorem armsAlike_walkedArms (arms : List BranchArm) (h : ∀ step ∈ stepsInArms arms, Suits overrides step) :
    List.Forall₂ (ArmsAlike overrides) (walkedArms env arms) (walkedArms env (rewriteArms overrides arms)) := by
  match arms with
  | [] => exact .nil
  | .mk name condition body :: rest =>
    rw [stepsInArms, List.forall_mem_append] at h
    exact .cons ⟨rfl, rfl, bodiesAlike_walked body h.1⟩ (armsAlike_walkedArms rest h.2)

end

end KimchiWorkflows.Testing
