import KimchiWorkflows.Testing.HostedRuns

namespace KimchiWorkflows.Testing

open KimchiWorkflows.Flow KimchiWorkflows.Engine Process Process.Proc Scheduling
open KimchiWorkflows.Engine.StepRunner (FunctionHost runFunctionStep retryLoop maxRetries aborted functionAttempt withTimeBudget
  runFunctionAttempt functionResult)

structure ChangesNothing (host : StepHost) (overrides : StepOverrides) (workflow workflow' : WorkflowDefinition)
    (call : EngineCall) (log : List RunEvent) : Prop where
  untouched : List.Forall₂ (fun step step' => step.name ∉ overrides.map Prod.fst → step' = step)
    (stepsIn workflow.nodes) (stepsIn workflow'.nodes)
  runs : RunsTheSame host workflow workflow' call log

variable {host : StepHost} {overrides : StepOverrides} {workflow : WorkflowDefinition} {call : EngineCall}
  {log : List RunEvent} {t : Trace} {memory : RunMemory} {ending : Option Settlement}

mutual

theorem stepsIn_rewriteNodes (nodes : List WorkflowNode) :
    stepsIn (rewriteNodes overrides nodes) = (stepsIn nodes).map (rewriteStep overrides) := by
  match nodes with
  | [] => rfl
  | node :: rest =>
    rw [rewriteNodes, stepsIn, stepsIn, List.map_append, stepsUnder_rewriteNode, stepsIn_rewriteNodes]

theorem stepsUnder_rewriteNode (node : WorkflowNode) :
    stepsUnder (rewriteNode overrides node) = (stepsUnder node).map (rewriteStep overrides) := by
  cases node with
  | step step => rfl
  | parallel name arms => rfl
  | branch name arms =>
    rw [rewriteNode, stepsUnder, stepsUnder]
    exact stepsInArms_rewriteArms arms
  | _ =>
    rw [rewriteNode, stepsUnder, stepsUnder]
    exact stepsIn_rewriteNodes _

theorem stepsInArms_rewriteArms (arms : List BranchArm) :
    stepsInArms (rewriteArms overrides arms) = (stepsInArms arms).map (rewriteStep overrides) := by
  match arms with
  | [] => rfl
  | .mk name condition body :: rest =>
    rw [rewriteArms, stepsInArms, stepsInArms, List.map_append, stepsIn_rewriteNodes, stepsInArms_rewriteArms]

end

theorem stepsUnder_subset {nodes : List WorkflowNode} {node : WorkflowNode} (h : node ∈ nodes) :
    stepsUnder node ⊆ stepsIn nodes := by
  induction nodes with
  | nil => cases h
  | cons first rest ih =>
    intro step hs
    obtain rfl | h := List.mem_cons.mp h
    · exact List.mem_append_left _ hs
    · exact List.mem_append_right _ (ih h hs)

theorem stepsInArm_subset {arms : List BranchArm} {arm : BranchArm} (h : arm ∈ arms) :
    stepsIn arm.body ⊆ stepsInArms arms := by
  induction arms with
  | nil => cases h
  | cons first rest ih =>
    obtain ⟨name, condition, body⟩ := first
    intro step hs
    obtain rfl | h := List.mem_cons.mp h
    · exact List.mem_append_left _ hs
    · exact List.mem_append_right _ (ih h hs)

theorem stepsIn_subset_of_child {parentPath inner : NodePath} {node : WorkflowNode} {body : List WorkflowNode}
    (h : LiveChild parentPath node inner body) : stepsIn body ⊆ stepsUnder node := by
  cases h with
  | arm hm => exact stepsInArm_subset hm
  | _ => exact List.Subset.refl _

theorem step_of_failed {parentPath path : NodePath} {node : WorkflowNode} {event : RunEvent} {error : String}
    (h : Emitted parentPath node event) (he : event = .stepFailed path error) :
    ∃ step ∈ stepsUnder node, mayFail step = true ∧ Addressed step path := by
  have hstep : ∀ {parentPath : NodePath} {step : StepDefinition},
      StepEvent (appendSegment parentPath step.name) (mayFail step) event → mayFail step = true ∧ Addressed step path := by
    intro parentPath step hevent
    have hpath : path = appendSegment parentPath step.name := by
      have hsubject := hevent.subject
      rw [he] at hsubject
      exact Option.some.inj hsubject
    exact ⟨hevent.failed error (by rw [he, hpath]), parentPath, hpath⟩
  induction h with
  | step hevent => exact ⟨_, List.mem_singleton_self _, hstep hevent⟩
  | armStep hm hevent => exact ⟨_, hm, hstep hevent⟩
  | inside hc hm _ ih =>
    obtain ⟨step, hs, hfound⟩ := ih he hstep
    exact ⟨step, stepsIn_subset_of_child hc (stepsUnder_subset hm hs), hfound⟩
  | _ => cases he

theorem name_of_addressed {step other : StepDefinition} {path : NodePath} (h : Addressed step path)
    (h' : Addressed other path) : step.name = other.name := by
  obtain ⟨parent, rfl⟩ := h
  obtain ⟨parent', he⟩ := h'
  have hlast := congrArg (fun path => (List.getLast? path).map PathSegment.name) he
  simpa [appendSegment] using hlast

theorem not_failed_rewritten {t' : Trace} {step : StepDefinition} {path : NodePath} {error : String}
    (h : Reached host (rewritten overrides workflow) call log t' memory ending)
    (hm : Label.did (.emit (.stepFailed path error)) ∈ t') (hp : Addressed step path) :
    findOverride overrides step.name = none := by
  obtain ⟨launched, code, hl, hrun, -⟩ := h
  cases recordable_of_run hl hrun hm with
  | opening ho _ =>
    refine absurd rfl (forall_opening (P := fun opening => opening ≠ .stepFailed path error) ho ?_ ?_ ?_ ?_) <;> simp
  | ended he _ => cases he
  | emitted hnode he =>
    obtain ⟨other, ho, hmay, haddressed⟩ := step_of_failed he rfl
    have hin := stepsUnder_subset hnode ho
    rw [rewritten, stepsIn_rewriteNodes] at hin
    obtain ⟨original, -, rfl⟩ := List.mem_map.mp hin
    rw [mayFail_rewriteStep] at hmay
    split_ifs at hmay with hfound
    have hname := name_of_addressed hp haddressed
    rw [name_rewriteStep] at hname
    rw [hname]
    simpa using hfound

theorem noneLost_of_changesNothing (h : OwnRuns workflow overrides)
    (hc : ChangesNothing host overrides workflow (rewritten overrides workflow) call log) :
    (∀ step ∈ stepsIn workflow.nodes, step.name ∉ overrides.map Prod.fst → Spared step) ∧
      NoneLost host overrides workflow call log := by
  have hspared : ∀ step ∈ stepsIn workflow.nodes, step.name ∉ overrides.map Prod.fst → Spared step := by
    have huntouched := hc.untouched
    rw [rewritten, stepsIn_rewriteNodes, List.forall₂_map_right_iff, List.forall₂_same] at huntouched
    intro step hm hunnamed run hrun
    have hsame := huntouched step hm hunnamed
    rw [rewriteStep, findOverride, get_eq_none hunnamed, Option.none_or, hrun] at hsame
    exact ⟨_, hsame.symm, rfl, rfl⟩
  refine ⟨hspared, ?_⟩
  have hs := suits_of_own h hspared
  intro t memory ending query reply hreached hheard hnamed hmay
  by_contra hcrashed
  have hunfair : ¬ Fair (overriding overrides) t := by
    intro hfair
    refine hcrashed (hfair query reply hheard ⟨hmay, ?_⟩)
    rw [findOverride, Option.isSome_or, isSome_get_of_mem hnamed, Bool.true_or]
  obtain ⟨lost, answer, -, -, ⟨-, hfound⟩, -, haddressed, t', memory', error, hreached', hfailed⟩ :=
    first_lost hs hreached hunfair
  obtain ⟨u, hsame, hu⟩ := hc.runs.forth t' memory' none hreached'
  have hfailed' : Label.did (.emit (.stepFailed lost.path error)) ∈ u := by
    have hmem := List.mem_map_of_mem (f := anonymous) hfailed
    rw [← hsame] at hmem
    obtain ⟨label, hlabel, heq⟩ := List.mem_map.mp hmem
    cases label <;> cases heq
    exact hlabel
  rw [not_failed_rewritten hu hfailed' haddressed] at hfound
  cases hfound

theorem changesNothing_of_noneLost (h : OwnRuns workflow overrides)
    (hspared : ∀ step ∈ stepsIn workflow.nodes, step.name ∉ overrides.map Prod.fst → Spared step)
    (hn : NoneLost host overrides workflow call log) :
    ChangesNothing host overrides workflow (rewritten overrides workflow) call log := by
  have hs := suits_of_own h hspared
  refine ⟨?_, refused_alike hs, ?_, ?_⟩
  · rw [rewritten, stepsIn_rewriteNodes, List.forall₂_map_right_iff, List.forall₂_same]
    intro step hm hunnamed
    rw [rewriteStep, findOverride, get_eq_none hunnamed, Option.none_or]
    cases hrun : inheritedOverride step.name with
    | none => rfl
    | some run =>
      obtain ⟨work, rfl, rfl, hoptional⟩ := hspared step hm hunnamed run hrun
      obtain ⟨name, inputSchema, outputSchema, isOptional, description, retry, maxDurationMs, run⟩ := work
      obtain rfl : isOptional = false := hoptional
      rfl
  · intro t memory ending hreached
    exact ⟨_, anonymous_trace t, reached_rewritten hs (fair_of_noneLost hs hn hreached) hreached⟩
  · intro t' memory ending hreached
    obtain ⟨t, rfl, ht⟩ := reached_original hs hn hreached
    exact ⟨t, anonymous_trace t, ht⟩

theorem runsTheSame_refl : RunsTheSame host workflow workflow call log where
  refused _ := Iff.rfl
  forth t _ _ h := ⟨t, rfl, h⟩
  back t _ _ h := ⟨t, rfl, h⟩

theorem unknown_of_own (h : OwnRuns workflow overrides) :
    (overrides.map Prod.fst).filter (fun name => name ∉ consumed overrides workflow.nodes) = [] := by
  rw [List.filter_eq_nil_iff]
  intro name hm hunknown
  obtain ⟨entry, he, rfl⟩ := List.mem_map.mp hm
  obtain ⟨step, hs, hname⟩ := (h entry he).1
  refine absurd ?_ (of_decide_eq_true hunknown)
  refine List.mem_filter.mpr ⟨List.mem_map.mpr ⟨step, hs, hname⟩, ?_⟩
  rw [findOverride, Option.isSome_or, isSome_get_of_mem hm, Bool.true_or]

/-- No step is overridden, or no step left alone is called like an inherited member and no optional one is lost. -/
def Harmless (host : StepHost) (overrides : StepOverrides) (workflow : WorkflowDefinition) (call : EngineCall)
    (log : List RunEvent) : Prop :=
  overrides = [] ∨ (∀ step ∈ stepsIn workflow.nodes, step.name ∉ overrides.map Prod.fst → Spared step) ∧
    NoneLost host overrides workflow call log

theorem own_overrides_change_nothing (h : OwnRuns workflow overrides) :
    ∃ workflow', applyStepOverrides workflow (some overrides) = .ok workflow' ∧ ∀ host call log,
      ChangesNothing host overrides workflow workflow' call log ↔ Harmless host overrides workflow call log := by
  by_cases hnil : overrides = []
  · subst hnil
    refine ⟨workflow, rfl, ?_⟩
    intro host call log
    refine ⟨fun _ => .inl rfl, fun _ => ⟨?_, runsTheSame_refl⟩⟩
    exact List.forall₂_same.mpr (fun _ _ _ => rfl)
  · refine ⟨rewritten overrides workflow, ?_, ?_⟩
    · have hnonempty : overrides.isEmpty = false := by simpa using hnil
      simp only [applyStepOverrides, hnonempty, unknown_of_own h]
      rfl
    · intro host call log
      constructor
      · exact fun hc => .inr (noneLost_of_changesNothing h hc)
      · rintro (hempty | ⟨hspared, hn⟩)
        · exact absurd hempty hnil
        · exact changesNothing_of_noneLost h hspared hn

def lint : FunctionStep where
  name := "lint"
  isOptional := true

def linting : WorkflowDefinition where
  name := "linting"
  nodes := [.step (.function lint)]

def throwingOnce : FunctionHost := { attempt := fun _ => { takes := 0, returned := .error "boom" } }

def throwing : StepHost where
  runs _ _ fates now := fates = throwingOnce ∧ now = 0
  runsAgent _ _ := False

theorem ownRuns_linting : OwnRuns linting [("lint", .authored 0)] := by
  intro entry he
  cases List.mem_singleton.mp he
  refine ⟨⟨.function lint, List.mem_singleton_self _, rfl⟩, ?_⟩
  intro step hm _
  cases List.mem_singleton.mp hm
  exact ⟨lint, rfl, rfl⟩

def bundle : FunctionStep where
  name := "bundle"
  isOptional := true
  retry := some { maxRetry := 2 }
  run := .authored 1

def publish : FunctionStep where
  name := "publish"
  run := .authored 2

def packing : WorkflowDefinition where
  name := "packing"
  nodes := [.step (.agent { name := "plan" }),
    .foreach "packages" [.step (.function bundle)] (fun ctx => .ok ctx.getInitData) 4 false, .step (.function publish)]

theorem ownRuns_packing : OwnRuns packing [("bundle", .authored 1), ("publish", .authored 2)] := by
  have hsteps : stepsIn packing.nodes = [.agent { name := "plan" }, .function bundle, .function publish] := rfl
  have hrun : ∀ work : FunctionStep, work = bundle ∨ work = publish →
      ∀ step ∈ stepsIn packing.nodes, step.name = work.name → ∃ own, step = .function own ∧ own.run = work.run := by
    intro work hw step hm hname
    rw [hsteps] at hm
    simp only [List.mem_cons, List.not_mem_nil, or_false] at hm
    obtain rfl | rfl | rfl := hm
    · exact absurd hname (by obtain rfl | rfl := hw <;> decide)
    · obtain rfl | rfl := hw
      · exact ⟨bundle, rfl, rfl⟩
      · exact absurd hname (by decide)
    · obtain rfl | rfl := hw
      · exact absurd hname (by decide)
      · exact ⟨publish, rfl, rfl⟩
  intro entry he
  simp only [List.mem_cons, List.not_mem_nil, or_false] at he
  obtain rfl | rfl := he
  · exact ⟨⟨.function bundle, by simp [hsteps], rfl⟩, hrun bundle (.inl rfl)⟩
  · exact ⟨⟨.function publish, by simp [hsteps], rfl⟩, hrun publish (.inr rfl)⟩

theorem own_overrides_change_nothing_packing : ∃ workflow',
    applyStepOverrides packing (some [("bundle", .authored 1), ("publish", .authored 2)]) = .ok workflow' ∧
      ∀ host call log,
        ChangesNothing host [("bundle", .authored 1), ("publish", .authored 2)] packing workflow' call log ↔
          Harmless host [("bundle", .authored 1), ("publish", .authored 2)] packing call log :=
  own_overrides_change_nothing ownRuns_packing

theorem committed_linting : Committed linting := .flat (show linting.nodes.flatMap bodiesOf = [] from rfl) rfl

def lintPath : NodePath := [{ name := "lint" }]

def lintCall : StepCall := ⟨.function lint, .undefined, [], [], lintPath, .fresh⟩

theorem execution_lint (context : RunContext) :
    (functionExecution lint context throwingOnce 0).notes = [] ∧
      (functionExecution lint context throwingOnce 0).ending = .settled (.crashed "boom") := by
  simp [functionExecution, runFunctionStep, resolveBudgetMs, invokeCallback, lint, retryLoop, maxRetries, aborted,
    throwingOnce, functionAttempt, withTimeBudget, runFunctionAttempt, functionResult,
    StepRunner.AttemptResult.ending, StepRunner.Execution.notes, StepRunner.LoopMove.notes]

theorem answered_lint (context : RunContext) : Answered throwing lintCall { outcome := .crashed "boom" } := by
  obtain ⟨hnotes, hending⟩ := execution_lint context
  refine ⟨context, throwingOnce, 0, ⟨rfl, rfl⟩, hending, [], ?_, List.Pairwise.nil, rfl⟩
  rw [hnotes]
  exact List.Perm.nil

def lintLabels (memory : RunMemory) : Trace :=
  [.did (.emit (.runStarted "1" "linting" .undefined)), .saw memory, .did (.acquire lintPath),
    .did (.admitted lintPath), .did (.enterFlight lintPath), .did (.emit (.stepStarted lintPath .undefined)),
    .heard lintCall { outcome := .crashed "boom" }]

theorem reached_lint : ∃ memory seen, Reached throwing linting (.run "1" .undefined) [] (lintLabels seen) memory none := by
  let first := ((engineWorld linting).apply (.emit (.runStarted "1" "linting" .undefined)) {})
  refine ⟨_, first, _, _, rfl, .head (.act _ _) (.head (.look first _) (.head (.act _ _) (.head (.act _ _)
    (.head (.act _ _) (.head (.act _ _) (.head (.call _ _ _) (.refl _))))))), .did rfl (.saw (.did rfl (.did ?_ (.did rfl
      (.did rfl (.heard rfl (.nil _))))))), ?_, by simp⟩
  · decide
  · intro query reply hm
    simp only [lintLabels, List.mem_cons, reduceCtorEq, false_or, List.not_mem_nil, or_false, Label.heard.injEq] at hm
    obtain ⟨rfl, rfl⟩ := hm
    exact answered_lint ⟨"", "", "", fun _ => none, fun _ => .ok .undefined, .undefined⟩

/-- A lint that only warns, and throws: overridden with itself it ends the run. -/
theorem overridden_lint_ends_run : ¬ ∀ workflow overrides, Committed workflow → OwnRuns workflow overrides →
    ∃ workflow', applyStepOverrides workflow (some overrides) = .ok workflow' ∧ ∀ host call log,
      ChangesNothing host overrides workflow workflow' call log := by
  intro hclaim
  obtain ⟨workflow', happly, hall⟩ := hclaim linting [("lint", .authored 0)] committed_linting ownRuns_linting
  obtain rfl : rewritten [("lint", .authored 0)] linting = workflow' := by
    have hrewritten : applyStepOverrides linting (some [("lint", .authored 0)]) =
        .ok (rewritten [("lint", .authored 0)] linting) := rfl
    exact Except.ok.inj (hrewritten.symm.trans happly)
  obtain ⟨memory, seen, hreached⟩ := reached_lint
  have hkept := (noneLost_of_changesNothing ownRuns_linting (hall throwing (.run "1" .undefined) [])).2 _ memory none
    lintCall { outcome := .crashed "boom" } hreached (by simp [lintLabels]) (by simp [lintCall, lint, StepDefinition.name]) rfl
  cases hkept

end KimchiWorkflows.Testing
