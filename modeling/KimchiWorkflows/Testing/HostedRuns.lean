import KimchiWorkflows.Engine.AttemptAccounting
import KimchiWorkflows.Engine.RecordedCalls
import KimchiWorkflows.Testing.OverriddenCalls

/-!
The runs of a workflow under a host, and those of the workflow rebuilt with its steps' own functions.
-/

namespace KimchiWorkflows.Testing

open KimchiWorkflows.Flow KimchiWorkflows.Engine Process Process.Proc Scheduling
open KimchiWorkflows.Engine.StepRunner (FunctionHost Execution Notes runFunctionStep)

structure FunctionSite where
  input : Value
  frames : List ScopeFrame
  path : NodePath
  context : RunContext

/-- What runs the steps: the ways each function can behave at a site, and the replies of the agent steps. -/
structure StepHost where
  runs : FunctionRef → FunctionSite → FunctionHost → Nat → Prop
  runsAgent : StepCall → StepReply → Prop

def resolveBudgetMs (declared : Option DurationBudget) (context : RunContext) : Except String (Option Int) :=
  match declared with
  | none => .ok none
  | some (.fixed ms) => .ok (some ms)
  | some (.computed budget) => budget context

def functionExecution (work : FunctionStep) (context : RunContext) (fates : FunctionHost) (now : Nat) : Execution :=
  runFunctionStep ⟨work, work.retry⟩ (invokeCallback ("step \"" ++ work.name ++ "\" maxDurationMs callback")
    (resolveBudgetMs work.maxDurationMs context)) fates now

/-- The reply settles as the execution does, and tells in order what was noted until then. -/
def Replies (execution : Execution) (reply : StepReply) : Prop :=
  execution.ending = .settled reply.outcome ∧ ∃ notes : Notes,
    notes.Perm (execution.notes.filter (·.1 ≤ execution.endedAt)) ∧ notes.Pairwise (·.1 ≤ ·.1) ∧
      reply.notes = notes.map Prod.snd

def Answered (host : StepHost) (call : StepCall) (reply : StepReply) : Prop :=
  match call.step with
  | .function work => ∃ context fates now, host.runs work.run ⟨call.input, call.frames, call.path, context⟩ fates now ∧
      Replies (functionExecution work context fates now) reply
  | _ => host.runsAgent call reply

/-- What a call can have come to under the host, its end included if it has returned. -/
def Reached (host : StepHost) (workflow : WorkflowDefinition) (call : EngineCall) (log : List RunEvent) (t : Trace)
    (memory : RunMemory) (ending : Option Settlement) : Prop :=
  ∃ launched code, launch workflow log call = .ok launched ∧ Proc.Run launched.code t code ∧
    Replay (engineWorld workflow) (launched.memory log) t memory ∧
    (∀ query reply, Label.heard query reply ∈ t → Answered host query reply) ∧
    ∀ result, ending = some result → code = .done result

def anonymous : Label RunMemory Action StepCall StepReply → Label RunMemory Action StepCall StepReply
  | .heard query reply => .heard { query with step := .function { name := query.step.name } } reply
  | label => label

/-- Under every schedule the one workflow comes to what the other comes to: events, outputs and outcome. -/
structure RunsTheSame (host : StepHost) (workflow workflow' : WorkflowDefinition) (call : EngineCall)
    (log : List RunEvent) : Prop where
  refused : ∀ error, launch workflow log call = .error error ↔ launch workflow' log call = .error error
  forth : ∀ t memory ending, Reached host workflow call log t memory ending →
    ∃ t', t'.map anonymous = t.map anonymous ∧ Reached host workflow' call log t' memory ending
  back : ∀ t' memory ending, Reached host workflow' call log t' memory ending →
    ∃ t, t'.map anonymous = t.map anonymous ∧ Reached host workflow call log t memory ending

/-- Each name is that of steps of the workflow, and is mapped to the function that each of them runs. -/
def OwnRuns (workflow : WorkflowDefinition) (overrides : StepOverrides) : Prop :=
  ∀ entry ∈ overrides, (∃ step ∈ stepsIn workflow.nodes, step.name = entry.1) ∧
    ∀ step ∈ stepsIn workflow.nodes, step.name = entry.1 → ∃ work : FunctionStep, step = .function work ∧ work.run = entry.2

/-- No plain object inherits a member of the step's name, or only the one that the step runs as it is. -/
def Spared (step : StepDefinition) : Prop :=
  ∀ run, inheritedOverride step.name = some run →
    ∃ work : FunctionStep, step = .function work ∧ work.run = run ∧ work.isOptional = false

/-- No run under the host has an optional step of one of the names fail for good. -/
def NoneLost (host : StepHost) (overrides : StepOverrides) (workflow : WorkflowDefinition) (call : EngineCall)
    (log : List RunEvent) : Prop :=
  ∀ t memory ending query reply, Reached host workflow call log t memory ending → Label.heard query reply ∈ t →
    query.step.name ∈ overrides.map Prod.fst → mayFail query.step = true → StepOutcome.hasCrashed reply.outcome = false

variable {host : StepHost} {overrides : StepOverrides} {workflow : WorkflowDefinition} {call : EngineCall}
  {log : List RunEvent} {t : Trace} {memory : RunMemory} {ending : Option Settlement}

theorem get_of_own {step : StepDefinition} (h : OwnRuns workflow overrides) (hm : step ∈ stepsIn workflow.nodes)
    {run : FunctionRef} (hg : Dict.get overrides step.name = some run) :
    ∃ work : FunctionStep, step = .function work ∧ work.run = run :=
  (h _ (Dict.mem_of_get hg)).2 step hm rfl

theorem isSome_get_of_mem {name : String} (h : name ∈ overrides.map Prod.fst) :
    (Dict.get overrides name).isSome = true := by
  induction overrides with
  | nil => cases h
  | cons entry rest ih =>
    obtain ⟨other, run⟩ := entry
    rw [Dict.get]
    split_ifs with he
    · rfl
    · obtain hn | hn := List.mem_cons.mp h
      · exact absurd hn.symm he
      · exact ih hn

theorem get_eq_none {name : String} (h : name ∉ overrides.map Prod.fst) : Dict.get overrides name = none := by
  rw [Option.eq_none_iff_forall_ne_some]
  intro run hg
  exact h (List.mem_map_of_mem (Dict.mem_of_get hg))

theorem suits_of_own (h : OwnRuns workflow overrides)
    (hu : ∀ step ∈ stepsIn workflow.nodes, step.name ∉ overrides.map Prod.fst → Spared step) :
    ∀ step ∈ stepsIn workflow.nodes, Suits overrides step := by
  intro step hm run hfound
  unfold findOverride at hfound
  cases hg : Dict.get overrides step.name with
  | some own =>
    rw [hg] at hfound
    cases hfound
    obtain ⟨work, hw, hrun⟩ := get_of_own h hm hg
    exact ⟨work, hw, hrun, by simp only [reduceCtorEq, false_implies]⟩
  | none =>
    rw [hg, Option.none_or] at hfound
    have hunnamed : step.name ∉ overrides.map Prod.fst := by
      intro hn
      have hsome := isSome_get_of_mem hn
      rw [hg] at hsome
      cases hsome
    obtain ⟨work, hw, hrun, hoptional⟩ := hu step hm hunnamed run hfound
    exact ⟨work, hw, hrun, fun _ => hoptional⟩

theorem answered_rename (call : StepCall) (reply : StepReply) (hs : Suits overrides call.step) :
    Answered host { call with step := rewriteStep overrides call.step } reply ↔ Answered host call reply := by
  obtain ⟨step, input, parentPath, frames, path, entry⟩ := call
  cases hfound : findOverride overrides step.name with
  | none =>
    have hsame : rewriteStep overrides step = step := by rw [rewriteStep, hfound]
    simp only [hsame]
  | some run =>
    obtain ⟨work, rfl, rfl, -⟩ := hs run hfound
    have hfunction : rewriteStep overrides (.function work) = .function (asFunctionStep (.function work) work.run) := by
      rw [rewriteStep, hfound]
    simp only [hfunction]
    exact Iff.rfl

theorem admits_rename (call : StepCall) (reply : StepReply) (hs : Suits overrides call.step) :
    admitsReply { call with step := rewriteStep overrides call.step } reply = admitsReply call reply := by
  unfold admitsReply
  cases reply.outcome with
  | ok output => simp only [outputSchema_rewriteStep]
  | blocked questionnaire conversation violation elapsedMs tokensUsed =>
    cases hfound : findOverride overrides call.step.name with
    | none =>
      have hsame : rewriteStep overrides call.step = call.step := by rw [rewriteStep, hfound]
      simp only [hsame]
    | some run =>
      obtain ⟨work, hw, -⟩ := hs run hfound
      have hfunction : rewriteStep overrides call.step = .function (asFunctionStep call.step run) := by
        rw [rewriteStep, hfound]
      dsimp only
      rw [hfunction, hw]
  | _ => rfl

theorem anonymous_renamed (label : Label RunMemory Action StepCall StepReply) :
    anonymous (renamed (overriding overrides) label) = anonymous label := by
  cases label with
  | heard query reply => simp only [renamed, overriding, anonymous, name_rewriteStep]
  | _ => rfl

theorem anonymous_trace (t : Trace) : (t.map (renamed (overriding overrides))).map anonymous = t.map anonymous := by
  rw [List.map_map]
  exact List.map_congr_left (fun label _ => anonymous_renamed label)

theorem admits_alike (query : StepCall) (reply : StepReply) (h : (overriding overrides).alike query) :
    (engineWorld workflow).admits ((overriding overrides).rename query) reply = (engineWorld workflow).admits query reply :=
  admits_rename query reply h.1

theorem launched_alike {launched : Launched} (hs : ∀ step ∈ stepsIn workflow.nodes, Suits overrides step)
    (hl : launch workflow log call = .ok launched) : ∃ launched', launch (rewritten overrides workflow) log call =
      .ok launched' ∧ launched'.memory log = launched.memory log ∧ Mirrored overrides launched.code launched'.code := by
  have halike : AlikeResults overrides (launch workflow log call) (launch (rewritten overrides workflow) log call) :=
    alike_launch hs
  rw [hl] at halike
  cases hl' : launch (rewritten overrides workflow) log call with
  | error error =>
    rw [hl'] at halike
    cases halike
  | ok launched' =>
    rw [hl'] at halike
    refine ⟨launched', rfl, ?_, halike.code⟩
    rw [Launched.memory, Launched.memory, halike.outputs]

theorem refused_alike (hs : ∀ step ∈ stepsIn workflow.nodes, Suits overrides step) (error : String) :
    launch workflow log call = .error error ↔ launch (rewritten overrides workflow) log call = .error error := by
  have halike : AlikeResults overrides (launch workflow log call) (launch (rewritten overrides workflow) log call) :=
    alike_launch hs
  cases hl : launch workflow log call with
  | error first =>
    rw [hl] at halike
    cases hl' : launch (rewritten overrides workflow) log call with
    | error last =>
      rw [hl'] at halike
      rw [show last = first from halike]
    | ok launched' =>
      rw [hl'] at halike
      cases halike
  | ok launched =>
    obtain ⟨launched', hl', -⟩ := launched_alike hs hl
    rw [hl']
    simp only [reduceCtorEq]

/-- A run that no optional step is lost in is one of the rebuilt workflow too. -/
theorem reached_rewritten (hs : ∀ step ∈ stepsIn workflow.nodes, Suits overrides step)
    (hf : Fair (overriding overrides) t) (h : Reached host workflow call log t memory ending) :
    Reached host (rewritten overrides workflow) call log (t.map (renamed (overriding overrides))) memory ending := by
  obtain ⟨launched, code, hl, hrun, hreplay, hanswered, hending⟩ := h
  obtain ⟨launched', hl', hmemory, hcode⟩ := launched_alike hs hl
  obtain ⟨code', hrun', halike, hmirror⟩ := mirrors_run hcode hrun hf
  refine ⟨launched', code', hl', hrun', ?_, ?_, ?_⟩
  · rw [hmemory]
    exact replay_renamed admits_alike hreplay halike
  · intro query reply hm
    obtain ⟨label, hlabel, heq⟩ := List.mem_map.mp hm
    cases label with
    | heard own answer =>
      simp only [renamed, Label.heard.injEq] at heq
      obtain ⟨rfl, rfl⟩ := heq
      exact (answered_rename own answer (halike own answer hlabel).1).mpr (hanswered own answer hlabel)
    | _ => cases heq
  · intro result he
    exact (hmirror.done_iff result).mp (hending result he)

/-- The first reply of a run that a mirrored run would not hear the same: the step is recorded as failed then. -/
theorem first_lost (hs : ∀ step ∈ stepsIn workflow.nodes, Suits overrides step)
    (h : Reached host workflow call log t memory ending) (hf : ¬ Fair (overriding overrides) t) :
    ∃ query reply, Label.heard query reply ∈ t ∧ Suits overrides query.step ∧ Loses overrides query.step ∧
      StepOutcome.hasCrashed reply.outcome = true ∧ Addressed query.step query.path ∧
      ∃ t' memory' error, Reached host workflow call log t' memory' none ∧
        Label.did (.emit (.stepFailed query.path error)) ∈ t' := by
  obtain ⟨launched, code, hl, hrun, hreplay, hanswered, -⟩ := h
  obtain ⟨launched', -, -, hcode⟩ := launched_alike hs hl
  obtain ⟨t₁, query, reply, m₁, m₂, hprefix, hrun₁, hfair, hstep, hunfair⟩ := first_unfair hrun hf
  obtain ⟨m', -, -, hmirror⟩ := mirrors_run hcode hrun₁ hfair
  obtain ⟨⟨hsuits, haddressed⟩, actions, n, hrun₂, hfree, action, ha, error, rfl⟩ := tells_of_step hmirror hstep hunfair
  obtain ⟨rest, rfl⟩ := hprefix
  simp only [overriding, Classical.not_imp, Bool.not_eq_false] at hunfair
  refine ⟨query, reply, by simp, hsuits, hunfair.1, hunfair.2, haddressed, ?_⟩
  obtain ⟨before, hreplay₁, -⟩ := replay_split hreplay
  obtain ⟨after, hreplay₂⟩ := replay_free (M := overriding overrides) (W := engineWorld workflow)
    (by rintro _ ⟨event, rfl⟩ _; rfl) hfree before
  refine ⟨_, after, error, ⟨launched, n, hl, run_trans (run_trans hrun₁ (.head hstep (.refl _))) hrun₂,
    replay_append hreplay₁ hreplay₂, ?_, by simp⟩, List.mem_append_right _ (List.mem_map_of_mem ha)⟩
  intro other answer hm
  obtain hm | hm := List.mem_append.mp hm
  · exact hanswered other answer (List.mem_append_left _ (by simpa using hm))
  · simp at hm

theorem fair_of_noneLost (hs : ∀ step ∈ stepsIn workflow.nodes, Suits overrides step)
    (hn : NoneLost host overrides workflow call log) (h : Reached host workflow call log t memory ending) :
    Fair (overriding overrides) t := by
  by_contra hf
  obtain ⟨query, reply, hm, hsuits, ⟨hmay, hfound⟩, hcrashed, -⟩ := first_lost hs h hf
  have hnamed : query.step.name ∈ overrides.map Prod.fst := by
    by_contra hunnamed
    obtain ⟨run, hrun⟩ := Option.isSome_iff_exists.mp hfound
    obtain ⟨work, hwork, -, hoptional⟩ := hsuits run hrun
    rw [hwork] at hmay
    cases hmay.symm.trans (hoptional (get_eq_none hunnamed))
  have hkept := hn t memory ending query reply h hm hnamed hmay
  rw [hcrashed] at hkept
  cases hkept

/-- Where no optional step is lost, every run of the rebuilt workflow is one of the workflow. -/
theorem reached_original {t' : Trace} (hs : ∀ step ∈ stepsIn workflow.nodes, Suits overrides step)
    (hn : NoneLost host overrides workflow call log)
    (h : Reached host (rewritten overrides workflow) call log t' memory ending) :
    ∃ t, t.map (renamed (overriding overrides)) = t' ∧ Reached host workflow call log t memory ending := by
  obtain ⟨launched', code', hl', hrun', hreplay, hanswered, hending⟩ := h
  obtain ⟨launched, hl⟩ : ∃ launched, launch workflow log call = .ok launched := by
    cases hl : launch workflow log call with
    | error error =>
      rw [(refused_alike hs error).mp hl] at hl'
      cases hl'
    | ok launched => exact ⟨launched, rfl⟩
  obtain ⟨other, hother, hmemory, hcode⟩ := launched_alike hs hl
  obtain rfl : other = launched' := Except.ok.inj (hother.symm.trans hl')
  rw [hmemory] at hreplay
  have hheard : ∀ {u : Trace}, u.map (renamed (overriding overrides)) ⊆ t' → Alike (overriding overrides) u →
      ∀ query reply, Label.heard query reply ∈ u → Answered host query reply := by
    intro u hsub halike query reply hm
    refine (answered_rename query reply (halike query reply hm).1).mp (hanswered _ reply (hsub ?_))
    exact List.mem_map_of_mem (f := renamed (overriding overrides)) hm
  obtain ⟨t, code, rfl, hrun, halike, hmirror⟩ := mirrors_run_back
    (fun u => ∃ memory, Reached host workflow call log u memory none) hcode hrun'
    (by
      rintro u code hrun ⟨rest, rfl⟩ halike
      obtain ⟨between, hreplay₁, -⟩ := replay_split hreplay
      exact ⟨between, launched, code, hl, hrun, replay_of_renamed admits_alike hreplay₁ halike,
        hheard (List.subset_append_left _ _) halike, by simp⟩)
    (fun u n _ ⟨memory', hreached⟩ => fair_of_noneLost hs hn hreached)
  exact ⟨t, rfl, launched, code, hl, hrun, replay_of_renamed admits_alike hreplay halike,
    hheard (List.Subset.refl _) halike, fun result he => (hmirror.done_iff result).mpr (hending result he)⟩

end KimchiWorkflows.Testing
