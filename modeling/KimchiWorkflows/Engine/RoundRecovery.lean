import KimchiWorkflows.Engine.ParallelReentry
import KimchiWorkflows.Engine.StatusAgreement

/-!
What a parallel that is entered again owes to the round that blocked, and when it keeps it.
-/

namespace KimchiWorkflows.Engine

open KimchiWorkflows.Flow Process Scheduling

variable {workflow : WorkflowDefinition} {env : RunEnv} {arms : List StepDefinition} {arm : StepDefinition}
  {name targetName : String} {parallelPath answered : NodePath} {frames : List ScopeFrame} {input output : Value}
  {reentry : Reentry} {new last : List Effect} {outcome target : ExecOutcome} {t : Trace}
  {memory memory' : RunMemory} {log : List RunEvent} {dealings : List (StepDefinition × Dealing)}

/-- The events of a re-entry, and what it settles with, touch the target alone. -/
structure TouchesOnly (log : List RunEvent) (parallelPath : NodePath) (arms : List StepDefinition)
    (targetName : String) (new : List RunEvent) (outcome : ExecOutcome) : Prop where
  unopened : ∀ arm ∈ arms, arm.name ≠ targetName → ∀ event ∈ new, ∀ path, event.subject = some path →
    staticKeyOf path = staticChildKey parallelPath arm.name →
    roundState log (staticChildKey parallelPath arm.name) = some .waiting ∧ event = .stepCancelled path ∧
      ∃ error crashedAt, outcome = .crashed error crashedAt
  waits : (∀ error crashedAt, outcome ≠ .crashed error crashedAt) → ∀ arm ∈ arms, arm.name ≠ targetName →
    IsWaiting log (staticChildKey parallelPath arm.name) →
    IsWaiting (log ++ new) (staticChildKey parallelPath arm.name)
  outputs : ∀ output, outcome = .ok output → ∃ record, output = .object record ∧
    ∀ arm ∈ arms, arm.name ≠ targetName → ∀ state,
      roundState log (staticChildKey parallelPath arm.name) = some state →
      ∃ value, state.output? = some value ∧ Dict.get record arm.name = some value
  target : ∀ output, outcome = .ok output → ∃ event ∈ new, ∃ state,
    event.armState (staticChildKey parallelPath targetName) = some state ∧ state.output?.isSome

/-- What the re-entry needs of the log: completions that speak for the round, and arms a record can hold. -/
def Recovers (log : List RunEvent) (parallelPath : NodePath) (arms : List StepDefinition)
    (targetName : String) : Prop :=
  ∀ arm ∈ arms, arm.name ≠ targetName → Recoverable log (staticChildKey parallelPath arm.name) ∧
    (roundState log (staticChildKey parallelPath arm.name) ≠ some .waiting → arm.name ≠ "__proto__")

section Settled

variable (h : Dealt env log input parallelPath frames reentry targetName arms new outcome dealings last target)

include h

theorem Dealt.touchesOnly (hnodup : (arms.map StepDefinition.name).Nodup)
    (henv : env.pendingBlocks = pendingBlocksExcept log answered)
    (hans : staticKeyOf answered = staticChildKey parallelPath targetName)
    (hstands : ∀ arm ∈ arms, arm.name ≠ targetName → Stands log (staticChildKey parallelPath arm.name))
    (hr : Recovers log parallelPath arms targetName) :
    TouchesOnly log parallelPath arms targetName (recordedEvents new) outcome := by
  have hall : ∀ arm ∈ arms, arm.name ≠ targetName → Recoverable log (staticChildKey parallelPath arm.name) :=
    fun arm ha hne => (hr arm ha hne).1
  have hunopened : ∀ arm ∈ arms, arm.name ≠ targetName → ∀ event ∈ recordedEvents new, ∀ path,
      event.subject = some path → staticKeyOf path = staticChildKey parallelPath arm.name →
      roundState log (staticChildKey parallelPath arm.name) = some .waiting ∧ event = .stepCancelled path ∧
        ∃ error crashedAt, outcome = .crashed error crashedAt :=
    fun arm _ hne event he path hs hk => h.unopened henv hans hstands hall hne he hs hk
  refine ⟨hunopened, ?_, ?_, fun output ho => h.target_settles ho⟩
  · intro hcrash arm ha hne hw
    rw [isWaiting_iff] at hw ⊢
    rw [viewOf_append, after_untouched ?_, hw]
    intro event he
    by_contra ht
    obtain ⟨path, hs, hk⟩ := key_of_touch (h.terminal he) ht
    obtain ⟨-, -, error, crashedAt, ho⟩ := hunopened arm ha hne event he path hs hk
    exact hcrash error crashedAt ho
  · intro output ho
    obtain ⟨record, hrecord, hleft, -, -, hget⟩ := h.record hnodup ho
    refine ⟨record, hrecord, ?_⟩
    intro arm ha hne state hs
    obtain ⟨dealing, hm⟩ := h.exists_dealing ha
    obtain ⟨state', hs', hspared⟩ := h.spares henv hans hstands hall hm hne
    obtain rfl := Option.some.inj (hs.symm.trans hs')
    rcases hspared with ⟨value, rfl, hv⟩ | ⟨block, rfl, -⟩
    · refine ⟨value, hv, ?_⟩
      have hname : arm.name ≠ "__proto__" := by
        apply (hr arm ha hne).2
        rw [hs]
        intro hwaiting
        cases hwaiting
        cases hv
      rw [hget arm value hne hm, if_neg hname]
    · exact absurd hm (hleft arm block)

theorem Dealt.recovers (hnodup : (arms.map StepDefinition.name).Nodup)
    (hstands : ∀ arm ∈ arms, arm.name ≠ targetName → Stands log (staticChildKey parallelPath arm.name))
    (ho : outcome = .ok output)
    (htouches : TouchesOnly log parallelPath arms targetName (recordedEvents new) outcome) :
    Recovers log parallelPath arms targetName := by
  obtain ⟨record, hrecord, hleft, hskipped, hran, hget⟩ := h.record hnodup ho
  obtain ⟨record', hrecord', houtputs⟩ := htouches.outputs output ho
  rw [hrecord] at hrecord'
  cases hrecord'
  intro arm ha hne
  obtain ⟨state, hs, -⟩ := hstands arm ha hne
  obtain ⟨value, hv, hheld⟩ := houtputs arm ha hne state hs
  obtain ⟨dealing, hm⟩ := h.exists_dealing ha
  have hdeals := h.deals _ hm
  cases dealing with
  | entered first o => exact absurd hdeals.1 hne
  | left block => exact absurd hm (hleft arm block)
  | skipped => exact absurd hm (hskipped arm)
  | ran first o =>
    obtain ⟨result, rfl⟩ := hran arm first o hm
    obtain ⟨hsubject, hsettles⟩ := records_arm hdeals.2.2.2
    obtain ⟨event, he, -⟩ := hsettles result rfl
    have hnew : event ∈ recordedEvents new := by
      obtain ⟨effect, heffect, hevent⟩ := List.mem_filterMap.mp he
      rw [h.effects, recordedEvents_append, List.mem_append]
      exact .inl (List.mem_filterMap.mpr ⟨effect, List.mem_flatMap.mpr ⟨_, hm, heffect⟩, hevent⟩)
    obtain ⟨-, -, error, crashedAt, hcrash⟩ := htouches.unopened arm ha hne event hnew _ (hsubject event he).2
      (staticKeyOf_appendSegment _ _)
    rw [ho] at hcrash
    cases hcrash
  | recovered found =>
    rw [hget arm found hne hm] at hheld
    split_ifs at hheld with hname
    cases hheld
    refine ⟨?_, fun _ => hname⟩
    rw [recoverable_iff hs, hv]
    exact hdeals.2

end Settled

/-- A re-entry under the condition touches its target alone; one that completes does so only under it. -/
theorem touchesOnly_of_recovers (hnodup : (arms.map StepDefinition.name).Nodup)
    (hleaf : leafNameOf reentry = some targetName)
    (henv : env.pendingBlocks = pendingBlocksExcept log answered)
    (hans : staticKeyOf answered = staticChildKey parallelPath targetName)
    (hmem : ∀ arm ∈ arms, Dict.get memory.stepOutputs (staticChildKey parallelPath arm.name) =
      Dict.get (rebuildStepOutputs log) (staticChildKey parallelPath arm.name))
    (hstands : ∀ arm ∈ arms, arm.name ≠ targetName → Stands log (staticChildKey parallelPath arm.name))
    (h : Executes (engineWorld workflow) (runParallelReentry env name arms input parallelPath frames reentry)
      memory t (.ok outcome) memory') :
    (Recovers log parallelPath arms targetName →
      TouchesOnly log parallelPath arms targetName (recordedEvents (effectsOf t)) outcome) ∧
    ∀ output, outcome = .ok output →
      TouchesOnly log parallelPath arms targetName (recordedEvents (effectsOf t)) outcome →
      Recovers log parallelPath arms targetName := by
  have hlast : ∀ arm ∈ arms, Dict.get memory.stepOutputs (staticChildKey parallelPath arm.name) =
      lastCompletion log (staticChildKey parallelPath arm.name) := by
    intro arm ha
    rw [hmem arm ha, get_rebuildStepOutputs]
  obtain ⟨dealings, last, target, hdealt⟩ := dealt_runParallelReentry hleaf hnodup hlast h
  exact ⟨hdealt.touchesOnly hnodup henv hans hstands, fun output ho => hdealt.recovers hnodup hstands ho⟩

section Sample

def checks : WorkflowDefinition :=
  { name := "checks"
    nodes := [.parallel "gate" [question "approve", .function { name := "lint", isOptional := true }]] }

def gatePath (arm : String) : NodePath := [{ name := "gate" }, { name := arm }]

def gateOpened : List RunEvent :=
  [.runStarted "run-1" "checks" .null, .nodeStarted [{ name := "gate" }] .parallel,
    .stepStarted (gatePath "approve") .undefined, asking (gatePath "approve"),
    .stepStarted (gatePath "lint") .undefined]

def checksFailed : List RunEvent := gateOpened ++ [.stepFailed (gatePath "lint") "style"]

def checksPassed : List RunEvent := gateOpened ++ [.stepCompleted (gatePath "lint") .null]

def gateOutput : Value := .object [("lint", .null), ("approve", .object [])]

def lintAgain : List RunEvent :=
  [.stepCompleted (gatePath "approve") (.object []), .stepStarted (gatePath "lint") .undefined,
    .stepCompleted (gatePath "lint") .null, .nodeCompleted [{ name := "gate" }] gateOutput]

def lintSpared : List RunEvent :=
  [.stepCompleted (gatePath "approve") (.object []), .nodeCompleted [{ name := "gate" }] gateOutput]

theorem committed_checks : Committed checks :=
  .flat (show checks.nodes.flatMap bodiesOf = [] from rfl) rfl

def gateArms : List StepDefinition := [question "approve", .function { name := "lint", isOptional := true }]

def gateEnv : RunEnv :=
  envOf checks { runId := "run-1", initialInput := .null, previousOutput := .null
                 pendingBlocks := pendingBlocksExcept checksPassed (gatePath "approve") }

/-- A check that passed beside the question is not run again when the question is answered. -/
theorem touchesOnly_checksPassed :
    TouchesOnly checksPassed [{ name := "gate" }] gateArms "approve" lintSpared (.ok gateOutput) := by
  have hdrive : drive (engineWorld checks) 100
      (runParallelReentry gateEnv "gate" gateArms .null [{ name := "gate" }] []
        { path := [{ name := "approve" }], answer := some ⟨[], [], none, none⟩ }) []
      { stepOutputs := rebuildStepOutputs checksPassed } =
      some (.ok (.ok gateOutput), [],
        { stepOutputs := rebuildStepOutputs checksPassed, log := lintSpared }) := rfl
  obtain ⟨t, ht⟩ := drive_sound hdrive
  have hrecorded : lintSpared = recordedEvents (effectsOf t) := log_replay ht.2
  have hlint : ∀ arm ∈ gateArms, arm.name ≠ "approve" → arm.name = "lint" := by decide
  have hanswered : staticKeyOf (gatePath "approve") = staticChildKey [{ name := "gate" }] "approve" := rfl
  rw [hrecorded]
  refine (touchesOnly_of_recovers (by decide) rfl rfl hanswered (fun _ _ => rfl) ?_ ht).1 ?_
  · intro arm ha hne
    rw [hlint arm ha hne]
    exact ⟨.completed .null, rfl, fun hw => by cases hw⟩
  · intro arm ha hne
    rw [hlint arm ha hne]
    exact ⟨trivial, fun _ => by decide⟩

/-- A check that failed beside the question is run again when the question is answered. -/
theorem checks_repeat_lint : Committed checks ∧
    Returns checks (.run "run-1" .null) [] checksFailed (waitingOn (gatePath "approve")) ∧
    Stands checksFailed (staticChildKey [{ name := "gate" }] "lint") ∧
    Returns checks (.answer [] (some (gatePath "approve"))) checksFailed
      (checksFailed ++ .answersProvided (gatePath "approve") [] :: lintAgain ++ [.runCompleted gateOutput])
      (.ok gateOutput) ∧
    ¬ TouchesOnly checksFailed [{ name := "gate" }] gateArms "approve" lintAgain (.ok gateOutput) := by
  refine ⟨committed_checks, returns_of_attempt [{ outcome := .crashed "style" }] 100 rfl, ?_,
    returns_of_attempt [{ outcome := .ok .null }] 100 rfl, ?_⟩
  · exact ⟨.failed, rfl, fun hw => by cases hw⟩
  · intro htouches
    have hlint : StepDefinition.function { name := "lint", isOptional := true } ∈ gateArms :=
      List.mem_cons_of_mem _ List.mem_cons_self
    have hstarted : RunEvent.stepStarted (gatePath "lint") .undefined ∈ lintAgain :=
      List.mem_cons_of_mem _ List.mem_cons_self
    obtain ⟨-, hevent, -⟩ := htouches.unopened _ hlint (by decide) _ hstarted _ rfl rfl
    cases hevent

end Sample

end KimchiWorkflows.Engine
