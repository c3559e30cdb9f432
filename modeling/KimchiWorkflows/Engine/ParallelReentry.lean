import KimchiWorkflows.Engine.ArmHistory
import KimchiWorkflows.Engine.Executions
import KimchiWorkflows.Engine.ParallelSettling

/-!
A parallel that is entered again at one of its waiting arms: what becomes of the other arms.
-/

namespace KimchiWorkflows.Engine

open KimchiWorkflows.Flow Process Scheduling

variable {workflow : WorkflowDefinition} {env : RunEnv} {arms : List StepDefinition} {arm : StepDefinition}
  {name targetName : String} {parallelPath answered : NodePath} {frames : List ScopeFrame} {input : Value}
  {reentry : Reentry} {effects : List Effect} {outcome : ExecOutcome} {gathered : Gathered} {t : Trace}
  {memory memory' : RunMemory} {log : List RunEvent} {finish : Gathered → Code}

inductive Dealing where
  | entered (effects : List Effect) (outcome : ExecOutcome)
  | recovered (value : Value)
  | left (block : PendingBlock)
  | skipped
  | ran (effects : List Effect) (outcome : ExecOutcome)

def Dealing.leaves : Dealing → List Effect
  | .entered effects _ => effects
  | .ran effects _ => effects
  | _ => []

def Gathered.deal (gathered : Gathered) (name : String) : Dealing → Gathered
  | .entered _ outcome => { gathered with target := some outcome }
  | .recovered value => { gathered with output := assign gathered.output name value }
  | .left block => { gathered with stillBlocked := gathered.stillBlocked ++ [block] }
  | .skipped => { gathered with extra := gathered.extra ++ [.cancelled none none] }
  | .ran _ outcome => gathered.settleArm name outcome

def Gathered.dealAll (gathered : Gathered) (dealings : List (StepDefinition × Dealing)) : Gathered :=
  dealings.foldl (fun gathered entry => gathered.deal entry.1.name entry.2) gathered

/-- The way an arm is dealt with, as the log and the pending requests stand. -/
def Deals (env : RunEnv) (log : List RunEvent) (input : Value) (parallelPath : NodePath)
    (frames : List ScopeFrame) (reentry : Reentry) (targetName : String) (arm : StepDefinition) :
    Dealing → Prop
  | .entered effects outcome => arm.name = targetName ∧
      Emits (runStepNode env arm input parallelPath frames (some reentry.descend)) effects outcome
  | .recovered value => arm.name ≠ targetName ∧
      lastCompletion log (staticChildKey parallelPath arm.name) = some value
  | .left block => arm.name ≠ targetName ∧
      lastCompletion log (staticChildKey parallelPath arm.name) = none ∧
      Dict.get env.pendingBlocks (staticChildKey parallelPath arm.name) = some block
  | .skipped => arm.name ≠ targetName ∧
      lastCompletion log (staticChildKey parallelPath arm.name) = none ∧
      Dict.get env.pendingBlocks (staticChildKey parallelPath arm.name) = none
  | .ran effects outcome => arm.name ≠ targetName ∧
      lastCompletion log (staticChildKey parallelPath arm.name) = none ∧
      Dict.get env.pendingBlocks (staticChildKey parallelPath arm.name) = none ∧
      Emits (runStepNode env arm input parallelPath frames none) effects outcome

theorem output_kept_arm {other : StepDefinition} {active : Option Reentry} {result : Settlement}
    (hne : other.name ≠ arm.name)
    (h : Executes (engineWorld workflow) (runStepNode env other input parallelPath frames active) memory t
      result memory') :
    Dict.get memory'.stepOutputs (staticChildKey parallelPath arm.name) =
      Dict.get memory.stepOutputs (staticChildKey parallelPath arm.name) := by
  refine output_kept (confined_runStepNode other input active) ?_ h
  rintro path rfl
  rw [staticKeyOf_appendSegment]
  exact fun hk => hne (staticChildKey_inj hk)

theorem deals_reenterArms (hnodup : (arms.map StepDefinition.name).Nodup)
    (hmem : ∀ arm ∈ arms, Dict.get memory.stepOutputs (staticChildKey parallelPath arm.name) =
      lastCompletion log (staticChildKey parallelPath arm.name))
    (h : Executes (engineWorld workflow) (reenterArms env input parallelPath frames reentry targetName finish
      arms gathered) memory t (.ok outcome) memory') :
    ∃ (dealings : List (StepDefinition × Dealing)) (last : List Effect),
      dealings.map Prod.fst = arms ∧
      (∀ entry ∈ dealings,
        Deals env log input parallelPath frames reentry targetName entry.1 entry.2) ∧
      effectsOf t = dealings.flatMap (fun entry => entry.2.leaves) ++ last ∧
      Emits (finish (gathered.dealAll dealings)) last outcome := by
  induction arms generalizing gathered memory t with
  | nil => exact ⟨[], effectsOf t, rfl, by simp, rfl, emits_of_executes h⟩
  | cons arm rest ih =>
    obtain ⟨hnotin, hrest⟩ := List.nodup_cons.mp hnodup
    have hother : ∀ other ∈ rest, arm.name ≠ other.name :=
      fun other ho he => hnotin (he ▸ List.mem_map_of_mem ho)
    -- The arms after this one are dealt with in a memory that agrees with the log on their keys.
    have hnext : ∀ (dealing : Dealing) (seen : RunMemory) (u : Trace) (first : List Effect),
        Deals env log input parallelPath frames reentry targetName arm dealing → dealing.leaves = first →
        effectsOf t = first ++ effectsOf u →
        (∀ other ∈ rest, Dict.get seen.stepOutputs (staticChildKey parallelPath other.name) =
          lastCompletion log (staticChildKey parallelPath other.name)) →
        Executes (engineWorld workflow) (reenterArms env input parallelPath frames reentry targetName finish rest
          (gathered.deal arm.name dealing)) seen u (.ok outcome) memory' →
        ∃ (dealings : List (StepDefinition × Dealing)) (last : List Effect),
          dealings.map Prod.fst = arm :: rest ∧
          (∀ entry ∈ dealings,
            Deals env log input parallelPath frames reentry targetName entry.1 entry.2) ∧
          effectsOf t = dealings.flatMap (fun entry => entry.2.leaves) ++ last ∧
          Emits (finish (gathered.dealAll dealings)) last outcome := by
      intro dealing seen u first hdeals hfirst heffects hseen hx
      obtain ⟨dealings, last, hmap, hall, hu, hfinish⟩ := ih hrest hseen hx
      refine ⟨(arm, dealing) :: dealings, last, by simp [hmap], ?_, ?_, hfinish⟩
      · intro entry he
        rcases List.mem_cons.mp he with rfl | he
        · exact hdeals
        · exact hall entry he
      · rw [heffects, hu, List.flatMap_cons, hfirst, List.append_assoc]
    have hkeep : ∀ other ∈ rest, Dict.get memory.stepOutputs (staticChildKey parallelPath other.name) =
        lastCompletion log (staticChildKey parallelPath other.name) :=
      fun other ho => hmem other (List.mem_cons_of_mem _ ho)
    simp only [reenterArms] at h
    split_ifs at h with hn
    · obtain ⟨first, last, o, middle, rfl, hrun, hx⟩ := executes_andThen h
      have heffects := effectsOf_append first last
      refine hnext (.entered (effectsOf first) o) middle last _ ⟨hn, emits_of_executes hrun⟩ rfl heffects ?_ hx
      exact fun other ho => (output_kept_arm (hother other ho) hrun).trans (hkeep other ho)
    · obtain ⟨seen, u, rfl, hsame, -, hx⟩ := executes_look h
      have heffects : effectsOf (.saw seen :: u) = effectsOf u := rfl
      have hseen : ∀ other ∈ rest, Dict.get seen.stepOutputs (staticChildKey parallelPath other.name) =
          lastCompletion log (staticChildKey parallelPath other.name) := by
        rw [hsame]
        exact hkeep
      have hlast := hmem arm List.mem_cons_self
      rw [← hsame] at hlast
      split at hx
      · rename_i value hv
        exact hnext (.recovered value) seen u [] ⟨hn, hlast.symm.trans hv⟩ rfl heffects hseen hx
      · rename_i hv
        have hnone := hlast.symm.trans hv
        split at hx
        · rename_i pending hp
          exact hnext (.left pending) seen u [] ⟨hn, hnone, hp⟩ rfl heffects hseen hx
        · rename_i hp
          split_ifs at hx with ha
          · exact hnext .skipped seen u [] ⟨hn, hnone, hp⟩ rfl heffects hseen hx
          · obtain ⟨first, last, o, middle, rfl, hrun, hafter⟩ := executes_andThen hx
            have hboth := effectsOf_append first last
            refine hnext (.ran (effectsOf first) o) middle last _ ⟨hn, hnone, hp, emits_of_executes hrun⟩ rfl
              (heffects.trans hboth) ?_ hafter
            exact fun other ho => (output_kept_arm (hother other ho) hrun).trans (hseen other ho)

theorem StepRun.subject {path : NodePath} {events : List RunEvent} (h : StepRun path events outcome) :
    ∀ event ∈ events, event.terminal = none ∧ event.subject = some path := by
  have hlast : ∀ {work : List RunEvent} {last : RunEvent}, (∀ e ∈ work, e.work = some path) →
      last.terminal = none ∧ last.subject = some path →
      ∀ e ∈ work ++ [last], e.terminal = none ∧ e.subject = some path := by
    intro work last hw hl e he
    rcases List.mem_append.mp he with he | he
    · exact subject_of_work (hw e he)
    · rwa [List.mem_singleton.mp he]
  cases h with
  | completed work output hw => exact hlast hw ⟨rfl, rfl⟩
  | failed work error hw => exact hlast hw ⟨rfl, rfl⟩
  | asked work event block hw hb hp =>
    obtain ⟨ht, hs, -⟩ := subject_of_block hb
    exact hlast hw ⟨ht, hp ▸ hs⟩
  | crashed work error hw => exact fun e he => subject_of_work (hw e he)
  | cancelled work source hw => exact fun e he => subject_of_work (hw e he)

theorem records_arm {active : Option Reentry}
    (h : Emits (runStepNode env arm input parallelPath frames active) effects outcome) :
    (∀ event ∈ recordedEvents effects,
      event.terminal = none ∧ event.subject = some (appendSegment parallelPath arm.name)) ∧
    ∀ output, outcome = .ok output → ∃ event ∈ recordedEvents effects, ∃ state,
      event.armState (staticChildKey parallelPath arm.name) = some state ∧ state.output?.isSome := by
  obtain ⟨events, rfl, hs⟩ := runsStep_runStepNode arm input active _ _ h
  rw [recordedEvents_map]
  refine ⟨hs.subject, ?_⟩
  rintro output rfl
  cases hs with
  | completed work output hw =>
    exact ⟨_, List.mem_append_right _ List.mem_cons_self, .completed output,
      if_pos (staticKeyOf_appendSegment _ _), rfl⟩
  | failed work error hw =>
    exact ⟨_, List.mem_append_right _ List.mem_cons_self, .failed,
      if_pos (staticKeyOf_appendSegment _ _), rfl⟩

section Gathering

variable {dealings : List (StepDefinition × Dealing)} {other : String}

theorem output_deal_of_ne {dealing : Dealing} (hne : other ≠ name) :
    Dict.get (gathered.deal name dealing).output other = Dict.get gathered.output other := by
  cases dealing with
  | recovered value => simp [Gathered.deal, get_assign, hne]
  | ran effects outcome =>
    cases outcome <;> simp [Gathered.deal, Gathered.settleArm, ExecOutcome.output?, get_assign, hne]
  | _ => rfl

theorem output_dealAll_of_notMem (h : other ∉ dealings.map (fun entry => entry.1.name)) :
    Dict.get (gathered.dealAll dealings).output other = Dict.get gathered.output other := by
  induction dealings generalizing gathered with
  | nil => rfl
  | cons entry rest ih =>
    rw [List.map_cons, List.mem_cons, not_or] at h
    show Dict.get ((gathered.deal entry.1.name entry.2).dealAll rest).output other = _
    rw [ih h.2, output_deal_of_ne h.1]

/-- The output gathered for a recovered arm is the value on record, unless no member can hold it. -/
theorem output_dealAll {value : Value} (hnodup : (dealings.map (fun entry => entry.1.name)).Nodup)
    (h : (arm, .recovered value) ∈ dealings) : Dict.get (gathered.dealAll dealings).output arm.name =
      if arm.name = "__proto__" then Dict.get gathered.output arm.name else some value := by
  induction dealings generalizing gathered with
  | nil => cases h
  | cons entry rest ih =>
    obtain ⟨hnotin, hrest⟩ := List.nodup_cons.mp hnodup
    show Dict.get ((gathered.deal entry.1.name entry.2).dealAll rest).output arm.name = _
    rcases List.mem_cons.mp h with rfl | h
    · rw [output_dealAll_of_notMem hnotin]
      by_cases hp : arm.name = "__proto__" <;> simp [Gathered.deal, get_assign, hp]
    · have hne : arm.name ≠ entry.1.name := by
        intro he
        exact hnotin (List.mem_map.mpr ⟨_, h, he⟩)
      rw [ih hrest h, output_deal_of_ne hne]

theorem target_dealAll {target : ExecOutcome} (h : (gathered.dealAll dealings).target = some target) :
    gathered.target = some target ∨ ∃ arm effects, (arm, .entered effects target) ∈ dealings := by
  induction dealings generalizing gathered with
  | nil => exact .inl h
  | cons entry rest ih =>
    obtain ⟨arm, dealing⟩ := entry
    rcases ih h with hg | ⟨arm', effects, hm⟩
    · cases dealing with
      | entered effects outcome =>
        cases hg
        exact .inr ⟨arm, effects, List.mem_cons_self⟩
      | _ => exact .inl hg
    · exact .inr ⟨arm', effects, List.mem_cons_of_mem _ hm⟩

theorem extra_dealAll : outcome ∈ (gathered.dealAll dealings).extra ↔ outcome ∈ gathered.extra ∨
    ∃ entry ∈ dealings, (∃ effects, entry.2 = .ran effects outcome) ∨
      (entry.2 = .skipped ∧ outcome = .cancelled none none) := by
  induction dealings generalizing gathered with
  | nil => simp [Gathered.dealAll]
  | cons entry rest ih =>
    obtain ⟨arm, dealing⟩ := entry
    show outcome ∈ ((gathered.deal arm.name dealing).dealAll rest).extra ↔ _
    rw [ih]
    cases dealing <;> simp [Gathered.deal, Gathered.settleArm, or_assoc, eq_comm]

theorem stillBlocked_dealAll {block : PendingBlock} :
    block ∈ (gathered.dealAll dealings).stillBlocked ↔ block ∈ gathered.stillBlocked ∨
      ∃ arm, (arm, .left block) ∈ dealings := by
  induction dealings generalizing gathered with
  | nil => simp [Gathered.dealAll]
  | cons entry rest ih =>
    obtain ⟨arm, dealing⟩ := entry
    show block ∈ ((gathered.deal arm.name dealing).dealAll rest).stillBlocked ↔ _
    rw [ih]
    cases dealing <;> simp [Gathered.deal, Gathered.settleArm, or_assoc, exists_or, eq_comm]

end Gathering

section Reentry

variable {dealings : List (StepDefinition × Dealing)} {state : ArmState}

theorem staticChildKey_ne (parent : NodePath) (child : String) : staticKeyOf parent ≠ staticChildKey parent child := by
  intro h
  have hlen := congrArg List.length h
  simp [staticKeyOf, staticPathOf, staticChildKey] at hlen

theorem deals_of_recoverable (henv : env.pendingBlocks = pendingBlocksExcept log answered)
    (hans : staticKeyOf answered = staticChildKey parallelPath targetName) {dealing : Dealing}
    (h : Deals env log input parallelPath frames reentry targetName arm dealing) (hne : arm.name ≠ targetName)
    (hs : roundState log (staticChildKey parallelPath arm.name) = some state)
    (hw : state = .waiting → IsWaiting log (staticChildKey parallelPath arm.name))
    (hr : Recoverable log (staticChildKey parallelPath arm.name)) :
    (∃ value, dealing = .recovered value ∧ state.output? = some value) ∨
      ∃ block, dealing = .left block ∧ state = .waiting := by
  rw [recoverable_iff hs] at hr
  have hwaiting : lastCompletion log (staticChildKey parallelPath arm.name) = none → state = .waiting := by
    intro hnone
    rw [hr] at hnone
    cases state <;> first | rfl | cases hnone
  have hpending : lastCompletion log (staticChildKey parallelPath arm.name) = none →
      Dict.get env.pendingBlocks (staticChildKey parallelPath arm.name) ≠ none := by
    intro hnone hp
    have hkey : staticChildKey parallelPath arm.name ≠ staticKeyOf answered := by
      rw [hans]
      exact fun hk => hne (staticChildKey_inj hk)
    have := pendingBlocksExcept_isSome (hw (hwaiting hnone)) hkey
    rw [← henv, hp] at this
    cases this
  cases dealing with
  | entered effects outcome => exact absurd h.1 hne
  | recovered value => exact .inl ⟨value, rfl, hr.symm.trans h.2⟩
  | left block => exact .inr ⟨block, rfl, hwaiting h.2.1⟩
  | skipped => exact absurd h.2.2 (hpending h.2.1)
  | ran effects outcome => exact absurd h.2.2.1 (hpending h.2.1)

theorem emits_settleReentry (h : Emits (settleReentry name targetName parallelPath gathered) effects outcome) :
    ∃ target, gathered.target = some target ∧
      Emits (settleConcurrent (target :: gathered.extra) gathered.stillBlocked (completeParallel parallelPath
        ((target.output?).elim gathered.output (assign gathered.output targetName)))) effects outcome := by
  unfold settleReentry at h
  split at h
  · exact absurd h (fun h => emits_raise h)
  · rename_i target ht
    exact ⟨target, ht, h⟩

theorem emits_completeParallel {output : Record}
    (h : Emits (completeParallel parallelPath output) effects outcome) :
    effects = [.recorded (.nodeCompleted parallelPath (.object output))] ∧ outcome = .ok (.object output) := by
  obtain ⟨rest, rfl, hr⟩ := emits_emit h
  obtain ⟨rfl, rfl⟩ := emits_conclude hr
  exact ⟨rfl, rfl⟩

theorem get_output_target {target : ExecOutcome} {output : Record} (hne : arm.name ≠ targetName) :
    Dict.get ((target.output?).elim output (assign output targetName)) arm.name = Dict.get output arm.name := by
  cases target <;> simp [ExecOutcome.output?, get_assign, hne]

theorem ok_of_settleConcurrent {outcomes : List ExecOutcome} {stillBlocked : List PendingBlock} {onOk : Code}
    {output : Value} (h : Emits (settleConcurrent outcomes stillBlocked onOk) effects (.ok output)) :
    (∀ o ∈ outcomes, ∃ value, o = .ok value) ∧ stillBlocked = [] ∧ Emits onOk effects (.ok output) := by
  rcases emits_settleConcurrent h with ⟨-, path, source, ho⟩ | ⟨error, path, ho, -⟩ | ⟨hheld, hrest⟩
  · cases ho
  · cases ho
  · rcases hrest with ⟨block, -, -, ho⟩ | ⟨hnone, hstill, hok⟩
    · cases ho
    · refine ⟨?_, hstill, hok⟩
      intro o ho
      have hb := List.filterMap_eq_nil_iff.mp hnone o ho
      have hh := hheld o ho
      cases o with
      | ok value => exact ⟨value, rfl⟩
      | crashed error path => cases hh
      | cancelled path source => cases hh
      | blocked block => cases hb

/-- A whole re-entry: how it dealt with the arms, and what it then settled on. -/
structure Dealt (env : RunEnv) (log : List RunEvent) (input : Value) (parallelPath : NodePath)
    (frames : List ScopeFrame) (reentry : Reentry) (targetName : String) (arms : List StepDefinition)
    (new : List Effect) (outcome : ExecOutcome) (dealings : List (StepDefinition × Dealing))
    (last : List Effect) (target : ExecOutcome) : Prop where
  arms : dealings.map Prod.fst = arms
  deals : ∀ entry ∈ dealings, Deals env log input parallelPath frames reentry targetName entry.1 entry.2
  effects : new = dealings.flatMap (fun entry => entry.2.leaves) ++ last
  reached : (({} : Gathered).dealAll dealings).target = some target
  settles : Emits (settleConcurrent (target :: (({} : Gathered).dealAll dealings).extra)
    (({} : Gathered).dealAll dealings).stillBlocked (completeParallel parallelPath
      ((target.output?).elim (({} : Gathered).dealAll dealings).output
        (assign (({} : Gathered).dealAll dealings).output targetName)))) last outcome

theorem dealt_runParallelReentry (hleaf : leafNameOf reentry = some targetName)
    (hnodup : (arms.map StepDefinition.name).Nodup)
    (hmem : ∀ arm ∈ arms, Dict.get memory.stepOutputs (staticChildKey parallelPath arm.name) =
      lastCompletion log (staticChildKey parallelPath arm.name))
    (h : Executes (engineWorld workflow) (runParallelReentry env name arms input parallelPath frames reentry)
      memory t (.ok outcome) memory') :
    ∃ dealings last target, Dealt env log input parallelPath frames reentry targetName arms (effectsOf t)
      outcome dealings last target := by
  simp only [runParallelReentry, hleaf] at h
  obtain ⟨dealings, last, hmap, hall, heffects, hfinish⟩ := deals_reenterArms hnodup hmem h
  obtain ⟨target, ht, hsettles⟩ := emits_settleReentry hfinish
  exact ⟨dealings, last, target, hmap, hall, heffects, ht, hsettles⟩

section Settled

variable {new last : List Effect} {target : ExecOutcome}
  (h : Dealt env log input parallelPath frames reentry targetName arms new outcome dealings last target)

include h

theorem Dealt.exists_dealing (ha : arm ∈ arms) : ∃ dealing, (arm, dealing) ∈ dealings := by
  rw [← h.arms] at ha
  obtain ⟨⟨other, dealing⟩, hm, rfl⟩ := List.mem_map.mp ha
  exact ⟨dealing, hm⟩

theorem Dealt.mem_arms {dealing : Dealing} (hm : (arm, dealing) ∈ dealings) : arm ∈ arms :=
  h.arms ▸ List.mem_map_of_mem hm

theorem Dealt.names_nodup (hnodup : (arms.map StepDefinition.name).Nodup) :
    (dealings.map (fun entry => entry.1.name)).Nodup := by
  rw [← h.arms, List.map_map] at hnodup
  exact hnodup

theorem Dealt.entered : ∃ arm first, arm.name = targetName ∧ (arm, .entered first target) ∈ dealings ∧
    Emits (runStepNode env arm input parallelPath frames (some reentry.descend)) first target := by
  rcases target_dealAll h.reached with hnone | ⟨arm, first, hm⟩
  · cases hnone
  · obtain ⟨hn, hrun⟩ := h.deals _ hm
    exact ⟨arm, first, hn, hm, hrun⟩

theorem Dealt.event {event : RunEvent} (he : event ∈ recordedEvents new) :
    (∃ arm first active o, ((arm, .entered first o) ∈ dealings ∧ arm.name = targetName ∨
        (arm, .ran first o) ∈ dealings) ∧ event ∈ recordedEvents first ∧
        Emits (runStepNode env arm input parallelPath frames active) first o) ∨
    (∃ block, event = .stepCancelled block.path ∧ (∃ error path, outcome = .crashed error path) ∧
      (target = .blocked block ∨ .blocked block ∈ (({} : Gathered).dealAll dealings).extra ∨
        ∃ arm, (arm, .left block) ∈ dealings)) ∨
    ∃ output, event = .nodeCompleted parallelPath output := by
  rw [h.effects, recordedEvents_append, List.mem_append] at he
  rcases he with he | he
  · obtain ⟨effect, hm, hevent⟩ := List.mem_filterMap.mp he
    obtain ⟨⟨arm, dealing⟩, hentry, hleaves⟩ := List.mem_flatMap.mp hm
    have hdeals := h.deals _ hentry
    cases dealing with
    | entered first o =>
      exact .inl ⟨arm, first, _, o, .inl ⟨hentry, hdeals.1⟩, List.mem_filterMap.mpr ⟨effect, hleaves, hevent⟩,
        hdeals.2⟩
    | ran first o =>
      exact .inl ⟨arm, first, _, o, .inr hentry, List.mem_filterMap.mpr ⟨effect, hleaves, hevent⟩,
        hdeals.2.2.2⟩
    | _ => cases hleaves
  · rcases emits_settleConcurrent h.settles with ⟨rfl, -⟩ | ⟨error, path, ho, rfl⟩ | ⟨-, hrest⟩
    · cases he
    · rw [recordedEvents_map] at he
      obtain ⟨block, hb, rfl⟩ := List.mem_map.mp he
      refine .inr (.inl ⟨block, rfl, ⟨error, path, ho⟩, ?_⟩)
      rcases List.mem_append.mp hb with hb | hb
      · obtain ⟨o, hm, hblock⟩ := List.mem_filterMap.mp hb
        cases o with
        | blocked waiting =>
          cases hblock
          rcases List.mem_cons.mp hm with rfl | hm
          · exact .inl rfl
          · exact .inr (.inl hm)
        | _ => cases hblock
      · rcases stillBlocked_dealAll.mp hb with hnil | hleft
        · cases hnil
        · exact .inr (.inr hleft)
    · rcases hrest with ⟨block, -, rfl, -⟩ | ⟨-, -, hok⟩
      · cases he
      · obtain ⟨rfl, -⟩ := emits_completeParallel hok
        obtain rfl := List.mem_singleton.mp he
        exact .inr (.inr ⟨_, rfl⟩)

theorem Dealt.terminal {event : RunEvent} (he : event ∈ recordedEvents new) : event.terminal = none := by
  rcases h.event he with ⟨arm, first, active, o, -, hm, hrun⟩ | ⟨block, rfl, -⟩ | ⟨output, rfl⟩
  · exact ((records_arm hrun).1 event hm).1
  · rfl
  · rfl

/-- Under the condition every other arm was recovered or left, so a re-entry enters its target alone. -/
theorem Dealt.spares (henv : env.pendingBlocks = pendingBlocksExcept log answered)
    (hans : staticKeyOf answered = staticChildKey parallelPath targetName)
    (hstands : ∀ arm ∈ arms, arm.name ≠ targetName → Stands log (staticChildKey parallelPath arm.name))
    (hr : ∀ arm ∈ arms, arm.name ≠ targetName → Recoverable log (staticChildKey parallelPath arm.name))
    {dealing : Dealing} (hm : (arm, dealing) ∈ dealings) (hne : arm.name ≠ targetName) :
    ∃ state, roundState log (staticChildKey parallelPath arm.name) = some state ∧
      ((∃ value, dealing = .recovered value ∧ state.output? = some value) ∨
        ∃ block, dealing = .left block ∧ state = .waiting) := by
  have ha := h.mem_arms hm
  obtain ⟨state, hs, hw⟩ := hstands arm ha hne
  exact ⟨state, hs, deals_of_recoverable henv hans (h.deals _ hm) hne hs hw (hr arm ha hne)⟩

theorem Dealt.unopened (henv : env.pendingBlocks = pendingBlocksExcept log answered)
    (hans : staticKeyOf answered = staticChildKey parallelPath targetName)
    (hstands : ∀ arm ∈ arms, arm.name ≠ targetName → Stands log (staticChildKey parallelPath arm.name))
    (hr : ∀ arm ∈ arms, arm.name ≠ targetName → Recoverable log (staticChildKey parallelPath arm.name))
    (hne : arm.name ≠ targetName) {event : RunEvent} (he : event ∈ recordedEvents new) {path : NodePath}
    (hs : event.subject = some path) (hk : staticKeyOf path = staticChildKey parallelPath arm.name) :
    roundState log (staticChildKey parallelPath arm.name) = some .waiting ∧ event = .stepCancelled path ∧
      ∃ error crashedAt, outcome = .crashed error crashedAt := by
  rcases h.event he with ⟨other, first, active, o, hm, hfirst, hrun⟩ | ⟨block, rfl, hcrash, hblock⟩ | ⟨output, rfl⟩
  · obtain rfl := Option.some.inj (hs.symm.trans ((records_arm hrun).1 event hfirst).2)
    rw [staticKeyOf_appendSegment] at hk
    rcases hm with ⟨-, hn⟩ | hran
    · exact absurd ((staticChildKey_inj hk).symm.trans hn) hne
    · have hother : other.name ≠ targetName := by
        rw [staticChildKey_inj hk]
        exact hne
      obtain ⟨state, -, ⟨value, hd, -⟩ | ⟨block, hd, -⟩⟩ := h.spares henv hans hstands hr hran hother
      · cases hd
      · cases hd
  · obtain rfl := Option.some.inj hs
    rcases hblock with rfl | hextra | ⟨other, hleft⟩
    · obtain ⟨entered, first, hn, -, hrun⟩ := h.entered
      rw [key_of_blocked_arm hrun, hn] at hk
      exact absurd (staticChildKey_inj hk).symm hne
    · rcases extra_dealAll.mp hextra with hnil | ⟨⟨other, dealing⟩, hm, ⟨first, hd⟩ | ⟨-, hd⟩⟩
      · cases hnil
      · dsimp only at hd
        subst hd
        obtain ⟨state, -, ⟨value, hd, -⟩ | ⟨block, hd, -⟩⟩ :=
          h.spares henv hans hstands hr hm (h.deals _ hm).1
        · cases hd
        · cases hd
      · cases hd
    · obtain ⟨hother, -, hp⟩ := h.deals _ hleft
      rw [henv] at hp
      obtain ⟨asked, -, -, hkey, rfl⟩ := get_pendingBlocksExcept hp
      rw [path_pendingBlockFromEvent, hkey] at hk
      obtain ⟨state, hstate, ⟨value, hd, -⟩ | ⟨block, -, rfl⟩⟩ := h.spares henv hans hstands hr hleft hother
      · cases hd
      · exact ⟨hk ▸ hstate, rfl, hcrash⟩
  · obtain rfl := Option.some.inj hs
    exact absurd hk (staticChildKey_ne parallelPath arm.name)

theorem Dealt.target_settles {output : Value} (ho : outcome = .ok output) :
    ∃ event ∈ recordedEvents new, ∃ state,
      event.armState (staticChildKey parallelPath targetName) = some state ∧ state.output?.isSome := by
  subst ho
  obtain ⟨hall, -, -⟩ := ok_of_settleConcurrent h.settles
  obtain ⟨value, rfl⟩ := hall target List.mem_cons_self
  obtain ⟨entered, first, hn, hm, hrun⟩ := h.entered
  obtain ⟨event, he, state, hstate, hsome⟩ := (records_arm hrun).2 value rfl
  refine ⟨event, ?_, state, hn ▸ hstate, hsome⟩
  obtain ⟨effect, heffect, hevent⟩ := List.mem_filterMap.mp he
  rw [h.effects, recordedEvents_append, List.mem_append]
  exact .inl (List.mem_filterMap.mpr ⟨effect, List.mem_flatMap.mpr ⟨_, hm, heffect⟩, hevent⟩)

theorem Dealt.record (hnodup : (arms.map StepDefinition.name).Nodup) {output : Value} (ho : outcome = .ok output) :
    ∃ record, output = .object record ∧ (∀ arm block, (arm, .left block) ∉ dealings) ∧
      (∀ arm, (arm, .skipped) ∉ dealings) ∧
      (∀ arm first o, (arm, .ran first o) ∈ dealings → ∃ value, o = .ok value) ∧
      ∀ arm value, arm.name ≠ targetName → (arm, .recovered value) ∈ dealings →
        Dict.get record arm.name = if arm.name = "__proto__" then none else some value := by
  subst ho
  obtain ⟨hall, hstill, hok⟩ := ok_of_settleConcurrent h.settles
  obtain ⟨-, hrecord⟩ := emits_completeParallel hok
  cases hrecord
  have hextra : ∀ o, (∃ entry ∈ dealings, (∃ first, entry.2 = .ran first o) ∨
      (entry.2 = .skipped ∧ o = .cancelled none none)) → ∃ value, o = .ok value :=
    fun o hm => hall o (List.mem_cons_of_mem _ (extra_dealAll.mpr (.inr hm)))
  refine ⟨_, rfl, ?_, ?_, ?_, ?_⟩
  · intro arm block hm
    have hmem : block ∈ (({} : Gathered).dealAll dealings).stillBlocked :=
      stillBlocked_dealAll.mpr (.inr ⟨arm, hm⟩)
    rw [hstill] at hmem
    cases hmem
  · intro arm hm
    obtain ⟨value, hv⟩ := hextra _ ⟨_, hm, .inr ⟨rfl, rfl⟩⟩
    cases hv
  · exact fun arm first o hm => hextra o ⟨_, hm, .inl ⟨first, rfl⟩⟩
  · intro arm value hne hm
    rw [get_output_target hne, output_dealAll (h.names_nodup hnodup) hm]
    rfl

end Settled

end Reentry

end KimchiWorkflows.Engine
