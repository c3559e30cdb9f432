import KimchiWorkflows.Engine.ForeachSettling

namespace KimchiWorkflows.Engine

open KimchiWorkflows.Flow

variable {env : RunEnv} {arms : List StepDefinition} {arm : StepDefinition} {name targetName : String}
  {parentPath parallelPath scope key : NodePath} {frames : List ScopeFrame} {input : Value}
  {reentry : Option Reentry} {active : Reentry} {effects : List Effect} {outcome : ExecOutcome}
  {events : List RunEvent} {settled : List (String × ExecOutcome)} {gathered : Gathered}

theorem completes_completeParallel (output : Record) :
    Completes parallelPath (completeParallel parallelPath output) :=
  completes_emitNodeCompleted _ _ _

theorem staticChildKey_inj {parent : NodePath} {a b : String}
    (h : staticChildKey parent a = staticChildKey parent b) : a = b := by
  simpa [staticChildKey] using h

theorem settles_arm (hs : scope <+: staticPathOf parallelPath)
    (h : Emits (runStepNode env arm input parallelPath frames reentry) effects outcome) :
    Settles env reentry.isSome scope (recordedEvents effects) outcome :=
  (settles_runStepNode arm _ _ _ _ _ _ h).widen hs

theorem untouched_arm (h : Emits (runStepNode env arm input parallelPath frames reentry) effects outcome)
    (hk : staticChildKey parallelPath arm.name ≠ key) : Untouched key (recordedEvents effects) := by
  obtain ⟨events, rfl, hs⟩ := runsStep_runStepNode arm input reentry _ _ h
  rw [recordedEvents_map]
  exact hs.untouched (by rwa [staticKeyOf_appendSegment])

theorem key_of_blocked_arm {block : PendingBlock}
    (h : Emits (runStepNode env arm input parallelPath frames reentry) effects (.blocked block)) :
    staticKeyOf block.path = staticChildKey parallelPath arm.name := by
  obtain ⟨events, -, hs⟩ := runsStep_runStepNode arm input reentry _ _ h
  cases hs with
  | asked work event block hw he hp => rw [hp, staticKeyOf_appendSegment]

theorem settles_runParallelFresh (hs : scope <+: staticPathOf parallelPath)
    (hb : Below scope (staticKeyOf parallelPath)) (hnodup : (arms.map StepDefinition.name).Nodup)
    (h : Emits (runParallelFresh env arms input parallelPath frames) effects outcome) :
    Settles env false scope (recordedEvents effects) outcome := by
  obtain ⟨rest, rfl, hr⟩ := emits_emit h
  refine Settles.after_quiet ?_ (quiet_singleton (fun _ => rfl)) (inside_singleton rfl rfl hb)
  let region : Nat → NodePath → Prop :=
    fun i key => ∃ hi : i < arms.length, staticChildKey parallelPath arms[i].name = key
  refine settles_runConcurrent region hb (fun results => completes_completeParallel _) ?_ ?_ hr
  · intro i hi effects outcome he
    have hlen : i < arms.length := by simpa using hi
    rw [List.getElem_map] at he
    refine ⟨settles_arm hs he, ?_⟩
    intro key hk
    exact untouched_arm he (fun hkey => hk ⟨hlen, hkey⟩)
  · rintro i - j - key ⟨hi, rfl⟩ ⟨hj, hk⟩
    have hname := staticChildKey_inj hk
    have hi' : i < (arms.map StepDefinition.name).length := by simpa using hi
    have hj' : j < (arms.map StepDefinition.name).length := by simpa using hj
    have hget : (arms.map StepDefinition.name)[i] = (arms.map StepDefinition.name)[j] := by
      simpa using hname.symm
    exact (List.Nodup.getElem_inj_iff hnodup).mp hget

/-- The arms passed so far have settled, or wait untouched, and none of them is still to come. -/
structure Passed (env : RunEnv) (scope parallelPath : NodePath) (targetName : String)
    (arms : List StepDefinition) (events : List RunEvent) (settled : List (String × ExecOutcome))
    (gathered : Gathered) : Prop where
  gathers : Gathers env true scope (fun name key => staticChildKey parallelPath name = key) events settled
  outcomes : ∀ o, gathered.target = some o ∨ o ∈ gathered.extra ↔ ∃ i, (i, o) ∈ settled
  waiting : ∀ block ∈ gathered.stillBlocked, LeftWaiting env scope (staticKeyOf block.path) events ∧
    ∀ arm ∈ arms, staticChildKey parallelPath arm.name ≠ staticKeyOf block.path
  fresh : ∀ entry ∈ settled, ∀ arm ∈ arms, entry.1 ≠ arm.name
  target : gathered.target.isSome → ∀ arm ∈ arms, arm.name ≠ targetName

theorem Passed.add (gathered' : Gathered)
    (h : Passed env scope parallelPath targetName (arm :: arms) events settled gathered)
    (hfresh : ∀ other ∈ arms, arm.name ≠ other.name) {last : List RunEvent} {reentered : Bool}
    (hs : Settles env reentered scope last outcome)
    (hu : ∀ key, staticChildKey parallelPath arm.name ≠ key → Untouched key last)
    (hw : ∀ block, outcome = .blocked block → staticKeyOf block.path = staticChildKey parallelPath arm.name)
    (ho : ∀ o, gathered'.target = some o ∨ o ∈ gathered'.extra ↔
      (gathered.target = some o ∨ o ∈ gathered.extra) ∨ o = outcome)
    (hstill : gathered'.stillBlocked = gathered.stillBlocked)
    (ht : gathered'.target.isSome → gathered.target.isSome ∨ arm.name = targetName) :
    Passed env scope parallelPath targetName arms (events ++ last) (settled ++ [(arm.name, outcome)])
      gathered' where
  gathers := by
    refine h.gathers.add hs hu ?_ ?_
    · intro block hb
      refine ⟨h.gathers.confined _ ?_, (hw block hb).symm⟩
      intro entry he hk
      rw [hw block hb] at hk
      exact h.fresh entry he arm List.mem_cons_self (staticChildKey_inj hk)
    · intro entry he key hk hk'
      exact h.fresh entry he arm List.mem_cons_self (staticChildKey_inj (hk.trans hk'.symm))
  outcomes o := by
    rw [ho, h.outcomes]
    simp only [List.mem_append, List.mem_singleton, Prod.mk.injEq]
    constructor
    · rintro (⟨i, hi⟩ | rfl)
      · exact ⟨i, .inl hi⟩
      · exact ⟨arm.name, .inr ⟨rfl, rfl⟩⟩
    · rintro ⟨i, hi | ⟨-, rfl⟩⟩
      · exact .inl ⟨i, hi⟩
      · exact .inr rfl
  waiting block hb := by
    rw [hstill] at hb
    obtain ⟨⟨hp, hbelow, hleft⟩, hne⟩ := h.waiting block hb
    refine ⟨⟨hp, hbelow, untouched_append.mpr ⟨hleft, hu _ (hne arm List.mem_cons_self)⟩⟩, ?_⟩
    exact fun other hother => hne other (List.mem_cons_of_mem _ hother)
  fresh entry he other hother := by
    rcases List.mem_append.mp he with he | he
    · exact h.fresh entry he other (List.mem_cons_of_mem _ hother)
    · rw [List.mem_singleton.mp he]
      exact hfresh other hother
  target hsome other hother := by
    rcases ht hsome with hold | hname
    · exact h.target hold other (List.mem_cons_of_mem _ hother)
    · rw [← hname]
      exact (hfresh other hother).symm

theorem Passed.tail
    (h : Passed env scope parallelPath targetName (arm :: arms) events settled gathered) :
    Passed env scope parallelPath targetName arms events settled gathered where
  gathers := h.gathers
  outcomes := h.outcomes
  waiting block hb := ⟨(h.waiting block hb).1,
    fun other hother => (h.waiting block hb).2 other (List.mem_cons_of_mem _ hother)⟩
  fresh entry he other hother := h.fresh entry he other (List.mem_cons_of_mem _ hother)
  target hsome other hother := h.target hsome other (List.mem_cons_of_mem _ hother)

theorem settles_reenterArms (henv : PendingByKey env) (hs : scope <+: staticPathOf parallelPath)
    (hb : Below scope (staticKeyOf parallelPath)) (hnodup : (arms.map StepDefinition.name).Nodup)
    (hp : Passed env scope parallelPath targetName arms events settled gathered)
    (h : Emits (reenterArms env input parallelPath frames active targetName
      (settleReentry name targetName parallelPath) arms gathered) effects outcome) :
    Settles env true scope (events ++ recordedEvents effects) outcome := by
  induction arms generalizing events settled gathered effects with
  | nil =>
    simp only [reenterArms, settleReentry] at h
    split at h
    · exact absurd h (fun h => emits_raise h)
    · rename_i target ht
      refine hp.gathers.settles hb ?_ (fun block hm => ⟨rfl, (hp.waiting block hm).1⟩)
        (completes_completeParallel _) h
      intro o
      rw [← hp.outcomes, ht]
      simp [eq_comm]
  | cons arm rest ih =>
    obtain ⟨hnotin, hrest⟩ := List.nodup_cons.mp hnodup
    have hfresh : ∀ other ∈ rest, arm.name ≠ other.name :=
      fun other hother he => hnotin (he ▸ List.mem_map_of_mem hother)
    rcases emits_reenterArms_cons h with
      ⟨htarget, first, last, o, rfl, hf, hl⟩ | ⟨hne, ⟨value, hrec⟩ | ⟨pending, hpend, hleft⟩ | hstop |
        ⟨first, last, o, rfl, hf, hl⟩⟩
    · rw [recordedEvents_append, ← List.append_assoc]
      refine ih hrest (hp.add { gathered with target := some o } hfresh (settles_arm hs hf)
        (fun key hk => untouched_arm hf hk) ?_ ?_ rfl (fun _ => .inr htarget)) hl
      · rintro block rfl
        exact key_of_blocked_arm hf
      · intro o'
        have hnone : gathered.target = none := by
          by_contra hsome
          exact hp.target (Option.isSome_iff_ne_none.mpr hsome) arm List.mem_cons_self htarget
        simp only [hnone, reduceCtorEq, false_or, Option.some.injEq]
        rw [or_comm, eq_comm]
    · have htail : Passed env scope parallelPath targetName rest events settled
          { gathered with output := assign gathered.output arm.name value } := { hp.tail with }
      exact ih hrest htail hrec
    · have htail : Passed env scope parallelPath targetName rest events settled
          { gathered with stillBlocked := gathered.stillBlocked ++ [pending] } := by
        refine { hp.tail with waiting := ?_ }
        intro block hm
        rcases List.mem_append.mp hm with hm | hm
        · exact hp.tail.waiting block hm
        · rw [List.mem_singleton.mp hm, henv _ _ hpend]
          refine ⟨⟨Option.isSome_iff_exists.mpr ⟨pending, hpend⟩, ?_, ?_⟩, ?_⟩
          · exact ⟨hs.trans (prefix_staticChildKey _ _), lt_of_le_of_lt hs.length_le (by simp [staticChildKey])⟩
          · apply hp.gathers.confined
            intro entry he hk
            exact hp.fresh entry he arm List.mem_cons_self (staticChildKey_inj hk)
          · exact fun other hother hk => hfresh other hother (staticChildKey_inj hk).symm
      exact ih hrest htail hleft
    · have hcancelled : Settles env true scope [] (.cancelled none none) := settles_stopped inside_nil rfl
      have hadd := hp.add { gathered with extra := gathered.extra ++ [.cancelled none none] } hfresh
        hcancelled (by simp [Untouched]) (by simp) (by intro o; simp [or_assoc]) rfl
        (fun hsome => .inl hsome)
      rw [List.append_nil] at hadd
      exact ih hrest hadd hstop
    · rw [recordedEvents_append, ← List.append_assoc]
      refine ih hrest (hp.add (gathered.settleArm arm.name o) hfresh (settles_arm hs hf)
        (fun key hk => untouched_arm hf hk) ?_ ?_ rfl (fun hsome => .inl hsome)) hl
      · rintro block rfl
        exact key_of_blocked_arm hf
      · intro o'
        simp [Gathered.settleArm, or_assoc]

theorem settles_runParallelNode (henv : PendingByKey env) (hnodup : (arms.map StepDefinition.name).Nodup) :
    RunnerSettles env (runParallelNode env name arms) := by
  intro input parentPath frames reentry effects outcome h
  have hb := below_appendSegment parentPath name
  have hs : staticPathOf parentPath <+: staticPathOf (appendSegment parentPath name) := by
    rw [staticPathOf_appendSegment]
    exact prefix_staticChildKey parentPath name
  cases reentry with
  | none => exact settles_runParallelFresh hs hb hnodup h
  | some active =>
    simp only [runParallelNode, runParallelReentry] at h
    split at h
    · exact absurd h (fun h => emits_raise h)
    · rename_i targetName _
      have hnil : Passed env (staticPathOf parentPath) (appendSegment parentPath name) targetName arms [] []
          {} := ⟨gathers_nil, by simp, by simp, by simp, by simp⟩
      exact settles_reenterArms henv hs hb hnodup hnil h

end KimchiWorkflows.Engine
