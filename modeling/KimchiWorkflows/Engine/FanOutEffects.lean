import KimchiWorkflows.Engine.RunnerEffects

/-!
Inversion lemmas for the constructs whose items or arms settle together.
-/

namespace KimchiWorkflows.Engine

open KimchiWorkflows.Flow Process Process.Proc Interleaving

variable {env : RunEnv} {parentPath : NodePath} {frames : List ScopeFrame} {effects : List Effect}
  {outcome : ExecOutcome}

/-- Neither cancelled nor crashed: the outcomes a construct can still go on from. -/
def ExecOutcome.held : ExecOutcome → Bool
  | .ok _ => true
  | .blocked _ => true
  | _ => false

theorem firstCancelled_some {outcomes : List ExecOutcome} {o : ExecOutcome}
    (h : firstCancelled outcomes = some o) : ∃ path source, o = .cancelled path source := by
  have := List.find?_some h
  cases o <;> simp_all

theorem firstCrashed_some {outcomes : List ExecOutcome} {o : ExecOutcome}
    (h : firstCrashed outcomes = some o) : ∃ error path, o = .crashed error path := by
  have := List.find?_some h
  cases o <;> simp_all

theorem held_of_none {outcomes : List ExecOutcome} (hc : firstCancelled outcomes = none)
    (hr : firstCrashed outcomes = none) : ∀ o ∈ outcomes, o.held = true := by
  intro o ho
  have h₁ := List.find?_eq_none.mp hc o ho
  have h₂ := List.find?_eq_none.mp hr o ho
  cases o <;> simp_all [ExecOutcome.held]

theorem emits_settleConcurrent {outcomes : List ExecOutcome} {stillBlocked : List PendingBlock}
    {onOk : Code} (h : Emits (settleConcurrent outcomes stillBlocked onOk) effects outcome) :
    (effects = [] ∧ ∃ path source, outcome = .cancelled path source) ∨
    (∃ error path, outcome = .crashed error path ∧ effects = (stepsCancelled
      (outcomes.filterMap ExecOutcome.block? ++ stillBlocked)).map Effect.recorded) ∨
    ((∀ o ∈ outcomes, o.held = true) ∧
      ((∃ block, (outcomes.filterMap ExecOutcome.block? ++ stillBlocked).head? = some block ∧
        effects = [] ∧ outcome = .blocked block) ∨
      (outcomes.filterMap ExecOutcome.block? = [] ∧ stillBlocked = [] ∧ Emits onOk effects outcome))) := by
  unfold settleConcurrent at h
  dsimp only at h
  cases hc : firstCancelled outcomes with
  | some o =>
    simp only [hc] at h
    obtain ⟨path, source, rfl⟩ := firstCancelled_some hc
    obtain ⟨rfl, rfl⟩ := emits_conclude h
    exact .inl ⟨rfl, path, source, rfl⟩
  | none =>
    cases hr : firstCrashed outcomes with
    | some o =>
      simp only [hc, hr] at h
      obtain ⟨error, path, rfl⟩ := firstCrashed_some hr
      obtain ⟨rest, rfl, hrest⟩ := emits_emitAll h
      obtain ⟨rfl, rfl⟩ := emits_conclude hrest
      exact .inr (.inl ⟨error, path, rfl, by simp⟩)
    | none =>
      refine .inr (.inr ⟨held_of_none hc hr, ?_⟩)
      cases hw : outcomes.filterMap ExecOutcome.block? ++ stillBlocked with
      | nil =>
        simp only [hc, hr, hw] at h
        obtain ⟨h₁, h₂⟩ := List.append_eq_nil_iff.mp hw
        exact .inr ⟨h₁, h₂, h⟩
      | cons block rest =>
        simp only [hc, hr, hw] at h
        obtain ⟨rfl, rfl⟩ := emits_conclude h
        exact .inl ⟨block, by simp, rfl, rfl⟩

def laneOutcome : Option Settlement → Option ExecOutcome
  | some (.ok outcome) => some outcome
  | _ => none

theorem collectOutcomes_ok {results : List (Option Settlement)} {outcomes : List ExecOutcome}
    (h : collectOutcomes results = .ok outcomes) :
    outcomes = results.filterMap laneOutcome ∧ ∀ error, some (.error error) ∉ results := by
  induction results generalizing outcomes with
  | nil =>
    cases h
    exact ⟨rfl, by simp⟩
  | cons result rest ih =>
    match result with
    | none =>
      obtain ⟨rfl, hn⟩ := ih h
      exact ⟨rfl, by simpa using hn⟩
    | some (.error e) => simp [collectOutcomes] at h
    | some (.ok o) =>
      simp only [collectOutcomes] at h
      cases hr : collectOutcomes rest with
      | error e =>
        rw [hr] at h
        cases h
      | ok os =>
        rw [hr] at h
        cases h
        obtain ⟨rfl, hn⟩ := ih hr
        exact ⟨rfl, by simpa using hn⟩

theorem emits_settleAll {results : List (Option Settlement)} {onOk : Code}
    (h : Emits (settleAll results onOk) effects outcome) :
    (∀ error, some (.error error) ∉ results) ∧
      Emits (settleConcurrent (results.filterMap laneOutcome) [] onOk) effects outcome := by
  unfold settleAll at h
  split at h
  · exact absurd h (fun h => emits_raise h)
  · rename_i outcomes ho
    obtain ⟨rfl, hn⟩ := collectOutcomes_ok ho
    exact ⟨hn, h⟩

/-- A pool that is settled together: its tasks interleave, each settles with an outcome or was never
started, and only a crash or a cancellation leaves one unstarted. -/
theorem emits_pool {tasks : List Code} {localLimit : Nat} {onOk : List (Option Settlement) → Code}
    (h : Emits (runConcurrent tasks localLimit (fun results => settleAll results (onOk results)))
      effects outcome) :
    ∃ (tagged : List (Nat × Effect)) (rest : List Effect) (settled : Nat → Option ExecOutcome),
      effects = tagged.map Prod.snd ++ rest ∧ (∀ e ∈ tagged, e.1 < tasks.length) ∧
      (∀ i (hi : i < tasks.length), (∃ o, settled i = some o ∧ Emits tasks[i] (own i tagged) o) ∨
        (settled i = none ∧ own i tagged = [])) ∧
      ((∀ i < tasks.length, (settled i).isSome) ∨
        ∃ i < tasks.length, ∃ o, settled i = some o ∧ o.held = false) ∧
      Emits (settleConcurrent ((List.range tasks.length).filterMap settled) []
        (onOk ((List.range tasks.length).map (fun i => (settled i).map Except.ok)))) rest outcome := by
  obtain ⟨tagged, rest, results, rfl, hn, hb, hl, hs⟩ := emits_runConcurrent h
  obtain ⟨herr, hset⟩ := emits_settleAll hn
  have hnoerr : ∀ i < tasks.length, ∀ error, results i ≠ some (.error error) := by
    intro i hi error he
    exact herr error (List.mem_map.mpr ⟨i, List.mem_range.mpr hi, he⟩)
  have hback : (List.range tasks.length).map (fun i => (laneOutcome (results i)).map Except.ok) =
      (List.range tasks.length).map results := by
    apply List.map_congr_left
    intro i hi
    have hne := hnoerr i (List.mem_range.mp hi)
    cases hr : results i with
    | none => rfl
    | some r =>
      cases r with
      | error error => exact absurd hr (hne error)
      | ok o => rfl
  refine ⟨tagged, rest, fun i => laneOutcome (results i), rfl, hb, ?_, ?_, ?_⟩
  · intro i hi
    rcases hl i hi with ⟨t, r, hr, ht, he⟩ | ⟨hr, he⟩
    · cases r with
      | error error => exact absurd hr (hnoerr i hi error)
      | ok o => exact .inl ⟨o, by simp [hr, laneOutcome], t, ht, he⟩
    · exact .inr ⟨by simp [hr, laneOutcome], he⟩
  · rcases hs with hall | ⟨i, hi, r, hr, hstop⟩
    · refine .inl ?_
      intro i hi
      obtain ⟨r, hr⟩ := Option.isSome_iff_exists.mp (hall i hi)
      cases r with
      | error error => exact absurd hr (hnoerr i hi error)
      | ok o => simp [hr, laneOutcome]
    · cases r with
      | error error => exact absurd hr (hnoerr i hi error)
      | ok o => exact .inr ⟨i, hi, o, by simp [hr, laneOutcome], by cases o <;> simp_all [stopsPool, ExecOutcome.held]⟩
  · rw [hback]
    rwa [List.filterMap_map] at hset

section Foreach

variable {each : ForeachDefinition} {body : List Walked} {items : List Value}

theorem emits_runItem {index : Nat} {input : Value} {reentry : Option Reentry}
    {next : ExecOutcome → Code}
    (h : Emits (runItem each body parentPath frames items index input reentry next) effects outcome) :
    ∃ first last o itemFrames, effects = (if reentry.isSome then [] else
        [Effect.recorded (.foreachItemStarted (appendForeachItem parentPath each.name index) index)]) ++
        (first ++ ((o.output?).elim [] (fun output =>
          [Effect.recorded (.foreachItemCompleted (appendForeachItem parentPath each.name index) index output)])
          ++ last)) ∧
      Emits (runNodeSequence body input (appendForeachItem parentPath each.name index) itemFrames 0 reentry)
        first o ∧ Emits (next o) last outcome := by
  obtain ⟨rest, rfl, hr⟩ := emits_emitAll h
  obtain ⟨first, more, o, rfl, hf, hn⟩ := emits_andThen hr
  obtain ⟨last, rfl, hl⟩ := emits_emitAll hn
  exact ⟨first, last, o, frames ++ [foreachFrame each.name index items],
    by split_ifs <;> cases o <;> rfl, hf, hl⟩

theorem emits_runItemsFrom {remaining index : Nat} {results : List Value} {fed : Value}
    {reentry : Option Reentry}
    (h : Emits (runItemsFrom each body parentPath frames items (remaining + 1) index results fed reentry)
      effects outcome) :
    (effects = [] ∧ outcome = .cancelled none none) ∨
    ∃ input, Emits (runItem each body parentPath frames items index input reentry (fun outcome =>
      match outcome with
      | .ok output => runItemsFrom each body parentPath frames items remaining (index + 1)
          (results ++ [output]) (passThrough output fed) none
      | other => conclude other)) effects outcome := by
  obtain ⟨memory, hm⟩ := emits_look h
  by_cases ha : memory.aborted = true
  · rw [if_pos ha] at hm
    exact .inl (emits_conclude hm)
  · rw [if_neg ha] at hm
    exact .inr ⟨_, hm⟩

theorem emits_runExtraItems_cons {finish : List (Nat × ExecOutcome) → Code} {index : Nat}
    {rest : List Nat} {settled : List (Nat × ExecOutcome)}
    (h : Emits (runExtraItems each body parentPath frames items finish (index :: rest) settled)
      effects outcome) :
    Emits (finish (settled ++ [(index, .cancelled none none)])) effects outcome ∨
    Emits (runItem each body parentPath frames items index (items.getD index .undefined) none
      (fun outcome => runExtraItems each body parentPath frames items finish rest
        (settled ++ [(index, outcome)]))) effects outcome := by
  obtain ⟨memory, hm⟩ := emits_look h
  split_ifs at hm
  · exact .inl hm
  · exact .inr hm

theorem emits_runForeachNode {input : Value} {reentry : Option Reentry}
    (h : Emits (runForeachNode env each body input parentPath frames reentry) effects outcome) :
    (effects = [] ∧ ∃ error, outcome = .crashed error (some (foreachPath each parentPath))) ∨
    ∃ items rest, effects = (if reentry.isSome then [] else
        [Effect.recorded (.foreachStarted (foreachPath each parentPath) items.length)]) ++ rest ∧
      (Emits (runForeachSequential each body parentPath frames items input
        ((Dict.get env.foreachItemHistory (foreachPath each parentPath)).getD []) reentry) rest outcome ∨
      (reentry = none ∧ Emits (runForeachConcurrentFresh each body parentPath frames items
        ((Dict.get env.foreachItemHistory (foreachPath each parentPath)).getD [])) rest outcome) ∨
      ∃ active, reentry = some active ∧ Emits (runForeachConcurrentReentry each body parentPath frames
        items env ((Dict.get env.foreachItemHistory (foreachPath each parentPath)).getD []) active)
        rest outcome) := by
  obtain ⟨memory, hm⟩ := emits_look h
  dsimp only at hm
  split at hm
  · exact .inl ⟨(emits_conclude hm).1, _, (emits_conclude hm).2⟩
  · rename_i items hi
    obtain ⟨rest, rfl, hr⟩ := emits_emitAll hm
    refine .inr ⟨items, rest, by split_ifs <;> rfl, ?_⟩
    by_cases hc : each.concurrency ≤ 1
    · rw [if_pos hc] at hr
      exact .inl hr
    · rw [if_neg hc] at hr
      cases reentry with
      | none => exact .inr (.inl ⟨rfl, hr⟩)
      | some active => exact .inr (.inr ⟨active, rfl, hr⟩)
  · exact .inl ⟨(emits_conclude hm).1, _, (emits_conclude hm).2⟩

end Foreach

theorem emits_reenterArms_cons {input : Value} {parallelPath : NodePath} {reentry : Reentry}
    {targetName : String} {finish : Gathered → Code} {arm : StepDefinition} {rest : List StepDefinition}
    {gathered : Gathered}
    (h : Emits (reenterArms env input parallelPath frames reentry targetName finish (arm :: rest) gathered)
      effects outcome) :
    (arm.name = targetName ∧ ∃ first last o, effects = first ++ last ∧
      Emits (runStepNode env arm input parallelPath frames (some reentry.descend)) first o ∧
      Emits (reenterArms env input parallelPath frames reentry targetName finish rest
        { gathered with target := some o }) last outcome) ∨
    (arm.name ≠ targetName ∧
      ((∃ value, Emits (reenterArms env input parallelPath frames reentry targetName finish rest
        { gathered with output := assign gathered.output arm.name value }) effects outcome) ∨
      (∃ pending, Dict.get env.pendingBlocks (staticChildKey parallelPath arm.name) = some pending ∧
        Emits (reenterArms env input parallelPath frames reentry targetName finish rest
          { gathered with stillBlocked := gathered.stillBlocked ++ [pending] }) effects outcome) ∨
      Emits (reenterArms env input parallelPath frames reentry targetName finish rest
        { gathered with extra := gathered.extra ++ [.cancelled none none] }) effects outcome ∨
      ∃ first last o, effects = first ++ last ∧
        Emits (runStepNode env arm input parallelPath frames none) first o ∧
        Emits (reenterArms env input parallelPath frames reentry targetName finish rest
          (gathered.settleArm arm.name o)) last outcome)) := by
  simp only [reenterArms] at h
  split_ifs at h with hn
  · obtain ⟨first, last, o, rfl, hf, hl⟩ := emits_andThen h
    exact .inl ⟨hn, first, last, o, rfl, hf, hl⟩
  · refine .inr ⟨hn, ?_⟩
    obtain ⟨memory, hm⟩ := emits_look h
    split at hm
    · exact .inl ⟨_, hm⟩
    · split at hm
      · rename_i pending hp
        exact .inr (.inl ⟨pending, hp, hm⟩)
      · split_ifs at hm
        · exact .inr (.inr (.inl hm))
        · obtain ⟨first, last, o, rfl, hf, hl⟩ := emits_andThen hm
          exact .inr (.inr (.inr ⟨first, last, o, rfl, hf, hl⟩))

end KimchiWorkflows.Engine
