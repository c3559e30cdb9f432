import KimchiWorkflows.Engine.FanOutEffects

/-!
Where each element of a foreach's output comes from: a checkpoint of this run, or the history.
-/

namespace KimchiWorkflows.Engine

open KimchiWorkflows.Flow Process Process.Proc Interleaving

variable {env : RunEnv} {each : ForeachDefinition} {body : List Walked} {parentPath : NodePath}
  {frames : List ScopeFrame} {items : List Value} {history : ItemHistory} {effects : List Effect}
  {outcome : ExecOutcome} {output input : Value} {reentry : Option Reentry}

def itemDone (parentPath : NodePath) (name : String) (index : Nat) (value : Value) : RunEvent :=
  .foreachItemCompleted (appendForeachItem parentPath name index) index value

/-- Each element is one the events checkpoint at its index, or the one the history holds there. -/
def Placed (each : ForeachDefinition) (parentPath : NodePath) (history : ItemHistory) (events : List RunEvent)
    (results : List Value) : Prop :=
  ∀ index value, results[index]? = some value →
    itemDone parentPath each.name index value ∈ events ∨ value = itemOutput history index

theorem done_of_runItem {index : Nat} {next : ExecOutcome → Code}
    (h : Emits (runItem each body parentPath frames items index input reentry next) effects outcome) :
    ∃ first last o, effects = first ++ last ∧ Emits (next o) last outcome ∧
      ∀ value, o = .ok value → itemDone parentPath each.name index value ∈ recordedEvents first := by
  obtain ⟨bodyEffects, last, o, itemFrames, rfl, -, hnext⟩ := emits_runItem h
  refine ⟨_, last, o, by rw [← List.append_assoc, ← List.append_assoc], hnext, ?_⟩
  rintro value rfl
  simp [ExecOutcome.output?, itemDone]

theorem ok_of_completeForeach {results : List Value}
    (h : Emits (completeForeach each parentPath results) effects (.ok output)) : output = .array results := by
  obtain ⟨rest, -, hrest⟩ := emits_emit h
  have hsame := (emits_conclude hrest).2
  cases hsame
  rfl

theorem outputs_runItemsFrom {remaining index : Nat} {results : List Value} {fed : Value}
    (h : Emits (runItemsFrom each body parentPath frames items remaining index results fed reentry) effects
      (.ok output)) :
    ∃ more, output = .array (results ++ more) ∧ ∀ k value, more[k]? = some value →
      itemDone parentPath each.name (index + k) value ∈ recordedEvents effects := by
  induction remaining generalizing index results fed reentry effects with
  | zero => exact ⟨[], by rw [List.append_nil]; exact ok_of_completeForeach h, by simp⟩
  | succ remaining ih =>
    obtain ⟨-, ho⟩ | ⟨itemInput, hrun⟩ := emits_runItemsFrom h
    · cases ho
    · obtain ⟨first, last, o, rfl, hnext, hdone⟩ := done_of_runItem hrun
      cases o with
      | ok value =>
        obtain ⟨more, rfl, hmore⟩ := ih hnext
        refine ⟨value :: more, by rw [List.append_assoc]; rfl, ?_⟩
        intro k other hk
        rw [recordedEvents_append]
        cases k with
        | zero =>
          obtain rfl : value = other := by simpa using hk
          exact List.mem_append_left _ (hdone value rfl)
        | succ k =>
          have hin := hmore k other (by simpa using hk)
          rw [show index + 1 + k = index + (k + 1) from by omega] at hin
          exact List.mem_append_right _ hin
      | _ =>
        have ho := (emits_conclude hnext).2
        cases ho

theorem placed_runItemsFrom {remaining start : Nat} {fed : Value}
    (h : Emits (runItemsFrom each body parentPath frames items remaining start
      (recoverPrefix history input start).1 fed reentry) effects (.ok output)) :
    ∃ results, output = .array results ∧ Placed each parentPath history (recordedEvents effects) results := by
  obtain ⟨more, rfl, hmore⟩ := outputs_runItemsFrom h
  refine ⟨_, rfl, ?_⟩
  intro index value hv
  have hlen : (recoverPrefix history input start).1.length = start := by simp [recoverPrefix]
  by_cases hlt : index < start
  · rw [List.getElem?_append_left (by omega)] at hv
    right
    simpa [recoverPrefix, hlt, eq_comm] using hv
  · rw [List.getElem?_append_right (by omega), hlen] at hv
    have hin := hmore _ value hv
    rw [show start + (index - start) = index from by omega] at hin
    exact .inl hin

theorem placed_assembleResults {settled : List (Nat × ExecOutcome)} {length : Nat} {events : List RunEvent}
    (h : ∀ entry ∈ settled, ∀ value, entry.2 = .ok value → itemDone parentPath each.name entry.1 value ∈ events) :
    Placed each parentPath history events (assembleResults history settled length) := by
  intro index value hv
  have hsplit : value = ((Dict.get settled index).bind ExecOutcome.output?).getD (itemOutput history index) := by
    rw [assembleResults, List.getElem?_map] at hv
    obtain ⟨i, hi, rfl⟩ := Option.map_eq_some_iff.mp hv
    obtain ⟨hlt, hget⟩ := List.getElem?_eq_some_iff.mp hi
    rw [List.getElem_range] at hget
    rw [hget]
  cases hs : (Dict.get settled index).bind ExecOutcome.output? with
  | none =>
    rw [hs] at hsplit
    exact .inr hsplit
  | some found =>
    rw [hs] at hsplit
    obtain rfl : value = found := hsplit
    obtain ⟨o, ho, hout⟩ := Option.bind_eq_some_iff.mp hs
    left
    refine h (index, o) (Dict.mem_of_get ho) value ?_
    cases o with
    | ok other => exact congrArg ExecOutcome.ok (Option.some.inj hout)
    | _ => cases hout

theorem onOk_of_settleConcurrent {outcomes : List ExecOutcome} {stillBlocked : List PendingBlock} {onOk : Code}
    (h : Emits (settleConcurrent outcomes stillBlocked onOk) effects (.ok output)) : Emits onOk effects (.ok output) := by
  obtain ⟨-, path, source, ho⟩ | ⟨error, path, ho, -⟩ | ⟨-, ⟨block, -, -, ho⟩ | ⟨-, -, hok⟩⟩ := emits_settleConcurrent h
  · cases ho
  · cases ho
  · cases ho
  · exact hok

theorem placed_runForeachConcurrentFresh
    (h : Emits (runForeachConcurrentFresh each body parentPath frames items history) effects (.ok output)) :
    ∃ results, output = .array results ∧ Placed each parentPath history (recordedEvents effects) results := by
  unfold runForeachConcurrentFresh at h
  dsimp only at h
  obtain ⟨tagged, rest, settled, rfl, -, hlanes, -, hset⟩ := emits_pool h
  refine ⟨_, ok_of_completeForeach (onOk_of_settleConcurrent hset), placed_assembleResults ?_⟩
  intro entry he value hv
  obtain ⟨⟨index, result⟩, hm, hentry⟩ := List.mem_filterMap.mp he
  obtain ⟨i, hi⟩ := List.mem_iff_getElem?.mp hm
  rw [List.getElem?_zip_eq_some] at hi
  obtain ⟨hindex, hresult⟩ := hi
  rw [List.getElem?_map] at hresult
  obtain ⟨j, hj, hsettled⟩ := Option.map_eq_some_iff.mp hresult
  obtain ⟨hjlt, hjget⟩ := List.getElem?_eq_some_iff.mp hj
  rw [List.getElem_range] at hjget
  subst hjget
  obtain ⟨hlen, hget⟩ := List.getElem?_eq_some_iff.mp hindex
  obtain ⟨o, ho, hrun⟩ | ⟨hnone, -⟩ := hlanes i (by simpa using hlen)
  · rw [ho] at hsettled
    subst hsettled
    cases hentry
    rw [List.getElem_map] at hrun
    obtain ⟨first, last, o', hown, hnext, hdone⟩ := done_of_runItem hrun
    obtain ⟨rfl, rfl⟩ := emits_conclude hnext
    have hin := hdone value hv
    rw [hget] at hin
    rw [List.append_nil] at hown
    obtain ⟨effect, heffect, hevent⟩ := List.mem_filterMap.mp hin
    rw [← hown] at heffect
    refine List.mem_filterMap.mpr ⟨effect, List.mem_append_left _ ?_, hevent⟩
    exact List.mem_map.mpr ⟨(i, effect), mem_own.mp heffect, rfl⟩
  · rw [hnone] at hsettled
    subst hsettled
    cases hentry

theorem settled_runExtraItems {finish : List (Nat × ExecOutcome) → Code} {toRun : List Nat}
    {settled : List (Nat × ExecOutcome)}
    (h : Emits (runExtraItems each body parentPath frames items finish toRun settled) effects outcome) :
    ∃ first last settled', effects = first ++ last ∧ Emits (finish settled') last outcome ∧
      ∀ entry ∈ settled', entry ∈ settled ∨
        ∀ value, entry.2 = .ok value → itemDone parentPath each.name entry.1 value ∈ recordedEvents first := by
  induction toRun generalizing settled effects with
  | nil => exact ⟨[], effects, settled, rfl, h, fun entry he => .inl he⟩
  | cons index rest ih =>
    obtain hstop | hrun := emits_runExtraItems_cons h
    · refine ⟨[], effects, _, rfl, hstop, ?_⟩
      intro entry he
      obtain he | he := List.mem_append.mp he
      · exact .inl he
      · rw [List.mem_singleton.mp he]
        exact .inr (by simp)
    · obtain ⟨first, last, o, rfl, hnext, hdone⟩ := done_of_runItem hrun
      obtain ⟨middle, final, settled', rfl, hfinish, hentries⟩ := ih hnext
      refine ⟨first ++ middle, final, settled', (List.append_assoc _ _ _).symm, hfinish, ?_⟩
      intro entry he
      obtain hold | hnew := hentries entry he
      · obtain hold | hold := List.mem_append.mp hold
        · exact .inl hold
        · rw [List.mem_singleton.mp hold]
          right
          intro value hv
          rw [recordedEvents_append]
          exact List.mem_append_left _ (hdone value hv)
      · right
        intro value hv
        rw [recordedEvents_append]
        exact List.mem_append_right _ (hnew value hv)

theorem placed_runForeachConcurrentReentry {active : Reentry}
    (h : Emits (runForeachConcurrentReentry each body parentPath frames items env history active) effects (.ok output)) :
    ∃ results, output = .array results ∧ Placed each parentPath history (recordedEvents effects) results := by
  unfold runForeachConcurrentReentry at h
  split at h
  · exact absurd h (fun h => emits_raise h)
  · obtain ⟨first, last, o, rfl, hnext, hdone⟩ := done_of_runItem h
    obtain ⟨middle, final, settled, rfl, hfinish, hentries⟩ := settled_runExtraItems hnext
    refine ⟨_, ok_of_completeForeach (onOk_of_settleConcurrent hfinish), placed_assembleResults ?_⟩
    intro entry he value hv
    rw [recordedEvents_append, recordedEvents_append]
    obtain htarget | hextra := hentries entry he
    · rw [List.mem_singleton.mp htarget] at hv ⊢
      exact List.mem_append_left _ (hdone value hv)
    · exact List.mem_append_right _ (List.mem_append_left _ (hextra value hv))

theorem placed_runForeachNode
    (h : Emits (runForeachNode env each body input parentPath frames reentry) effects (.ok output)) :
    ∃ results, output = .array results ∧ Placed each parentPath
      ((Dict.get env.foreachItemHistory (foreachPath each parentPath)).getD []) (recordedEvents effects) results := by
  obtain ⟨-, error, ho⟩ | ⟨items, rest, rfl, hrun⟩ := emits_runForeachNode h
  · cases ho
  have hplaced : ∃ results, output = .array results ∧ Placed each parentPath
      ((Dict.get env.foreachItemHistory (foreachPath each parentPath)).getD []) (recordedEvents rest) results := by
    obtain hseq | ⟨-, hfresh⟩ | ⟨active, -, hreentry⟩ := hrun
    · cases reentry with
      | none => exact placed_runItemsFrom hseq
      | some active =>
        simp only [runForeachSequential] at hseq
        split at hseq
        · exact absurd hseq (fun h => emits_raise h)
        · exact placed_runItemsFrom hseq
    · exact placed_runForeachConcurrentFresh hfresh
    · exact placed_runForeachConcurrentReentry hreentry
  obtain ⟨results, ho, hp⟩ := hplaced
  refine ⟨results, ho, ?_⟩
  intro index value hv
  rw [recordedEvents_append]
  exact (hp index value hv).imp_left (List.mem_append_right _)

end KimchiWorkflows.Engine
