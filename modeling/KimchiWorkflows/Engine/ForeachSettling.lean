import KimchiWorkflows.Engine.FanOutSettling

namespace KimchiWorkflows.Engine

open KimchiWorkflows.Flow

/-- Every block on record is recorded under the key of its own step. -/
def PendingByKey (env : RunEnv) : Prop :=
  ∀ key block, Dict.get env.pendingBlocks key = some block → staticKeyOf block.path = key

variable {env : RunEnv} {each : ForeachDefinition} {body : List Walked} {parentPath key : NodePath}
  {frames : List ScopeFrame} {items : List Value} {index : Nat} {input : Value} {reentry : Option Reentry}
  {effects : List Effect} {outcome : ExecOutcome} {events : List RunEvent}
  {settled : List (Nat × ExecOutcome)}

def itemKey (parentPath : NodePath) (name : String) (index : Nat) : NodePath :=
  staticPathOf (appendForeachItem parentPath name index)

theorem prefix_itemKey (parentPath : NodePath) (name : String) (index : Nat) :
    staticPathOf parentPath <+: itemKey parentPath name index := by
  rw [itemKey, staticPathOf_appendForeachItem]
  exact List.prefix_append _ _

theorem length_itemKey (parentPath : NodePath) (name : String) (index : Nat) :
    (itemKey parentPath name index).length = parentPath.length + 1 := by
  simp [itemKey, appendForeachItem]

theorem eq_of_below_itemKey {name : String} {i j : Nat} (hi : Below (itemKey parentPath name i) key)
    (hj : Below (itemKey parentPath name j) key) : i = j := by
  have h := eq_of_below hi hj (by rw [length_itemKey, length_itemKey])
  simpa [itemKey] using h

theorem not_below_itemKey (name : String) (i j : Nat) :
    ¬ Below (itemKey parentPath name i) (itemKey parentPath name j) := by
  intro h
  have := h.2
  rw [length_itemKey, length_itemKey] at this
  omega

section Item

def itemEffects (each : ForeachDefinition) (parentPath : NodePath) (index : Nat) (reentered : Bool)
    (bodyEffects : List Effect) (outcome : ExecOutcome) : List Effect :=
  (if reentered then [] else
    [Effect.recorded (.foreachItemStarted (appendForeachItem parentPath each.name index) index)]) ++
  (bodyEffects ++ (outcome.output?).elim [] (fun output =>
    [Effect.recorded (.foreachItemCompleted (appendForeachItem parentPath each.name index) index output)]))

theorem emits_item {next : ExecOutcome → Code}
    (h : Emits (runItem each body parentPath frames items index input reentry next) effects outcome) :
    ∃ bodyEffects last o itemFrames,
      effects = itemEffects each parentPath index reentry.isSome bodyEffects o ++ last ∧
      Emits (runNodeSequence body input (appendForeachItem parentPath each.name index) itemFrames 0 reentry)
        bodyEffects o ∧ Emits (next o) last outcome := by
  obtain ⟨first, last, o, itemFrames, rfl, hf, hl⟩ := emits_runItem h
  exact ⟨first, last, o, itemFrames, by simp [itemEffects], hf, hl⟩

variable {bodyEffects : List Effect} {itemFrames : List ScopeFrame}
  (hn : ∀ node ∈ body, RunnerSettles env node.2)
  (h : Emits (runNodeSequence body input (appendForeachItem parentPath each.name index) itemFrames 0
    reentry) bodyEffects outcome)

include hn h

theorem settles_item : Settles env reentry.isSome (staticPathOf parentPath)
    (recordedEvents (itemEffects each parentPath index reentry.isSome bodyEffects outcome)) outcome := by
  have hbody : Settles env reentry.isSome (staticPathOf parentPath) (recordedEvents bodyEffects) outcome :=
    (settles_runNodeSequence hn h).widen (prefix_itemKey parentPath each.name index)
  have hb := below_appendForeachItem parentPath each.name index
  refine settles_opened ?_ (fun _ => rfl) (inside_singleton rfl rfl hb)
  cases outcome with
  | ok output =>
    rw [recordedEvents_append]
    refine settles_closed (inside_append.mpr ⟨hbody.inside, inside_singleton rfl rfl hb⟩) ?_
    intro key
    exact closes_append (hbody.closes output rfl key) (.inl (quiet_singleton (fun _ => rfl) key).idle)
  | _ => simpa [ExecOutcome.output?] using hbody

theorem untouched_item (hk : ¬ Below (itemKey parentPath each.name index) key) :
    Untouched key (recordedEvents (itemEffects each parentPath index reentry.isSome bodyEffects outcome)) := by
  have hbody := (settles_runNodeSequence hn h).inside.untouched hk
  rw [itemEffects, recordedEvents_append, recordedEvents_append]
  refine untouched_append.mpr ⟨?_, untouched_append.mpr ⟨hbody, ?_⟩⟩
  · cases reentry.isSome with
    | true => simp [Untouched]
    | false => exact quiet_singleton (fun _ => rfl) key
  · cases outcome with
    | ok output => exact quiet_singleton (fun _ => rfl) key
    | _ => simp [Untouched, ExecOutcome.output?]

theorem below_of_blocked {block : PendingBlock} (ho : outcome = .blocked block) :
    Below (itemKey parentPath each.name index) (staticKeyOf block.path) := by
  have hs := settles_runNodeSequence hn h
  exact (hs.waits block ho).below hs.inside

end Item

theorem completes_completeForeach (results : List Value) :
    Completes (foreachPath each parentPath) (completeForeach each parentPath results) :=
  completes_emitNodeCompleted _ _ _

variable (hn : ∀ node ∈ body, RunnerSettles env node.2)

include hn

theorem settles_runItemsFrom {remaining : Nat} {results : List Value} {fed : Value}
    (h : Emits (runItemsFrom each body parentPath frames items remaining index results fed reentry)
      effects outcome) :
    Settles env reentry.isSome (staticPathOf parentPath) (recordedEvents effects) outcome := by
  induction remaining generalizing index results fed reentry effects with
  | zero =>
    obtain ⟨value, output, he, rfl⟩ := completes_completeForeach results _ _ h
    rw [he]
    exact settles_closed (inside_singleton rfl rfl (below_appendSegment parentPath each.name))
      (fun _ => closes_nodeCompleted _ _)
  | succ remaining ih =>
    rcases emits_runItemsFrom h with ⟨rfl, rfl⟩ | ⟨itemInput, hrun⟩
    · exact settles_stopped inside_nil rfl
    · obtain ⟨bodyEffects, last, o, itemFrames, rfl, hbody, hnext⟩ := emits_item hrun
      have hitem := settles_item hn hbody
      rw [recordedEvents_append]
      cases o with
      | ok output => exact (ih hnext).after_closed (hitem.closes output rfl) hitem.inside
      | _ =>
        obtain ⟨rfl, rfl⟩ := emits_conclude hnext
        simpa using hitem

theorem settles_runForeachSequential {history : ItemHistory}
    (h : Emits (runForeachSequential each body parentPath frames items input history reentry)
      effects outcome) :
    Settles env reentry.isSome (staticPathOf parentPath) (recordedEvents effects) outcome := by
  cases reentry with
  | none => exact settles_runItemsFrom hn h
  | some active =>
    simp only [runForeachSequential] at h
    split at h
    · exact absurd h (fun h => emits_raise h)
    · have := settles_runItemsFrom hn h
      exact this

theorem settles_runForeachConcurrentFresh {history : ItemHistory}
    (h : Emits (runForeachConcurrentFresh each body parentPath frames items history) effects outcome) :
    Settles env false (staticPathOf parentPath) (recordedEvents effects) outcome := by
  unfold runForeachConcurrentFresh at h
  dsimp only at h
  generalize htoRun : (List.range items.length).filter (fun index => !Dict.has history index) = toRun at h
  have hnodup : toRun.Nodup := htoRun ▸ List.nodup_range.filter _
  let region : Nat → NodePath → Prop :=
    fun i key => ∃ hi : i < toRun.length, Below (itemKey parentPath each.name toRun[i]) key
  refine settles_runConcurrent region (below_appendSegment parentPath each.name)
    (fun results => completes_completeForeach _) ?_ ?_ h
  · intro i hi effects outcome he
    have hlen : i < toRun.length := by simpa using hi
    rw [List.getElem_map] at he
    obtain ⟨bodyEffects, last, o, itemFrames, rfl, hbody, hnext⟩ := emits_item he
    obtain ⟨rfl, rfl⟩ := emits_conclude hnext
    rw [List.append_nil]
    refine ⟨settles_item hn hbody, ?_⟩
    intro key hk
    apply untouched_item hn hbody
    exact fun hbelow => hk ⟨hlen, hbelow⟩
  · rintro i - j - key ⟨hi, hki⟩ ⟨hj, hkj⟩
    exact (List.Nodup.getElem_inj_iff hnodup).mp (eq_of_below_itemKey hki hkj)

theorem gathers_runExtraItems {finish : List (Nat × ExecOutcome) → Code} {toRun : List Nat}
    (hnodup : toRun.Nodup) (hd : ∀ entry ∈ settled, entry.1 ∉ toRun)
    (hg : Gathers env true (staticPathOf parentPath)
      (fun i => Below (itemKey parentPath each.name i)) events settled)
    (h : Emits (runExtraItems each body parentPath frames items finish toRun settled) effects outcome) :
    ∃ first last settled', effects = first ++ last ∧ Emits (finish settled') last outcome ∧
      Gathers env true (staticPathOf parentPath)
        (fun i => Below (itemKey parentPath each.name i)) (events ++ recordedEvents first) settled' := by
  induction toRun generalizing events settled effects with
  | nil => exact ⟨[], effects, settled, rfl, h, by simpa using hg⟩
  | cons index rest ih =>
    obtain ⟨hfresh, hrest⟩ := List.nodup_cons.mp hnodup
    have hne : ∀ entry ∈ settled, entry.1 ≠ index :=
      fun entry he hi => hd entry he (hi ▸ List.mem_cons_self)
    have hd' : ∀ entry ∈ settled, ∀ key, Below (itemKey parentPath each.name entry.1) key →
        ¬ Below (itemKey parentPath each.name index) key :=
      fun entry he key h₁ h₂ => hne entry he (eq_of_below_itemKey h₁ h₂)
    rcases emits_runExtraItems_cons h with hstop | hrun
    · have hs : Settles env true (staticPathOf parentPath) [] (.cancelled none none) :=
        settles_stopped inside_nil rfl
      have hadd := hg.add hs (by simp [Untouched]) (by simp) hd'
      exact ⟨[], effects, _, rfl, hstop, by simpa using hadd⟩
    · obtain ⟨bodyEffects, last, o, itemFrames, rfl, hbody, hnext⟩ := emits_item hrun
      have hadd := hg.add (settles_item hn hbody) (fun key hk => untouched_item hn hbody hk) (by
        intro block ho
        have hbelow := below_of_blocked hn hbody ho
        refine ⟨hg.confined _ ?_, hbelow⟩
        intro entry he hk
        exact hne entry he (eq_of_below_itemKey hk hbelow)) hd'
      obtain ⟨first', last', settled', rfl, hfinish, hg'⟩ := ih hrest (by
        intro entry he
        rcases List.mem_append.mp he with he | he
        · exact fun hm => hd entry he (List.mem_cons_of_mem _ hm)
        · rw [List.mem_singleton.mp he]
          exact hfresh) hadd hnext
      exact ⟨_, last', settled', (List.append_assoc _ _ _).symm, hfinish, by simpa using hg'⟩

theorem settles_runForeachConcurrentReentry (henv : PendingByKey env) {history : ItemHistory}
    {active : Reentry}
    (h : Emits (runForeachConcurrentReentry each body parentPath frames items env history active)
      effects outcome) :
    Settles env true (staticPathOf parentPath) (recordedEvents effects) outcome := by
  unfold runForeachConcurrentReentry at h
  split at h
  · exact absurd h (fun h => emits_raise h)
  · rename_i kind target _
    dsimp only at h
    generalize hothers : (List.range items.length).filter (fun index =>
      index ≠ target && !Dict.has history index) = others at h
    have hfresh : ∀ index ∈ others, index ≠ target := by
      intro index hi
      rw [← hothers] at hi
      simpa using (by simpa using hi : index < items.length ∧ index ≠ target ∧ _).2.1
    have hnodup : others.Nodup := hothers ▸ List.nodup_range.filter _
    obtain ⟨bodyEffects, last, o, itemFrames, rfl, hbody, hnext⟩ := emits_item h
    have hitem := settles_item hn hbody
    have hnil : Gathers env true (staticPathOf parentPath)
        (fun i => Below (itemKey parentPath each.name i)) [] [] := gathers_nil
    have hg := hnil.add hitem (fun key hk => untouched_item hn hbody hk)
      (fun block ho => ⟨by simp [Untouched], below_of_blocked hn hbody ho⟩) (by simp)
    obtain ⟨first, last, settled, rfl, hfinish, hg'⟩ := gathers_runExtraItems hn (hnodup.filter _) (by
      intro entry he hm
      rw [List.nil_append, List.mem_singleton] at he
      rw [he] at hm
      exact hfresh target (List.mem_of_mem_filter hm) rfl) hg hnext
    rw [recordedEvents_append, recordedEvents_append, ← List.append_assoc]
    refine hg'.settles (below_appendSegment parentPath each.name) (by simp) ?_
      (completes_completeForeach _) hfinish
    intro block hb
    obtain ⟨index, -, hp⟩ := List.mem_filterMap.mp hb
    have hkey : staticKeyOf block.path = itemKey parentPath each.name index := henv _ _ hp
    rw [hkey]
    refine ⟨rfl, ?_, below_appendForeachItem parentPath each.name index, ?_⟩
    · exact Option.isSome_iff_exists.mpr ⟨block, hp⟩
    · exact hg'.confined _ (fun entry _ => not_below_itemKey _ _ _)

theorem settles_runForeachNode (henv : PendingByKey env) :
    RunnerSettles env (runForeachNode env each body) := by
  intro input parentPath frames reentry effects outcome h
  have hb := below_appendSegment parentPath each.name
  rcases emits_runForeachNode h with ⟨rfl, error, rfl⟩ | ⟨items, rest, rfl, hrun⟩
  · exact settles_stopped inside_nil rfl
  · refine settles_opened ?_ (fun _ => rfl) (inside_singleton rfl rfl hb)
    rcases hrun with hseq | ⟨rfl, hfresh⟩ | ⟨active, rfl, hre⟩
    · exact settles_runForeachSequential hn hseq
    · exact settles_runForeachConcurrentFresh hn hfresh
    · exact settles_runForeachConcurrentReentry hn henv hre

end KimchiWorkflows.Engine
