import KimchiWorkflows.Engine.LanePool
import KimchiWorkflows.Engine.ConcurrentNodes

namespace KimchiWorkflows.Engine.LanePool

open Stepping

variable {TItem TResult : Type} {items : List TItem} {limit : Limit} {shouldStop : TResult → Bool}
  {s s' : Pool TItem TResult} {running : List Nat} {index lane : Nat} {result : TResult}
  {actions : List (PoolAction TResult)} {lanes : List (Option Nat)} {claimed : Option Nat}

theorem waitedFor_append : waitedFor (lanes ++ [claimed]) = waitedFor lanes ++ claimed.toList := by
  cases claimed <;> simp [waitedFor]

theorem waitedFor_set (hl : lane < lanes.length) :
    (waitedFor (lanes.set lane claimed)).Perm (claimed.toList ++ waitedFor (lanes.set lane none)) := by
  induction lanes generalizing lane with
  | nil => simp at hl
  | cons first rest ih =>
    cases lane with
    | zero => cases claimed <;> simp [waitedFor]
    | succ lane =>
      have := ih (Nat.lt_of_succ_lt_succ hl)
      cases first with
      | none => simpa [waitedFor] using this
      | some index =>
        simp only [List.set_cons_succ, waitedFor, id] at this ⊢
        exact (this.cons index).trans List.perm_middle.symm

theorem waitedFor_leave (hl : lanes[lane]? = some (some index)) :
    (waitedFor lanes).Perm (index :: waitedFor (lanes.set lane none)) := by
  have hlt : lane < lanes.length := (List.getElem?_eq_some_iff.mp hl).1
  have hset : lanes.set lane (some index) = lanes := by
    rw [← (List.getElem?_eq_some_iff.mp hl).2]
    exact List.set_getElem_self hlt
  have hperm : (waitedFor (lanes.set lane (some index))).Perm ((some index).toList ++ waitedFor (lanes.set lane none)) :=
    waitedFor_set hlt
  rwa [hset] at hperm

theorem waitedFor_length_le : (waitedFor lanes).length ≤ lanes.length := List.length_filterMap_le _ _

/-- The pool between two moves: a lane that waits for nothing found nothing left to claim. -/
structure Sound (items : List TItem) (limit : Limit) (shouldStop : TResult → Bool) (s : Pool TItem TResult) :
    Prop where
  tally : Tally items shouldStop s s.running
  opened : s.lanes.length ≤ lanesOpened limit items
  idle : none ∈ s.lanes → s.stopped = true ∨ s.nextIndex = items.length

theorem claimNext_none (h : Tally items shouldStop s running) (hc : (claimNext items s).1 = none) :
    (claimNext items s).2.stopped = true ∨ (claimNext items s).2.nextIndex = items.length := by
  obtain ⟨he, hs⟩ | ⟨item, -, -, he⟩ := claimNext_cases items s
  · rw [he]
    exact hs.imp_right (Nat.le_antisymm h.inRange)
  · rw [he] at hc
    cases hc

theorem claimNext_kept (h : s.stopped = true ∨ s.nextIndex = items.length) : claimNext items s = (none, s) := by
  obtain ⟨he, -⟩ | ⟨item, hitem, hgo, -⟩ := claimNext_cases items s
  · exact he
  · obtain h | h := h
    · simp [h] at hgo
    · have := (List.getElem?_eq_some_iff.mp hitem).1
      omega

theorem Sound.openLane (h : Sound items limit shouldStop s) (hlt : s.lanes.length < lanesOpened limit items) :
    Sound items limit shouldStop (openLane items s) where
  tally := by
    refine (h.tally.claim.lanes (s.lanes ++ [(claimNext items s).1])).perm ?_
    show (_ ++ waitedFor s.lanes).Perm (waitedFor (s.lanes ++ [(claimNext items s).1]))
    rw [waitedFor_append]
    exact List.perm_append_comm
  opened := by
    rw [LanePool.openLane, List.length_append]
    exact hlt
  idle := by
    intro hm
    obtain hm | hm := List.mem_append.mp hm
    · have hend := h.idle hm
      simpa [LanePool.openLane, claimNext_kept hend] using hend
    · exact claimNext_none h.tally (List.mem_singleton.mp hm).symm

theorem Sound.continueLane (h : Sound items limit shouldStop s) (hl : s.lanes[lane]? = some (some index)) :
    Sound items limit shouldStop (continueLane items lane (storeResult shouldStop index result s)) := by
  have hlt : lane < s.lanes.length := (List.getElem?_eq_some_iff.mp hl).1
  have hstored : Tally items shouldStop (storeResult shouldStop index result s)
      (waitedFor (s.lanes.set lane none)) := (h.tally.perm (waitedFor_leave hl)).store
  exact {
    tally := (hstored.claim.lanes (s.lanes.set lane _)).perm (waitedFor_set hlt).symm
    opened := by simpa [LanePool.continueLane, storeResult] using h.opened
    idle := by
      intro hm
      obtain hm | hm := List.mem_or_eq_of_mem_set hm
      · have hend : (storeResult shouldStop index result s).stopped = true ∨
            (storeResult shouldStop index result s).nextIndex = items.length := by
          refine (h.idle hm).imp_left ?_
          intro hs
          simp [storeResult, hs]
        simpa [LanePool.continueLane, claimNext_kept hend] using hend
      · exact claimNext_none hstored hm.symm }

theorem step_cases {a : PoolAction TResult} (h : step items limit shouldStop s a = some s') :
    (a = .openLane ∧ s.lanes.length < lanesOpened limit items ∧ s' = openLane items s) ∨
      ∃ index result lane, a = .settled index result ∧ s.lanes.length = lanesOpened limit items ∧
        s.lanes[lane]? = some (some index) ∧
        s' = continueLane items lane (storeResult shouldStop index result s) := by
  cases a with
  | openLane =>
    simp only [step, Option.ite_none_right_eq_some, Option.some.injEq] at h
    exact .inl ⟨rfl, h.1, h.2.symm⟩
  | settled index result =>
    simp only [step, Option.ite_none_right_eq_some, Option.map_eq_some_iff] at h
    obtain ⟨hopened, lane, hlane, rfl⟩ := h
    obtain ⟨hlt, hat, -⟩ := List.findIdx?_eq_some_iff_getElem.mp hlane
    refine .inr ⟨index, result, lane, rfl, hopened, ?_, rfl⟩
    rw [List.getElem?_eq_getElem hlt]
    exact congrArg some (by simpa using hat)

theorem sound_step {a : PoolAction TResult} (h : Sound items limit shouldStop s)
    (hs : step items limit shouldStop s a = some s') : Sound items limit shouldStop s' := by
  obtain ⟨-, hlt, rfl⟩ | ⟨index, result, lane, -, -, hl, rfl⟩ := step_cases hs
  · exact h.openLane hlt
  · exact h.continueLane hl

theorem sound_called : Sound items limit shouldStop (called items : Pool TItem TResult) where
  tally := tally_called
  opened := Nat.zero_le _
  idle := by simp [called]

theorem sound_of_run (h : PoolRun items limit shouldStop actions s) : Sound items limit shouldStop s :=
  h.keeps sound_called (fun _ _ _ hi _ hs => sound_step hi hs)

theorem stored_claimNext {other : Nat} {held : TResult} (s : Pool TItem TResult) :
    PoolEvent.stored other held ∈ (claimNext items s).2.log ↔ PoolEvent.stored other held ∈ s.log := by
  obtain ⟨he, -⟩ | ⟨item, -, -, he⟩ := claimNext_cases items s <;> simp [he]

theorem stored_iff_settled (h : PoolRun items limit shouldStop actions s) :
    PoolEvent.stored index result ∈ s.log ↔ PoolAction.settled index result ∈ actions := by
  induction h with
  | nil => simp [called]
  | snoc h hs _ ih =>
    obtain ⟨rfl, -, rfl⟩ | ⟨other, held, lane, rfl, -, -, rfl⟩ := step_cases hs
    · show _ ∈ (claimNext items _).2.log ↔ _
      rw [stored_claimNext, ih]
      simp
    · show _ ∈ (claimNext items _).2.log ↔ _
      rw [stored_claimNext]
      simp [storeResult, ih]

def Limit.AtLeastOne : Limit → Prop
  | .finite limit => 1 ≤ limit
  | .infinity => True

def Limit.Allows : Limit → Nat → Prop
  | .finite limit, count => (count : ℚ) ≤ limit
  | .infinity, _ => True

theorem lanesOpened_allowed (hl : limit.AtLeastOne) (items : List TItem) :
    limit.Allows (lanesOpened limit items) ∧ lanesOpened limit items ≤ items.length := by
  unfold lanesOpened
  split
  · rename_i hz
    cases limit with
    | finite value =>
      have : (1 : ℚ) ≤ value := hl
      exact ⟨by simp only [Limit.Allows, Nat.cast_zero]; linarith, Nat.zero_le _⟩
    | infinity => exact ⟨trivial, Nat.zero_le _⟩
  · rename_i hz
    have hsize : 1 ≤ items.length := Nat.one_le_iff_ne_zero.mpr hz
    cases limit with
    | finite value =>
      have hv : (1 : ℚ) ≤ value := hl
      have hs : (1 : ℚ) ≤ (items.length : ℚ) := by exact_mod_cast hsize
      have hmax : max 1 (min value (items.length : ℚ)) = min value (items.length : ℚ) :=
        max_eq_right (le_min hv hs)
      have hfloor : ((⌊min value (items.length : ℚ)⌋₊ : Nat) : ℚ) ≤ min value (items.length : ℚ) :=
        Nat.floor_le (le_trans zero_le_one (le_min hv hs))
      simp only [laneCount, hmax, Limit.Allows]
      refine ⟨hfloor.trans (min_le_left _ _), ?_⟩
      exact_mod_cast hfloor.trans (min_le_right _ _)
    | infinity => exact ⟨trivial, max_le hsize le_rfl⟩

theorem lanesOpened_pos (hne : items.length ≠ 0) : 0 < lanesOpened limit items := by
  rw [lanesOpened, if_neg hne]
  cases limit with
  | finite value =>
    refine Nat.floor_pos.mpr ?_
    exact le_max_left _ _
  | infinity => exact Nat.lt_of_lt_of_le Nat.zero_lt_one (le_max_left _ _)

theorem Limit.Allows.mono {count other : Nat} (h : limit.Allows count) (hle : other ≤ count) :
    limit.Allows other := by
  cases limit with
  | finite value => exact le_trans (by exact_mod_cast hle) h
  | infinity => trivial

theorem settled_of_returned (h : Sound items limit shouldStop s) (hr : Returned items limit s)
    (hi : index < s.nextIndex) : ∃ result, s.results[index]? = some (some result) := by
  have hlt : index < s.results.length := by
    have := h.tally.size
    have := h.tally.inRange
    omega
  cases hheld : s.results[index]? with
  | none => exact absurd (List.getElem?_eq_none_iff.mp hheld) (by omega)
  | some held =>
    cases held with
    | some result => exact ⟨result, rfl⟩
    | none =>
      have := (h.tally.pending index).mpr ⟨hi, hheld⟩
      simp [hr.2] at this

theorem all_claimed_of_returned (h : Sound items limit shouldStop s) (hr : Returned items limit s)
    (hgo : s.stopped = false) : s.nextIndex = items.length := by
  by_cases hz : items.length = 0
  · have := h.tally.inRange
    omega
  · have hpos : 0 < s.lanes.length := hr.1 ▸ lanesOpened_pos hz
    have hnone : none ∈ s.lanes := by
      obtain ⟨claimed, hm⟩ := List.exists_mem_of_length_pos hpos
      cases claimed with
      | none => exact hm
      | some index =>
        have : index ∈ s.running := List.mem_filterMap.mpr ⟨some index, hm, rfl⟩
        simp [hr.2] at this
    exact (h.idle hnone).resolve_left (by simp [hgo])

theorem runConcurrent_correct (items : List TItem) (limit : Limit) (hlimit : limit.AtLeastOne)
    (shouldStop : TResult → Bool) (actions : List (PoolAction TResult)) (s : Pool TItem TResult)
    (h : PoolRun items limit shouldStop actions s) :
    s.claims.map Prod.fst = List.range s.nextIndex ∧
      (∀ claim ∈ s.claims, items[claim.1]? = some claim.2) ∧
      limit.Allows s.running.length ∧
      s.running.length ≤ items.length ∧
      s.results.length = items.length ∧
      (∀ index result, s.results[index]? = some (some result) ↔ PoolAction.settled index result ∈ actions) ∧
      s.log.Pairwise (Follows shouldStop) ∧
      (Returned items limit s → ∀ claim ∈ s.claims, ∃ result, s.results[claim.1]? = some (some result)) ∧
      (Returned items limit s →
        (∀ index result, PoolAction.settled index result ∈ actions → shouldStop result = false) →
        ∀ index < items.length, ∃ result, s.results[index]? = some (some result)) := by
  have hs := sound_of_run h
  have hcount : s.running.length ≤ lanesOpened limit items := waitedFor_length_le.trans hs.opened
  obtain ⟨hallowed, hsize⟩ := lanesOpened_allowed hlimit items
  refine ⟨hs.tally.inOrder, hs.tally.ofItem, hallowed.mono hcount, hcount.trans hsize, hs.tally.size, ?_,
    hs.tally.ordered, ?_, ?_⟩
  · intro index result
    rw [← hs.tally.stored, stored_iff_settled h]
  · intro hr claim hc
    have hm : claim.1 ∈ s.claims.map Prod.fst := List.mem_map_of_mem hc
    rw [hs.tally.inOrder, List.mem_range] at hm
    exact settled_of_returned hs hr hm
  · intro hr hgo index hi
    have hflag : s.stopped = false := by
      by_contra hstop
      obtain ⟨other, held, hm, hh⟩ := hs.tally.flag.mp (by simpa using hstop)
      rw [hgo other held ((stored_iff_settled h).mp hm)] at hh
      cases hh
    refine settled_of_returned hs hr ?_
    rwa [all_claimed_of_returned hs hr hflag]

/-- The first of two lanes stops the pool while the second is running: its result is still stored. -/
theorem runConcurrent_correct_drained :
    ∃ s, PoolRun ["a", "b", "c"] (.finite 2) (fun result : Nat => result == 1)
        [.openLane, .openLane, .settled 0 1, .settled 1 0] s ∧
      Returned ["a", "b", "c"] (.finite 2) s ∧ s.nextIndex = 2 ∧
      ∀ claim ∈ s.claims, ∃ result, s.results[claim.1]? = some (some result) := by
  refine ⟨_, run_of_steps rfl, ⟨rfl, by decide⟩, rfl, ?_⟩
  have := runConcurrent_correct ["a", "b", "c"] (.finite 2) (by norm_num [Limit.AtLeastOne])
    (fun result : Nat => result == 1) [.openLane, .openLane, .settled 0 1, .settled 1 0] _ (run_of_steps rfl)
  exact this.2.2.2.2.2.2.2.1 ⟨rfl, by decide⟩

theorem settled_enabled (hopened : s.lanes.length = lanesOpened limit items) (hi : index ∈ s.running) :
    ∃ s', step items limit shouldStop s (.settled index result) = some s' := by
  obtain ⟨claimed, hm, rfl⟩ := List.mem_filterMap.mp hi
  have hsome : (s.lanes.findIdx? (· == some index)).isSome = true := by
    rw [List.findIdx?_isSome]
    exact List.any_eq_true.mpr ⟨some index, hm, by simp⟩
  obtain ⟨lane, hlane⟩ := Option.isSome_iff_exists.mp hsome
  exact ⟨_, by rw [step, if_pos hopened, hlane, Option.map_some]⟩

end KimchiWorkflows.Engine.LanePool
