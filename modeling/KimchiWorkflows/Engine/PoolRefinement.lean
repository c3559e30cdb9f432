import KimchiWorkflows.Engine.BoundedPool

/-!
The pool the walker forks is what the lanes compute.
-/

namespace KimchiWorkflows.Engine.LanePool

open Stepping

variable {TItem TResult : Type} {items : List TItem} {limit : Limit} {shouldStop : TResult → Bool}
  {s s' : Pool TItem TResult} {running : List Nat} {index : Nat} {result : TResult}
  {actions : List (PoolAction TResult)}

def laneOf (s : Pool TItem TResult) (index : Nat) : Process.Lane TResult :=
  match s.results[index]?.join with
  | some result => .settled result
  | none => if index < s.nextIndex then .running else .waiting

theorem stopped_laneOf (h : Tally items shouldStop s running) :
    Process.stopped items.length shouldStop (laneOf s) = s.stopped := by
  rw [Bool.eq_iff_iff, h.flag, Process.stopped, List.any_eq_true]
  constructor
  · rintro ⟨index, -, hs⟩
    unfold laneOf at hs
    split at hs
    · rename_i result hr
      exact ⟨index, result, (h.stored index result).mpr (Option.join_eq_some_iff.mp hr), by simpa [Process.Lane.result] using hs⟩
    · split at hs <;> simp [Process.Lane.result] at hs
  · rintro ⟨index, result, hm, hs⟩
    have hr := (h.stored index result).mp hm
    have hlt : index < items.length := h.size ▸ (List.getElem?_eq_some_iff.mp hr).1
    refine ⟨index, List.mem_range.mpr hlt, ?_⟩
    simp [laneOf, hr, Process.Lane.result, hs]

theorem isWaiting_laneOf (h : Tally items shouldStop s running) :
    (laneOf s index).isWaiting = decide (s.nextIndex ≤ index) := by
  unfold laneOf
  split
  · rename_i result hr
    have := h.untouched index result (Option.join_eq_some_iff.mp hr)
    simpa [Process.Lane.isWaiting] using this
  · split <;> simp_all [Process.Lane.isWaiting]

theorem find_waiting (h : Tally items shouldStop s running) :
    (List.range items.length).find? (fun index => (laneOf s index).isWaiting) =
      if s.nextIndex < items.length then some s.nextIndex else none := by
  simp only [isWaiting_laneOf h]
  split
  · rename_i hlt
    refine List.find?_range_eq_some.mpr ⟨by simp, List.mem_range.mpr hlt, ?_⟩
    intro index hi
    simpa using hi
  · rename_i hge
    refine List.find?_eq_none.mpr ?_
    intro index hm
    have := List.mem_range.mp hm
    simp only [decide_eq_true_eq, Nat.not_le]
    omega

theorem laneOf_claimNext (h : Tally items shouldStop s running) :
    laneOf (claimNext items s).2 = Process.claim items.length shouldStop (laneOf s) := by
  unfold Process.claim
  rw [stopped_laneOf h, find_waiting h]
  obtain ⟨he, hs⟩ | ⟨item, hitem, hgo, he⟩ := claimNext_cases items s
  · rw [he]
    obtain hs | hs := hs
    · rw [if_pos hs]
    · rw [if_neg (Nat.not_lt.mpr hs)]
      simp
  · have hlt := (List.getElem?_eq_some_iff.mp hitem).1
    have hfree : s.results[s.nextIndex]?.join = none := by
      by_contra hheld
      obtain ⟨result, hr⟩ := Option.ne_none_iff_exists'.mp hheld
      exact absurd (h.untouched _ _ (Option.join_eq_some_iff.mp hr)) (Nat.lt_irrefl _)
    rw [he, hgo, if_neg Bool.false_ne_true, if_pos hlt]
    funext index
    by_cases hi : index = s.nextIndex
    · subst hi
      simp [laneOf, hfree]
    · have : (index < s.nextIndex + 1) = (index < s.nextIndex) := by
        apply propext
        omega
      simp only [laneOf, this]
      rw [Function.update_of_ne hi, laneOf]

theorem laneOf_storeResult (h : Tally items shouldStop s (index :: running)) :
    laneOf (storeResult shouldStop index result s) = Function.update (laneOf s) index (.settled result) := by
  have hlt := (List.getElem?_eq_some_iff.mp ((h.pending index).mp List.mem_cons_self).2).1
  funext other
  by_cases ho : other = index
  · subst ho
    simp [laneOf, storeResult, hlt]
  · rw [Function.update_of_ne ho]
    simp only [laneOf, storeResult, List.getElem?_set_ne (Ne.symm ho)]
    rfl

/-- A worker of the lanes settles as a task of the pool does. -/
theorem laneOf_settled (h : PoolRun items limit shouldStop actions s)
    (hs : step items limit shouldStop s (.settled index result) = some s') :
    laneOf s' = Process.settle items.length shouldStop (laneOf s) index result := by
  obtain ⟨he, -⟩ | ⟨_, _, lane, he, -, hl, rfl⟩ := step_cases hs
  · cases he
  · cases he
    have hrunning := (sound_of_run h).tally.perm (waitedFor_leave hl)
    rw [Process.settle, ← laneOf_storeResult hrunning, ← laneOf_claimNext hrunning.store]
    rfl

structure Opening (items : List TItem) (s : Pool TItem TResult) : Prop where
  results : s.results = List.replicate items.length none
  going : s.stopped = false
  inStep : s.nextIndex = s.lanes.length

theorem opening_of_run (hlimit : limit.AtLeastOne) (h : PoolRun items limit shouldStop actions s)
    (hopen : ∀ a ∈ actions, a = .openLane) : Opening items s := by
  induction h with
  | nil => exact ⟨rfl, rfl, rfl⟩
  | @snoc _ s _ _ h hs _ ih =>
    have hop := ih (fun a ha => hopen a (List.mem_append_left _ ha))
    obtain rfl := hopen _ (List.mem_append_right _ (List.mem_singleton_self _))
    obtain ⟨-, hlt, rfl⟩ | ⟨_, _, _, he, -⟩ := step_cases hs
    · have hroom := Nat.lt_of_lt_of_le hlt (lanesOpened_allowed hlimit items).2
      obtain ⟨-, hend⟩ | ⟨item, -, -, hc⟩ := claimNext_cases items s
      · obtain hstop | hend := hend
        · simp [hop.going] at hstop
        · have := hop.inStep
          omega
      · exact ⟨by simp [openLane, hc, hop.results], by simp [openLane, hc, hop.going],
          by simp [openLane, hc, hop.inStep]⟩
    · cases he

theorem laneOf_opened {tasks : List Code} {localLimit : Nat} {s : Pool Code Settlement}
    {actions : List (PoolAction Settlement)} (hlimit : 1 ≤ localLimit) (hne : tasks ≠ [])
    (h : PoolRun tasks (.finite localLimit) stopsPool actions s) (hopen : ∀ a ∈ actions, a = .openLane)
    (hall : s.lanes.length = lanesOpened (.finite localLimit) tasks) :
    laneOf s = fun i => if i < max 1 (min localLimit tasks.length) then .running else .waiting := by
  have hop := opening_of_run (by simpa [Limit.AtLeastOne] using hlimit) h hopen
  have hcount : laneCount (.finite localLimit) tasks.length = max 1 (min localLimit tasks.length) := by
    rw [laneCount]
    exact_mod_cast Nat.floor_natCast (R := ℚ) (max 1 (min localLimit tasks.length))
  have hnext : s.nextIndex = max 1 (min localLimit tasks.length) := by
    rw [hop.inStep, hall, lanesOpened, if_neg (by simpa using hne), hcount]
  funext index
  simp only [laneOf, hop.results, hnext]
  split
  · rename_i result hr
    have := Option.join_eq_some_iff.mp hr
    simp [List.getElem?_replicate] at this
  · rfl

end KimchiWorkflows.Engine.LanePool
