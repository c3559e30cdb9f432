import Mathlib.Data.Rat.Floor
import Mathlib.Data.List.Nodup
import KimchiWorkflows.Lib.Stepping

/-!
The lanes of one fan-out: they share the next index and the stop flag, and each claims an item only after
its current one has settled.
-/

namespace KimchiWorkflows.Engine.LanePool

open Stepping

variable {TItem TResult : Type}

/-- A number of the host language, at least one where a caller passes it. -/
inductive Limit where
  | finite (value : ℚ)
  | infinity

inductive PoolEvent (TItem TResult : Type) where
  | claimed (index : Nat) (item : TItem)
  | stored (index : Nat) (result : TResult)

structure Pool (TItem TResult : Type) where
  results : List (Option TResult)
  nextIndex : Nat := 0
  stopped : Bool := false
  /-- The index each opened lane waits for; a lane that has returned waits for none. -/
  lanes : List (Option Nat) := []
  log : List (PoolEvent TItem TResult) := []

inductive PoolAction (TResult : Type) where
  | openLane
  /-- The worker called with the item at an index settles. -/
  | settled (index : Nat) (result : TResult)

/-- Math.max(1, Math.min(localLimit, items.length)), as the length of an array. -/
def laneCount : Limit → Nat → Nat
  | .finite limit, size => ⌊max 1 (min limit (size : ℚ))⌋₊
  | .infinity, size => max 1 size

/-- No lane is opened for an empty list. -/
def lanesOpened (limit : Limit) (items : List TItem) : Nat :=
  if items.length = 0 then 0 else laneCount limit items.length

def called (items : List TItem) : Pool TItem TResult := { results := List.replicate items.length none }

def claimNext (items : List TItem) (s : Pool TItem TResult) : Option Nat × Pool TItem TResult :=
  if h : s.stopped = false ∧ s.nextIndex < items.length then
    (some s.nextIndex, { s with
      nextIndex := s.nextIndex + 1
      log := s.log ++ [.claimed s.nextIndex (items.get ⟨s.nextIndex, h.2⟩)] })
  else (none, s)

def storeResult (shouldStop : TResult → Bool) (index : Nat) (result : TResult) (s : Pool TItem TResult) :
    Pool TItem TResult :=
  { s with
    results := s.results.set index (some result)
    stopped := s.stopped || shouldStop result
    log := s.log ++ [.stored index result] }

def openLane (items : List TItem) (s : Pool TItem TResult) : Pool TItem TResult :=
  { (claimNext items s).2 with lanes := s.lanes ++ [(claimNext items s).1] }

def continueLane (items : List TItem) (lane : Nat) (s : Pool TItem TResult) : Pool TItem TResult :=
  { (claimNext items s).2 with lanes := s.lanes.set lane (claimNext items s).1 }

/-- The lanes are opened without a pause; after that a lane moves when the worker it waits for settles. -/
def step (items : List TItem) (limit : Limit) (shouldStop : TResult → Bool) (s : Pool TItem TResult) :
    PoolAction TResult → Option (Pool TItem TResult)
  | .openLane => if s.lanes.length < lanesOpened limit items then some (openLane items s) else none
  | .settled index result =>
    if s.lanes.length = lanesOpened limit items then
      (s.lanes.findIdx? (· == some index)).map
        (fun lane => continueLane items lane (storeResult shouldStop index result s))
    else none

abbrev PoolRun (items : List TItem) (limit : Limit) (shouldStop : TResult → Bool)
    (actions : List (PoolAction TResult)) (s : Pool TItem TResult) : Prop :=
  Run (step items limit shouldStop) Unconditional (called items) actions s

def waitedFor (lanes : List (Option Nat)) : List Nat := lanes.filterMap id

def Pool.running (s : Pool TItem TResult) : List Nat := waitedFor s.lanes

def Returned (items : List TItem) (limit : Limit) (s : Pool TItem TResult) : Prop :=
  s.lanes.length = lanesOpened limit items ∧ s.running = []

def claimOf : PoolEvent TItem TResult → Option (Nat × TItem)
  | .claimed index item => some (index, item)
  | .stored _ _ => none

def Pool.claims (s : Pool TItem TResult) : List (Nat × TItem) := s.log.filterMap claimOf

/-- No claim follows a stored result that asks to stop. -/
def Follows (shouldStop : TResult → Bool) : PoolEvent TItem TResult → PoolEvent TItem TResult → Prop
  | .stored _ result, .claimed _ _ => shouldStop result = false
  | _, _ => True

/-- The pool between two moves, with the indices whose workers are running. -/
structure Tally (items : List TItem) (shouldStop : TResult → Bool) (s : Pool TItem TResult)
    (running : List Nat) : Prop where
  size : s.results.length = items.length
  inOrder : s.claims.map Prod.fst = List.range s.nextIndex
  ofItem : ∀ claim ∈ s.claims, items[claim.1]? = some claim.2
  inRange : s.nextIndex ≤ items.length
  once : running.Nodup
  pending : ∀ index, index ∈ running ↔ index < s.nextIndex ∧ s.results[index]? = some none
  stored : ∀ index result, PoolEvent.stored index result ∈ s.log ↔ s.results[index]? = some (some result)
  untouched : ∀ index result, s.results[index]? = some (some result) → index < s.nextIndex
  flag : s.stopped = true ↔ ∃ index result, PoolEvent.stored index result ∈ s.log ∧ shouldStop result = true
  ordered : s.log.Pairwise (Follows shouldStop)

variable {items : List TItem} {limit : Limit} {shouldStop : TResult → Bool} {s s' : Pool TItem TResult}
  {running : List Nat} {index lane : Nat} {result : TResult}

theorem tally_called : Tally items shouldStop (called items : Pool TItem TResult) [] where
  size := by simp [called]
  inOrder := rfl
  ofItem := by simp [called, Pool.claims]
  inRange := Nat.zero_le _
  once := List.nodup_nil
  pending := by simp [called]
  stored := by
    intro index result
    simp only [called, List.not_mem_nil, List.getElem?_replicate, false_iff]
    split <;> simp
  untouched := by
    intro index result h
    simp only [called, List.getElem?_replicate] at h
    split at h <;> simp at h
  flag := by simp [called]
  ordered := .nil

theorem claimNext_cases (items : List TItem) (s : Pool TItem TResult) :
    (claimNext items s = (none, s) ∧ (s.stopped = true ∨ items.length ≤ s.nextIndex)) ∨
      ∃ item, items[s.nextIndex]? = some item ∧ s.stopped = false ∧
        claimNext items s = (some s.nextIndex, { s with
          nextIndex := s.nextIndex + 1
          log := s.log ++ [.claimed s.nextIndex item] }) := by
  unfold claimNext
  split
  · rename_i h
    exact .inr ⟨items.get ⟨s.nextIndex, h.2⟩, by simp [h.2], h.1, rfl⟩
  · rename_i h
    refine .inl ⟨rfl, ?_⟩
    rw [not_and, Nat.not_lt] at h
    by_cases hs : s.stopped = true
    · exact .inl hs
    · exact .inr (h (by simpa using hs))

theorem Tally.claim (h : Tally items shouldStop s running) :
    Tally items shouldStop (claimNext items s).2 ((claimNext items s).1.toList ++ running) := by
  obtain ⟨he, -⟩ | ⟨item, hitem, hgo, he⟩ := claimNext_cases items s
  · rw [he]
    exact h
  · have hlt : s.nextIndex < items.length := (List.getElem?_eq_some_iff.mp hitem).1
    have hopen : s.results[s.nextIndex]? = some none := by
      cases hr : s.results[s.nextIndex]? with
      | none =>
        have := List.getElem?_eq_none_iff.mp hr
        have := h.size
        omega
      | some held =>
        cases held with
        | none => rfl
        | some result => exact absurd (h.untouched _ _ hr) (Nat.lt_irrefl _)
    rw [he]
    exact {
      size := h.size
      inOrder := by
        show (List.filterMap claimOf (s.log ++ _)).map Prod.fst = _
        rw [List.filterMap_append, List.map_append, List.range_succ]
        exact congrArg (· ++ [s.nextIndex]) h.inOrder
      ofItem := by
        intro claim hc
        replace hc : claim ∈ List.filterMap claimOf (s.log ++ _) := hc
        rw [List.filterMap_append, List.mem_append] at hc
        obtain hc | hc := hc
        · exact h.ofItem claim hc
        · obtain rfl : claim = (s.nextIndex, item) := by simpa [claimOf] using hc
          exact hitem
      inRange := hlt
      once := by
        refine List.nodup_cons.mpr ⟨?_, h.once⟩
        intro hm
        exact absurd ((h.pending _).mp hm).1 (Nat.lt_irrefl _)
      pending := by
        intro index
        simp only [Option.toList_some, List.singleton_append, List.mem_cons, h.pending]
        constructor
        · rintro (rfl | ⟨hi, hr⟩)
          · exact ⟨Nat.lt_succ_self _, hopen⟩
          · exact ⟨Nat.lt_succ_of_lt hi, hr⟩
        · rintro ⟨hi, hr⟩
          obtain hi | rfl := Nat.lt_succ_iff_lt_or_eq.mp hi
          · exact .inr ⟨hi, hr⟩
          · exact .inl rfl
      stored := by simpa using h.stored
      untouched := by
        intro index result hr
        exact Nat.lt_succ_of_lt (h.untouched index result hr)
      flag := by simpa using h.flag
      ordered := by
        refine List.pairwise_append.mpr ⟨h.ordered, List.pairwise_singleton _ _, ?_⟩
        intro event hm later hl
        obtain rfl := List.mem_singleton.mp hl
        cases event with
        | claimed => trivial
        | stored index result =>
          by_contra hstop
          have := h.flag.mpr ⟨index, result, hm, by simpa [Follows] using hstop⟩
          simp [hgo] at this }

theorem Tally.store (h : Tally items shouldStop s (index :: running)) :
    Tally items shouldStop (storeResult shouldStop index result s) running := by
  obtain ⟨hlt, hopen⟩ := (h.pending index).mp List.mem_cons_self
  have hsize : index < s.results.length := (List.getElem?_eq_some_iff.mp hopen).1
  have hclaims : (storeResult shouldStop index result s).claims = s.claims := by
    simp [storeResult, Pool.claims, claimOf]
  have hread : ∀ other, (storeResult shouldStop index result s).results[other]? =
      if other = index then some (some result) else s.results[other]? := by
    intro other
    simp only [storeResult, List.getElem?_set, hsize, if_true, eq_comm]
  exact {
    size := by simpa [storeResult] using h.size
    inOrder := hclaims ▸ h.inOrder
    ofItem := hclaims ▸ h.ofItem
    inRange := h.inRange
    once := (List.nodup_cons.mp h.once).2
    pending := by
      intro other
      rw [hread]
      by_cases he : other = index
      · subst he
        simpa using (List.nodup_cons.mp h.once).1
      · have := h.pending other
        rw [List.mem_cons] at this
        simpa [he, storeResult] using this
    stored := by
      intro other held
      rw [hread]
      simp only [storeResult, List.mem_append, List.mem_singleton, h.stored, PoolEvent.stored.injEq]
      by_cases he : other = index
      · subst he
        simp [hopen, eq_comm]
      · simp [he]
    untouched := by
      intro other held hr
      rw [hread] at hr
      split at hr
      · rename_i he
        exact he ▸ hlt
      · exact h.untouched other held hr
    flag := by
      simp only [storeResult, Bool.or_eq_true, h.flag, List.mem_append, List.mem_singleton,
        PoolEvent.stored.injEq]
      constructor
      · rintro (⟨other, held, hm, hs⟩ | hs)
        · exact ⟨other, held, .inl hm, hs⟩
        · exact ⟨index, result, .inr ⟨rfl, rfl⟩, hs⟩
      · rintro ⟨other, held, hm | ⟨rfl, rfl⟩, hs⟩
        · exact .inl ⟨other, held, hm, hs⟩
        · exact .inr hs
    ordered := by
      refine List.pairwise_append.mpr ⟨h.ordered, List.pairwise_singleton _ _, ?_⟩
      intro event _ later hl
      obtain rfl := List.mem_singleton.mp hl
      cases event <;> trivial }

theorem Tally.perm {running' : List Nat} (h : Tally items shouldStop s running) (hp : running.Perm running') :
    Tally items shouldStop s running' :=
  { h with
    once := hp.nodup_iff.mp h.once
    pending := fun index => hp.mem_iff.symm.trans (h.pending index) }

theorem Tally.lanes (lanes : List (Option Nat)) (h : Tally items shouldStop s running) :
    Tally items shouldStop { s with lanes := lanes } running :=
  { size := h.size, inOrder := h.inOrder, ofItem := h.ofItem, inRange := h.inRange, once := h.once
    pending := h.pending, stored := h.stored, untouched := h.untouched, flag := h.flag, ordered := h.ordered }

end KimchiWorkflows.Engine.LanePool
