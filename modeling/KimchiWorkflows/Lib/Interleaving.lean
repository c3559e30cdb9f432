import Mathlib.Data.List.Basic
import Mathlib.Tactic.SplitIfs
import KimchiWorkflows.Lib.Process

namespace Interleaving

open Process Process.Proc

variable {α β σ A Q R ρ : Type}

/-- The entries of a shared sequence that belong to lane `i`, in their shared order. -/
def own (i : Nat) (tagged : List (Nat × α)) : List α :=
  (tagged.filter (fun e => e.1 = i)).map Prod.snd

@[simp] theorem own_nil (i : Nat) : own i ([] : List (Nat × α)) = [] := rfl

theorem own_append (i : Nat) (s t : List (Nat × α)) : own i (s ++ t) = own i s ++ own i t := by
  simp [own]

theorem own_tag_self (i : Nat) (xs : List α) : own i (xs.map (i, ·)) = xs := by
  induction xs with
  | nil => rfl
  | cons x xs ih => simpa [own] using ih

theorem own_tag_of_ne {i j : Nat} (h : j ≠ i) (xs : List α) : own i (xs.map (j, ·)) = [] := by
  induction xs with
  | nil => rfl
  | cons x xs ih => simp [own, h]

theorem own_filterMap (f : α → Option β) (i : Nat) (tagged : List (Nat × α)) :
    own i (tagged.filterMap (fun e => (f e.2).map (e.1, ·))) = (own i tagged).filterMap f := by
  induction tagged with
  | nil => rfl
  | cons e rest ih =>
    obtain ⟨j, a⟩ := e
    cases hf : f a with
    | none => by_cases hj : j = i <;> simp_all [own]
    | some b => by_cases hj : j = i <;> simp_all [own]

theorem mem_own {i : Nat} {a : α} {tagged : List (Nat × α)} :
    a ∈ own i tagged ↔ (i, a) ∈ tagged := by
  simp [own]

theorem filter_own {keep : α → Bool} {i : Nat} {tagged : List (Nat × α)}
    (h : ∀ j a, (j, a) ∈ tagged → keep a = true → j = i) :
    (tagged.map Prod.snd).filter keep = (own i tagged).filter keep := by
  induction tagged with
  | nil => rfl
  | cons e rest ih =>
    obtain ⟨j, a⟩ := e
    have hr := ih (fun k b hm hk => h k b (List.mem_cons_of_mem _ hm) hk)
    by_cases hk : keep a = true
    · have hj : j = i := h j a List.mem_cons_self hk
      simp_all [own]
    · by_cases hj : j = i <;> simp_all [own]

/-- How a lane of a pool may end: what it performed meanwhile and where it stands afterwards. -/
def Ends (task : Proc σ A Q R ρ) : Lane ρ → List (Label σ A Q R) → Lane ρ → Prop
  | .settled r, t, final => t = [] ∧ final = .settled r
  | .running, t, final => ∃ r, Traces task t r ∧ final = .settled r
  | .waiting, t, final => (∃ r, Traces task t r ∧ final = .settled r) ∨ (t = [] ∧ final = .waiting)

/-- A pool keeps moving: some lane runs, or nothing waits, or the pool has been stopped. -/
def Live (size : Nat) (stop : ρ → Bool) (lane : Nat → Lane ρ) : Prop :=
  (∃ i < size, (lane i).isRunning = true) ∨ (∀ i < size, (lane i).isWaiting = false) ∨
    stopped size stop lane = true

theorem live_claim (size : Nat) (stop : ρ → Bool) (lane : Nat → Lane ρ) :
    Live size stop (claim size stop lane) := by
  unfold claim
  split_ifs with hs
  · exact .inr (.inr hs)
  · split
    · rename_i i hi
      have hm := List.mem_range.mp (List.mem_of_find?_eq_some hi)
      exact .inl ⟨i, hm, by simp [Lane.isRunning]⟩
    · rename_i hn
      refine .inr (.inl ?_)
      intro i hi
      simpa using List.find?_eq_none.mp hn i (List.mem_range.mpr hi)

theorem ends_claim {task : Proc σ A Q R ρ} {size : Nat} {stop : ρ → Bool} {lane : Nat → Lane ρ}
    {i : Nat} {t : List (Label σ A Q R)} {final : Lane ρ}
    (h : Ends task (claim size stop lane i) t final) : Ends task (lane i) t final := by
  rcases claim_cases size stop lane i with he | ⟨hw, he⟩
  · rwa [he] at h
  · rw [he] at h
    cases hl : lane i with
    | waiting => exact .inl h
    | running => simp [hl, Lane.isWaiting] at hw
    | settled r => simp [hl, Lane.isWaiting] at hw

theorem ends_done {task : Proc σ A Q R ρ} {l : Lane ρ} (h : l.isRunning = false) :
    Ends task l [] l := by
  cases l with
  | waiting => exact .inr ⟨rfl, rfl⟩
  | running => simp [Lane.isRunning] at h
  | settled r => exact ⟨rfl, rfl⟩

/-- A complete run of a pool interleaves one run of each lane that was started. -/
theorem traces_fork {size : Nat} {stop : ρ → Bool} {lane : Nat → Lane ρ}
    {task : Nat → Proc σ A Q R ρ} {join : List (Option ρ) → Proc σ A Q R ρ}
    {t : List (Label σ A Q R)} {r : ρ} (h : Traces (.fork size stop lane task join) t r)
    (hl : Live size stop lane) :
    ∃ tagged u final, t = tagged.map Prod.snd ++ u ∧ Traces (join (results size final)) u r ∧
      (∀ e ∈ tagged, e.1 < size) ∧ (∀ i < size, Ends (task i) (lane i) (own i tagged) (final i)) ∧
      ((∀ i < size, (final i).isWaiting = false) ∨ stopped size stop final = true) := by
  unfold Traces at h
  generalize hp : (Proc.fork size stop lane task join : Proc σ A Q R ρ) = start at h
  generalize hd : (Proc.done r : Proc σ A Q R ρ) = stop' at h
  induction h generalizing lane task with
  | refl q => subst hp; simp at hd
  | @head p q e ls t hs hr ih =>
    subst hp
    cases hs with
    | @task _ _ _ _ _ _ p i hi hrun hstep =>
      obtain ⟨tagged, u, final, rfl, hj, hb, he, hf⟩ := ih hl rfl hd
      refine ⟨ls.map (i, ·) ++ tagged, u, final, by simp [Function.comp_def], hj, ?_, ?_, hf⟩
      · intro e hm
        rcases List.mem_append.mp hm with h' | h'
        · obtain ⟨a, -, rfl⟩ := List.mem_map.mp h'
          exact hi
        · exact hb e h'
      · intro k hk
        have hk' := he k hk
        rw [own_append]
        by_cases hki : k = i
        · subst hki
          rw [own_tag_self]
          cases hlk : lane k with
          | running =>
            rw [hlk] at hk'
            obtain ⟨a, ha, hfin⟩ := hk'
            simp only [Function.update_self] at ha
            exact ⟨a, .head hstep ha, hfin⟩
          | waiting => simp [hlk, Lane.isRunning] at hrun
          | settled a => simp [hlk, Lane.isRunning] at hrun
        · rw [own_tag_of_ne (Ne.symm hki), List.nil_append]
          rwa [Function.update_of_ne hki] at hk'
    | settle i a hi hrun hdone =>
      obtain ⟨tagged, u, final, rfl, hj, hb, he, hf⟩ := ih (live_claim _ _ _) rfl hd
      refine ⟨tagged, u, final, by simp, hj, hb, ?_, hf⟩
      intro k hk
      have hk' := ends_claim (he k hk)
      by_cases hki : k = i
      · subst hki
        simp only [Function.update_self] at hk'
        obtain ⟨hnil, hfin⟩ := hk'
        cases hlk : lane k with
        | running => exact ⟨a, by rw [hnil, hdone]; exact .refl _, hfin⟩
        | waiting => simp [hlk, Lane.isRunning] at hrun
        | settled b => simp [hlk, Lane.isRunning] at hrun
      · rwa [Function.update_of_ne hki] at hk'
    | join hn =>
      refine ⟨[], t, lane, by simp, by subst hd; exact hr, by simp, ?_, ?_⟩
      · intro i hi
        exact ends_done (hn i hi)
      · rcases hl with ⟨i, hi, h'⟩ | h' | h'
        · simp [hn i hi] at h'
        · exact .inl h'
        · exact .inr h'

end Interleaving
