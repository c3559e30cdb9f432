import KimchiWorkflows.Lib.Confinement

/-!
A ghost state carried along the code of a process, and what is known of it when the process settles.
-/

namespace Process

/-- What an action does to the ghost state, and which states of the world go with it. -/
structure Ghost (S σ A : Type) where
  next : S → A → S
  sees : S → σ → Prop

variable {S σ A Q R ρ : Type} {G : Ghost S σ A}

namespace Ghost

def after (G : Ghost S σ A) (s : S) : List (Label σ A Q R) → S
  | [] => s
  | .did a :: t => after G (G.next s a) t
  | .saw _ :: t => after G s t
  | .heard _ _ :: t => after G s t

/-- Whenever the process looked, it saw a state that goes with the ghost state at that point. -/
def Seen (G : Ghost S σ A) (s : S) : List (Label σ A Q R) → Prop
  | [] => True
  | .did a :: t => Seen G (G.next s a) t
  | .saw m :: t => G.sees s m ∧ Seen G s t
  | .heard _ _ :: t => Seen G s t

def Silent (G : Ghost S σ A) (a : A) : Prop := ∀ s, G.next s a = s

theorem after_append (s : S) (t u : List (Label σ A Q R)) : G.after s (t ++ u) = G.after (G.after s t) u := by
  induction t generalizing s with
  | nil => rfl
  | cons label t ih => cases label <;> exact ih _

theorem seen_append {s : S} {t u : List (Label σ A Q R)} (h : G.Seen s (t ++ u)) :
    G.Seen s t ∧ G.Seen (G.after s t) u := by
  induction t generalizing s with
  | nil => exact ⟨trivial, h⟩
  | cons label t ih =>
    cases label with
    | did a => exact ih h
    | saw m => exact ⟨⟨h.1, (ih h.2).1⟩, (ih h.2).2⟩
    | heard q r => exact ih h

theorem after_silent {s : S} {t : List (Label σ A Q R)} (h : ∀ a, Label.did a ∈ t → G.Silent a) :
    G.after s t = s := by
  induction t generalizing s with
  | nil => rfl
  | cons label t ih =>
    have hrest : ∀ a, Label.did a ∈ t → G.Silent a := fun a ha => h a (List.mem_cons_of_mem _ ha)
    cases label with
    | did a =>
      rw [after, h a List.mem_cons_self]
      exact ih hrest
    | saw m => exact ih hrest
    | heard q r => exact ih hrest

end Ghost

namespace Proc

/-- Of the lane that moves the ghost state: what is known of it while it waits, runs, has settled. -/
def OwnerKnown (tracks : S → (S → ρ → Prop) → Prop) (lane : Lane ρ) (s s₀ : S) (χ : S → ρ → Prop) : Prop :=
  match lane with
  | .waiting => s = s₀ ∧ tracks s₀ χ
  | .running => tracks s χ
  | .settled r => χ s r

/-- What the join of a pool may rely on: the results of the silent lanes, and that of the owner. -/
def JoinKnown (owner : Nat) (s₀ s : S) (χ : S → ρ → Prop) (φ : ρ → Prop) (rs : List (Option ρ)) : Prop :=
  (∀ i r, i ≠ owner → rs[i]? = some (some r) → φ r) ∧
    match rs[owner]? with
    | some (some r) => χ s r
    | _ => s = s₀

/-- Carried along from `s`, the ghost state and the result the process settles with meet `ψ`. In a
pool at most one lane, its owner, moves the ghost state. -/
def Tracks (G : Ghost S σ A) : Proc σ A Q R ρ → S → (S → ρ → Prop) → Prop
  | .done r, s, ψ => ψ s r
  | .act a k, s, ψ => Tracks G k (G.next s a) ψ
  | .look k, s, ψ => ∀ m, G.sees s m → Tracks G (k m) s ψ
  | .call _ k, s, ψ => ∀ r, Tracks G (k r) s ψ
  | .fork size _ lane task join, s, ψ => ∃ (owner : Nat) (s₀ : S) (χ : S → ρ → Prop) (φ : ρ → Prop),
      (∀ i, i < size → i ≠ owner → Only G.Silent (task i) φ) ∧
      (∀ i r, i ≠ owner → lane i = .settled r → φ r) ∧
      OwnerKnown (Tracks G (task owner)) (lane owner) s s₀ χ ∧ (size ≤ owner → s = s₀) ∧
      ∀ rs s', JoinKnown owner s₀ s' χ φ rs → Tracks G (join rs) s' ψ

theorem tracks_mono {p : Proc σ A Q R ρ} {s : S} {ψ ψ' : S → ρ → Prop} (h : p.Tracks G s ψ)
    (hψ : ∀ s r, ψ s r → ψ' s r) : p.Tracks G s ψ' := by
  induction p generalizing s with
  | done r => exact hψ _ _ h
  | act a k ih => exact ih h
  | look k ih => exact fun m hm => ih m (h m hm)
  | call q k ih => exact fun r => ih r (h r)
  | fork size stop lane task join iht ihj =>
    obtain ⟨owner, s₀, χ, φ, ho, hl, hk, hn, hj⟩ := h
    exact ⟨owner, s₀, χ, φ, ho, hl, hk, hn, fun rs s' hrs => ihj rs (hj rs s' hrs)⟩

theorem tracks_bind {p : Proc σ A Q R ρ} {f : ρ → Proc σ A Q R ρ} {s : S} {χ ψ : S → ρ → Prop}
    (h : p.Tracks G s χ) (hf : ∀ s r, χ s r → (f r).Tracks G s ψ) : (p.bind f).Tracks G s ψ := by
  induction p generalizing s with
  | done r => exact hf _ _ h
  | act a k ih => exact ih h
  | look k ih => exact fun m hm => ih m (h m hm)
  | call q k ih => exact fun r => ih r (h r)
  | fork size stop lane task join iht ihj =>
    obtain ⟨owner, s₀, χ', φ, ho, hl, hk, hn, hj⟩ := h
    exact ⟨owner, s₀, χ', φ, ho, hl, hk, hn, fun rs s' hrs => ihj rs (hj rs s' hrs)⟩

theorem tracks_fork {size : Nat} {stop : ρ → Bool} {lane : Nat → Lane ρ} {task : Nat → Proc σ A Q R ρ}
    {join : List (Option ρ) → Proc σ A Q R ρ} {s : S} {φ : ρ → Prop} {ψ : S → ρ → Prop}
    (ht : ∀ i, Only G.Silent (task i) φ) (h0 : (task 0).Tracks G s (fun s' r => s' = s ∧ φ r))
    (hl : ∀ i r, lane i = .settled r → φ r)
    (hj : ∀ rs, (∀ r, some r ∈ rs → φ r) → (join rs).Tracks G s ψ) :
    Tracks G (.fork size stop lane task join) s ψ := by
  refine ⟨0, s, fun s' r => s' = s ∧ φ r, φ, fun i _ _ => ht i, fun i r _ => hl i r, ?_, fun _ => rfl, ?_⟩
  · cases hlane : lane 0 with
    | waiting => exact ⟨rfl, h0⟩
    | running => exact h0
    | settled r => exact ⟨rfl, hl 0 r hlane⟩
  · rintro rs s' ⟨hothers, howner⟩
    have hs : s' = s := by
      split at howner
      · exact howner.1
      · exact howner
    subst hs
    refine hj rs ?_
    intro r hr
    obtain ⟨i, hi⟩ := List.mem_iff_getElem?.mp hr
    by_cases hzero : i = 0
    · subst hzero
      rw [hi] at howner
      exact howner.2
    · exact hothers i r hzero hi

theorem tracks_silent {p : Proc σ A Q R ρ} {φ : ρ → Prop} (h : p.Only G.Silent φ) (s : S) :
    p.Tracks G s (fun s' r => s' = s ∧ φ r) := by
  induction p generalizing φ with
  | done r => exact ⟨rfl, h⟩
  | act a k ih =>
    show k.Tracks G (G.next s a) _
    rw [h.1 s]
    exact ih h.2
  | look k ih => exact fun m _ => ih m (h m)
  | call q k ih => exact fun r => ih r (h r)
  | fork size stop lane task join iht ihj =>
    obtain ⟨φ', ht, hl, hj⟩ := h
    exact tracks_fork ht (iht 0 (ht 0)) hl (fun rs hrs => ihj rs (hj rs hrs))

theorem getElem?_results {size : Nat} {lane : Nat → Lane ρ} {i : Nat} {r : ρ}
    (h : (results size lane)[i]? = some (some r)) : lane i = .settled r := by
  obtain ⟨hi, hr⟩ := List.getElem?_eq_some_iff.mp h
  simp only [results, List.getElem_map, List.getElem_range] at hr
  cases hl : lane i with
  | settled r' =>
    rw [hl] at hr
    cases hr
    rfl
  | waiting => rw [hl] at hr; cases hr
  | running => rw [hl] at hr; cases hr

theorem tracks_step {p q : Proc σ A Q R ρ} {s : S} {ψ : S → ρ → Prop} {ls : List (Label σ A Q R)}
    (h : p.Tracks G s ψ) (hs : Step p ls q) (hseen : G.Seen s ls) : q.Tracks G (G.after s ls) ψ := by
  induction hs generalizing s ψ with
  | act a k => exact h
  | look m k => exact h m hseen.1
  | call c r k => exact h r
  | @task size stop lane task join ls p i hi hl hs ih =>
    obtain ⟨owner, s₀, χ, φ, ho, hset, hk, hout, hj⟩ := h
    by_cases hio : i = owner
    · subst hio
      refine ⟨i, s₀, χ, φ, ?_, hset, ?_, fun hle => absurd hi (Nat.not_lt.mpr hle), hj⟩
      · intro j hj hji
        rw [Function.update_of_ne hji]
        exact ho j hj hji
      · cases hli : lane i with
        | running =>
          rw [hli] at hk
          simpa [OwnerKnown] using ih hk hseen
        | waiting => rw [hli] at hl; cases hl
        | settled r => rw [hli] at hl; cases hl
    · have hstep := only_step (ho i hi hio) hs
      rw [Ghost.after_silent hstep.1]
      refine ⟨owner, s₀, χ, φ, ?_, hset, ?_, hout, hj⟩
      · intro j hj hj'
        by_cases hji : j = i
        · subst hji
          simpa using hstep.2
        · rw [Function.update_of_ne hji]
          exact ho j hj hj'
      · rw [Function.update_of_ne (Ne.symm hio)]
        exact hk
  | @settle size stop lane task join i r hi hl hd =>
    obtain ⟨owner, s₀, χ, φ, ho, hset, hk, hout, hj⟩ := h
    refine ⟨owner, s₀, χ, φ, ho, ?_, ?_, hout, hj⟩
    · intro j r' hjo hj'
      rcases claim_cases size stop (Function.update lane i (.settled r)) j with he | ⟨-, he⟩
      · rw [Process.settle, he] at hj'
        by_cases hji : j = i
        · subst hji
          rw [Function.update_self] at hj'
          cases hj'
          have := ho j hi hjo
          rwa [hd] at this
        · rw [Function.update_of_ne hji] at hj'
          exact hset j r' hjo hj'
      · rw [Process.settle, he] at hj'
        cases hj'
    · have hupdate : OwnerKnown (Tracks G (task owner)) (Function.update lane i (.settled r) owner) s s₀ χ := by
        by_cases hio : owner = i
        · subst hio
          rw [Function.update_self]
          cases hlo : lane owner with
          | running =>
            rw [hlo] at hk
            simpa [OwnerKnown, hd, Tracks] using hk
          | waiting => rw [hlo] at hl; cases hl
          | settled r => rw [hlo] at hl; cases hl
        · rwa [Function.update_of_ne hio]
      rcases claim_cases size stop (Function.update lane i (.settled r)) owner with he | ⟨hw, he⟩
      · rw [Process.settle, he]
        exact hupdate
      · rw [Process.settle, he]
        cases hlo : Function.update lane i (.settled r) owner with
        | waiting =>
          rw [hlo] at hupdate
          obtain ⟨rfl, htracks⟩ := hupdate
          exact htracks
        | running => rw [hlo] at hw; cases hw
        | settled r => rw [hlo] at hw; cases hw
  | @join size stop lane task join hn =>
    obtain ⟨owner, s₀, χ, φ, ho, hset, hk, hout, hj⟩ := h
    refine hj _ _ ⟨?_, ?_⟩
    · intro i r hio hi
      exact hset i r hio (getElem?_results hi)
    · split
      · rename_i r hr
        rw [getElem?_results hr] at hk
        exact hk
      · rename_i hnone
        by_cases hsize : owner < size
        · cases hlo : lane owner with
          | waiting =>
            rw [hlo] at hk
            exact hk.1
          | running =>
            have := hn owner hsize
            rw [hlo] at this
            cases this
          | settled r =>
            exact absurd (by simp [results, hsize, hlo, Lane.result]) (hnone r)
        · exact hout (Nat.not_lt.mp hsize)

/-- What is tracked along the code of a process holds of every run of it. -/
theorem tracks_run {p q : Proc σ A Q R ρ} {s : S} {ψ : S → ρ → Prop} {t : List (Label σ A Q R)}
    (h : p.Tracks G s ψ) (hr : Run p t q) (hseen : G.Seen s t) : q.Tracks G (G.after s t) ψ := by
  induction hr generalizing s with
  | refl p => exact h
  | head hs _ ih =>
    obtain ⟨hfirst, hrest⟩ := Ghost.seen_append hseen
    rw [Ghost.after_append]
    exact ih (tracks_step h hs hfirst) hrest

end Proc

end Process
