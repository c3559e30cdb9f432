import KimchiWorkflows.Lib.Process

/-!
Confinement of a process by the shape of its code, and what it says about every run.
-/

namespace Process.Proc

variable {σ A Q R ρ : Type}

/-- Whatever a process does meets `φ`, and whatever it settles with meets `ψ`. -/
def Only (φ : A → Prop) : Proc σ A Q R ρ → (ρ → Prop) → Prop
  | .done r, ψ => ψ r
  | .act a k, ψ => φ a ∧ Only φ k ψ
  | .look k, ψ => ∀ s, Only φ (k s) ψ
  | .call _ k, ψ => ∀ r, Only φ (k r) ψ
  | .fork _ _ lane task join, ψ => ∃ χ : ρ → Prop, (∀ i, Only φ (task i) χ) ∧
      (∀ i r, lane i = .settled r → χ r) ∧ ∀ rs, (∀ r, some r ∈ rs → χ r) → Only φ (join rs) ψ

theorem only_mono {φ φ' : A → Prop} {ψ ψ' : ρ → Prop} {p : Proc σ A Q R ρ} (h : p.Only φ ψ)
    (hφ : ∀ a, φ a → φ' a) (hψ : ∀ r, ψ r → ψ' r) : p.Only φ' ψ' := by
  induction p generalizing ψ ψ' with
  | done r => exact hψ r h
  | act a k ih => exact ⟨hφ a h.1, ih h.2 hψ⟩
  | look k ih => exact fun s => ih s (h s) hψ
  | call q k ih => exact fun r => ih r (h r) hψ
  | fork size stop lane task join iht ihj =>
    obtain ⟨χ, ht, hl, hj⟩ := h
    exact ⟨χ, fun i => iht i (ht i) (fun _ => id), hl, fun rs hrs => ihj rs (hj rs hrs) hψ⟩

theorem only_bind {φ : A → Prop} {χ ψ : ρ → Prop} {p : Proc σ A Q R ρ} {f : ρ → Proc σ A Q R ρ}
    (h : p.Only φ χ) (hf : ∀ r, χ r → (f r).Only φ ψ) : (p.bind f).Only φ ψ := by
  induction p generalizing χ with
  | done r => exact hf r h
  | act a k ih => exact ⟨h.1, ih h.2 hf⟩
  | look k ih => exact fun s => ih s (h s) hf
  | call q k ih => exact fun r => ih r (h r) hf
  | fork size stop lane task join iht ihj =>
    obtain ⟨χ', ht, hl, hj⟩ := h
    exact ⟨χ', ht, hl, fun rs hrs => ihj rs (hj rs hrs) hf⟩

theorem only_step {φ : A → Prop} {ψ : ρ → Prop} {p q : Proc σ A Q R ρ} {ls : List (Label σ A Q R)}
    (h : p.Only φ ψ) (hs : Step p ls q) : (∀ a, Label.did a ∈ ls → φ a) ∧ q.Only φ ψ := by
  induction hs generalizing ψ with
  | act a k =>
    refine ⟨?_, h.2⟩
    intro b hb
    cases List.mem_singleton.mp hb
    exact h.1
  | look s k => exact ⟨by simp, h s⟩
  | call q r k => exact ⟨by simp, h r⟩
  | task i hi hl hs ih =>
    obtain ⟨χ, ht, hset, hj⟩ := h
    obtain ⟨hacts, hp⟩ := ih (ht i)
    refine ⟨hacts, χ, ?_, hset, hj⟩
    intro j
    by_cases hji : j = i
    · subst hji
      simpa using hp
    · rw [Function.update_of_ne hji]
      exact ht j
  | @settle size stop lane task join i r hi hl hd =>
    obtain ⟨χ, ht, hset, hj⟩ := h
    refine ⟨by simp, χ, ht, ?_, hj⟩
    have hr : χ r := by
      have := ht i
      rwa [hd] at this
    intro j r' hj'
    rcases claim_cases size stop (Function.update lane i (.settled r)) j with he | ⟨-, he⟩
    · rw [Process.settle, he] at hj'
      by_cases hji : j = i
      · subst hji
        rw [Function.update_self] at hj'
        cases hj'
        exact hr
      · rw [Function.update_of_ne hji] at hj'
        exact hset j r' hj'
    · rw [Process.settle, he] at hj'
      cases hj'
  | @join size stop lane task join hn =>
    obtain ⟨χ, ht, hset, hj⟩ := h
    refine ⟨by simp, hj _ ?_⟩
    intro r hr
    obtain ⟨i, -, hi⟩ := List.mem_map.mp hr
    cases hl : lane i with
    | settled r' =>
      rw [hl] at hi
      cases hi
      exact hset i r hl
    | waiting => rw [hl] at hi; cases hi
    | running => rw [hl] at hi; cases hi

/-- What a process is confined to holds of every run of it, also of one cut off anywhere. -/
theorem only_run {φ : A → Prop} {ψ : ρ → Prop} {p q : Proc σ A Q R ρ} {t : List (Label σ A Q R)}
    (h : p.Only φ ψ) (hr : Run p t q) : (∀ a, Label.did a ∈ t → φ a) ∧ q.Only φ ψ := by
  induction hr with
  | refl p => exact ⟨by simp, h⟩
  | head hs _ ih =>
    obtain ⟨hfirst, hq⟩ := only_step h hs
    obtain ⟨hrest, hend⟩ := ih hq
    refine ⟨?_, hend⟩
    intro a ha
    rcases List.mem_append.mp ha with ha | ha
    · exact hfirst a ha
    · exact hrest a ha

end Process.Proc
