import KimchiWorkflows.Lib.Interleaving
import Mathlib.Data.List.Pairwise

/-!
Processes whose sequential parts each go through phases: what a part may do in a phase, and which phases
two parts of a pool may be in at the same time.
-/

namespace Process

/-- How an action moves the phase of the part that performs it, and in which phases a query is asked; an
idle part is the only one that is not busy. -/
structure Discipline (A Q Φ : Type) where
  moves : A → Φ → Φ → Prop
  asks : Q → Φ → Prop
  idle : Φ
  busy : Φ → Bool
  idle_iff : ∀ φ, busy φ = false ↔ φ = idle

namespace Proc

variable {σ A Q R ρ Φ : Type} (D : Discipline A Q Φ)

/-- From a phase on, the process keeps to the discipline and to the given phases, ends as told, and forks
only while it is idle, into lanes that are pairwise apart. -/
def Keeps (apart : Φ → Φ → Prop) : Proc σ A Q R ρ → (Φ → Prop) → Φ → (ρ → Φ → Prop) → Prop
  | .done r, _, φ, ends => ends r φ
  | .act a k, home, φ, ends => ∃ φ', D.moves a φ φ' ∧ (D.busy φ' = true → home φ') ∧ Keeps apart k home φ' ends
  | .look k, home, φ, ends => ∀ s, Keeps apart (k s) home φ ends
  | .call q k, home, φ, ends => D.asks q φ ∧ ∀ r, Keeps apart (k r) home φ ends
  | .fork size _ _ task join, home, φ, ends => φ = D.idle ∧ ∃ homes : Nat → Φ → Prop,
      (∀ i < size, ∀ φ, homes i φ → home φ) ∧
      (∀ i < size, ∀ j < size, i ≠ j → ∀ φ ψ, homes i φ → homes j ψ → apart φ ψ) ∧
      (∀ i, Keeps apart (task i) (homes i) D.idle (fun _ φ => φ = D.idle)) ∧
      ∀ rs, Keeps apart (join rs) home D.idle ends

variable {D} {apart apart' : Φ → Φ → Prop} {home home' : Φ → Prop} {φ : Φ} {ends ends' : ρ → Φ → Prop}

theorem Keeps.mono {p : Proc σ A Q R ρ} (h : p.Keeps D apart home φ ends) (ha : ∀ φ ψ, apart φ ψ → apart' φ ψ)
    (hh : ∀ φ, home φ → home' φ) (he : ∀ r φ, ends r φ → ends' r φ) : p.Keeps D apart' home' φ ends' := by
  induction p generalizing home home' φ ends ends' with
  | done r => exact he r φ h
  | act a k ih =>
    obtain ⟨φ', hm, hhome, hk⟩ := h
    exact ⟨φ', hm, fun hb => hh φ' (hhome hb), ih hk hh he⟩
  | look k ih => exact fun s => ih s (h s) hh he
  | call q k ih => exact ⟨h.1, fun r => ih r (h.2 r) hh he⟩
  | fork size stop lane task join iht ihj =>
    obtain ⟨hidle, homes, hsub, hapart, ht, hj⟩ := h
    exact ⟨hidle, homes, fun i hi φ hφ => hh φ (hsub i hi φ hφ),
      fun i hi j hj hne φ ψ hφ hψ => ha φ ψ (hapart i hi j hj hne φ ψ hφ hψ),
      fun i => iht i (ht i) (fun _ => id) (fun _ _ => id), fun rs => ihj rs (hj rs) hh he⟩

theorem keeps_bind {p : Proc σ A Q R ρ} {f : ρ → Proc σ A Q R ρ} :
    (p.bind f).Keeps D apart home φ ends ↔ p.Keeps D apart home φ (fun r φ => (f r).Keeps D apart home φ ends) := by
  induction p generalizing φ with
  | done r => exact Iff.rfl
  | act a k ih => simp only [bind, Keeps, ih]
  | look k ih => simp only [bind, Keeps, ih]
  | call q k ih => simp only [bind, Keeps, ih]
  | fork size stop lane task join iht ihj => simp only [bind, Keeps, ihj]

def parts : Proc σ A Q R ρ → List (Proc σ A Q R ρ)
  | .fork size stop lane task join =>
    if (List.range size).any (fun i => (lane i).isRunning) then
      (List.range size).flatMap (fun i => if (lane i).isRunning then parts (task i) else [])
    else [.fork size stop lane task join]
  | p => [p]

variable (D)

def Stands (apart : Φ → Φ → Prop) : Proc σ A Q R ρ → (Φ → Prop) → List Φ → (ρ → Φ → Prop) → Prop
  | .fork size _ lane task join, home, φs, ends => ∃ (homes : Nat → Φ → Prop) (lanes : Nat → List Φ),
      (∀ i < size, ∀ φ, homes i φ → home φ) ∧
      (∀ i < size, ∀ j < size, i ≠ j → ∀ φ ψ, homes i φ → homes j ψ → apart φ ψ) ∧
      (∀ i < size, (lane i).isRunning = true → Stands apart (task i) (homes i) (lanes i) (fun _ φ => φ = D.idle)) ∧
      (∀ i < size, (lane i).isWaiting = true → Keeps D apart (task i) (homes i) D.idle (fun _ φ => φ = D.idle)) ∧
      (∀ rs, Keeps D apart (join rs) home D.idle ends) ∧
      φs = if (List.range size).any (fun i => (lane i).isRunning) then
        (List.range size).flatMap (fun i => if (lane i).isRunning then lanes i else []) else [D.idle]
  | p, home, φs, ends => ∃ φ, φs = [φ] ∧ (D.busy φ = true → home φ) ∧ Keeps D apart p home φ ends

/-- What the labels of a step do to the phases that are busy. -/
inductive Shift : List (Label σ A Q R) → List Φ → List Φ → Prop where
  | did {a : A} {φ φ' : Φ} (before after : List Φ) : D.moves a φ φ' →
      Shift [.did a] (before ++ [φ].filter D.busy ++ after) (before ++ [φ'].filter D.busy ++ after)
  | saw (s : σ) (φs : List Φ) : Shift [.saw s] φs φs
  | heard {q : Q} {r : R} {φ : Φ} {φs : List Φ} : D.asks q φ → (D.busy φ = true → φ ∈ φs) → Shift [.heard q r] φs φs
  | silent (φs : List Φ) : Shift [] φs φs

variable {D}

theorem filter_idle : [D.idle].filter D.busy = [] := by
  have h := (D.idle_iff D.idle).mpr rfl
  simp [h]

theorem filter_pool (size : Nat) (running : Nat → Bool) (lanes : Nat → List Φ) :
    (if (List.range size).any running then
        (List.range size).flatMap (fun i => if running i then lanes i else []) else [D.idle]).filter D.busy =
      (List.range size).flatMap (fun i => if running i then (lanes i).filter D.busy else []) := by
  split
  · rw [List.filter_flatMap]
    apply List.flatMap_congr
    intro i _
    split <;> rfl
  · rename_i hn
    rw [filter_idle, eq_comm, List.flatMap_eq_nil_iff]
    intro i hi
    have hr : running i = false := by
      simpa using fun hr => hn (List.any_eq_true.mpr ⟨i, hi, hr⟩)
    simp [hr]

theorem flatMap_range_update {α : Type} (size : Nat) (g : Nat → List α) {i : Nat} (hi : i < size) :
    ∃ before after, ∀ xs, (List.range size).flatMap (Function.update g i xs) = before ++ xs ++ after := by
  obtain ⟨as, bs, hsplit⟩ := List.append_of_mem (List.mem_range.mpr hi)
  have hn : (as ++ i :: bs).Nodup := hsplit ▸ List.nodup_range
  have hnotin : ∀ js : List Nat, i ∉ js → ∀ xs, js.flatMap (Function.update g i xs) = js.flatMap g := by
    intro js hjs xs
    apply List.flatMap_congr
    intro j hj
    rw [Function.update_of_ne]
    rintro rfl
    exact hjs hj
  have has : i ∉ as := fun h => (List.nodup_append.mp hn).2.2 i h i (by simp) rfl
  have hbs : i ∉ bs := (List.nodup_cons.mp (List.nodup_append.mp hn).2.1).1
  refine ⟨as.flatMap g, bs.flatMap g, fun xs => ?_⟩
  rw [hsplit, List.flatMap_append, List.flatMap_cons, hnotin as has, hnotin bs hbs]
  simp

end Proc

end Process
