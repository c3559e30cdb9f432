import Mathlib.Data.List.Basic
import KimchiWorkflows.Lib.Process

namespace Scheduling

open Process Process.Proc

variable {σ A Q R ρ : Type}

/-- What the labels of a run mean for the shared state, and what may change it from outside. -/
structure World (σ A Q R : Type) where
  enabled : A → σ → Bool
  apply : A → σ → σ
  admits : Q → R → Bool
  outside : σ → σ → Prop

inductive Replay (W : World σ A Q R) : σ → List (Label σ A Q R) → σ → Prop where
  | nil (s : σ) : Replay W s [] s
  | did {a : A} {s s' : σ} {t : List (Label σ A Q R)} : W.enabled a s = true →
      Replay W (W.apply a s) t s' → Replay W s (.did a :: t) s'
  | saw {s s' : σ} {t : List (Label σ A Q R)} : Replay W s t s' → Replay W s (.saw s :: t) s'
  | heard {q : Q} {r : R} {s s' : σ} {t : List (Label σ A Q R)} : W.admits q r = true →
      Replay W s t s' → Replay W s (.heard q r :: t) s'
  | outside {s u s' : σ} {t : List (Label σ A Q R)} : W.outside s u → Replay W u t s' →
      Replay W s t s'

/-- A complete run of a process from one state to another, under some schedule. -/
def Executes (W : World σ A Q R) (p : Proc σ A Q R ρ) (s : σ) (t : List (Label σ A Q R)) (r : ρ)
    (s' : σ) : Prop := Traces p t r ∧ Replay W s t s'

theorem replay_append {W : World σ A Q R} {s u s' : σ} {t t' : List (Label σ A Q R)}
    (h : Replay W s t u) (h' : Replay W u t' s') : Replay W s (t ++ t') s' := by
  induction h with
  | nil s => exact h'
  | did ha _ ih => exact .did ha (ih h')
  | saw _ ih => exact .saw (ih h')
  | heard hq _ ih => exact .heard hq (ih h')
  | outside ho _ ih => exact .outside ho (ih h')

theorem replay_split {W : World σ A Q R} {s s' : σ} {t t' : List (Label σ A Q R)}
    (h : Replay W s (t ++ t') s') : ∃ u, Replay W s t u ∧ Replay W u t' s' := by
  generalize he : t ++ t' = whole at h
  induction h generalizing t with
  | nil s =>
    obtain ⟨rfl, rfl⟩ := List.append_eq_nil_iff.mp he
    exact ⟨s, .nil s, .nil s⟩
  | @did a s s' w ha hw ih =>
    cases t with
    | nil => exact ⟨s, .nil s, by rw [List.nil_append] at he; exact he ▸ .did ha hw⟩
    | cons l t =>
      obtain ⟨rfl, rfl⟩ := List.cons.inj he
      obtain ⟨u, h₁, h₂⟩ := ih rfl
      exact ⟨u, .did ha h₁, h₂⟩
  | @saw s s' w hw ih =>
    cases t with
    | nil => exact ⟨s, .nil s, by rw [List.nil_append] at he; exact he ▸ .saw hw⟩
    | cons l t =>
      obtain ⟨rfl, rfl⟩ := List.cons.inj he
      obtain ⟨u, h₁, h₂⟩ := ih rfl
      exact ⟨u, .saw h₁, h₂⟩
  | @heard q r s s' w hq hw ih =>
    cases t with
    | nil => exact ⟨s, .nil s, by rw [List.nil_append] at he; exact he ▸ .heard hq hw⟩
    | cons l t =>
      obtain ⟨rfl, rfl⟩ := List.cons.inj he
      obtain ⟨u, h₁, h₂⟩ := ih rfl
      exact ⟨u, .heard hq h₁, h₂⟩
  | outside ho _ ih =>
    obtain ⟨u, h₁, h₂⟩ := ih he
    exact ⟨u, .outside ho h₁, h₂⟩

theorem replay_saw {W : World σ A Q R} {β : Type} (view : σ → β) (hview : ∀ s u, W.outside s u → view u = view s)
    {s seen s' : σ} {t : List (Label σ A Q R)} (h : Replay W s (.saw seen :: t) s') :
    view seen = view s ∧ Replay W seen t s' := by
  generalize he : Label.saw seen :: t = whole at h
  induction h with
  | nil s => cases he
  | did _ _ _ => cases he
  | saw hr _ =>
    cases he
    exact ⟨rfl, hr⟩
  | heard _ _ _ => cases he
  | outside ho _ ih =>
    obtain ⟨hsame, hr⟩ := ih he
    exact ⟨hsame.trans (hview _ _ ho), hr⟩

/-- One step of the first lane that can move, with the next reply in line for a call. -/
def advance (W : World σ A Q R) :
    Proc σ A Q R ρ → List R → σ → Option (Proc σ A Q R ρ × List R × σ)
  | .done _, _, _ => none
  | .act a k, rs, s => if W.enabled a s then some (k, rs, W.apply a s) else none
  | .look k, rs, s => some (k s, rs, s)
  | .call _ _, [], _ => none
  | .call q k, r :: rs, s => if W.admits q r then some (k r, rs, s) else none
  | .fork size stop lane task join, rs, s =>
    if (List.range size).any (fun i => (lane i).isRunning) then
      (List.range size).findSome? (fun i =>
        if (lane i).isRunning then
          match task i with
          | .done r => some (.fork size stop (settle size stop lane i r) task join, rs, s)
          | _ => (advance W (task i) rs s).map (fun next =>
              (.fork size stop lane (Function.update task i next.1) join, next.2))
        else none)
    else some (join (results size lane), rs, s)

def drive (W : World σ A Q R) : Nat → Proc σ A Q R ρ → List R → σ → Option (ρ × List R × σ)
  | 0, _, _, _ => none
  | fuel + 1, p, rs, s =>
    match p with
    | .done r => some (r, rs, s)
    | _ => (advance W p rs s).bind (fun next => drive W fuel next.1 next.2.1 next.2.2)

theorem advance_sound {W : World σ A Q R} {p q : Proc σ A Q R ρ} {rs rs' : List R} {s s' : σ}
    (h : advance W p rs s = some (q, rs', s')) : ∃ ls, Step p ls q ∧ Replay W s ls s' := by
  induction p generalizing q rs' s' with
  | done r => simp [advance] at h
  | act a k _ =>
    by_cases ha : W.enabled a s = true
    · simp only [advance, ha, if_true, Option.some.injEq, Prod.mk.injEq] at h
      obtain ⟨rfl, -, rfl⟩ := h
      exact ⟨_, .act a k, .did ha (.nil _)⟩
    · simp [advance, ha] at h
  | look k _ =>
    simp only [advance, Option.some.injEq, Prod.mk.injEq] at h
    obtain ⟨rfl, -, rfl⟩ := h
    exact ⟨_, .look s k, .saw (.nil s)⟩
  | call c k _ =>
    cases rs with
    | nil => simp [advance] at h
    | cons r rs =>
      by_cases hc : W.admits c r = true
      · simp only [advance, hc, if_true, Option.some.injEq, Prod.mk.injEq] at h
        obtain ⟨rfl, -, rfl⟩ := h
        exact ⟨_, .call c r k, .heard hc (.nil s)⟩
      · simp [advance, hc] at h
  | fork size stop lane task join iht _ =>
    simp only [advance] at h
    split_ifs at h with hr
    · obtain ⟨i, hi, hs⟩ := List.exists_of_findSome?_eq_some h
      have hi' : i < size := List.mem_range.mp hi
      split_ifs at hs with hrun
      split at hs
      · rename_i r hd
        simp only [Option.some.injEq, Prod.mk.injEq] at hs
        obtain ⟨rfl, -, rfl⟩ := hs
        exact ⟨_, .settle i r hi' hrun hd, .nil s⟩
      · obtain ⟨⟨p, rest⟩, hp, he⟩ := Option.map_eq_some_iff.mp hs
        obtain ⟨ls, hstep, hreplay⟩ := iht i hp
        simp only [Prod.mk.injEq] at he
        obtain ⟨rfl, rfl⟩ := he
        exact ⟨ls, .task i hi' hrun hstep, hreplay⟩
    · simp only [Option.some.injEq, Prod.mk.injEq] at h
      obtain ⟨rfl, -, rfl⟩ := h
      refine ⟨[], .join ?_, .nil s⟩
      intro i hi
      simpa using fun hrun => hr (List.any_eq_true.mpr ⟨i, List.mem_range.mpr hi, hrun⟩)

/-- What the executable schedule computes is a run. -/
theorem drive_sound {W : World σ A Q R} {fuel : Nat} {p : Proc σ A Q R ρ} {rs rs' : List R}
    {s s' : σ} {r : ρ} (h : drive W fuel p rs s = some (r, rs', s')) :
    ∃ t, Executes W p s t r s' := by
  induction fuel generalizing p rs s with
  | zero => simp [drive] at h
  | succ fuel ih =>
    unfold drive at h
    split at h
    · simp only [Option.some.injEq, Prod.mk.injEq] at h
      obtain ⟨rfl, -, rfl⟩ := h
      exact ⟨[], .refl _, .nil s⟩
    · obtain ⟨⟨q, rs₁, s₁⟩, ha, hd⟩ := Option.bind_eq_some_iff.mp h
      obtain ⟨ls, hstep, hreplay⟩ := advance_sound ha
      obtain ⟨t, ht, hr⟩ := ih hd
      exact ⟨ls ++ t, .head hstep ht, replay_append hreplay hr⟩

/-- As many steps as the schedule can take, up to a bound. -/
def pursue (W : World σ A Q R) : Nat → Proc σ A Q R ρ → List R → σ → Proc σ A Q R ρ × σ
  | 0, p, _, s => (p, s)
  | fuel + 1, p, rs, s =>
    match advance W p rs s with
    | some next => pursue W fuel next.1 next.2.1 next.2.2
    | none => (p, s)

theorem pursue_sound (W : World σ A Q R) (fuel : Nat) (p : Proc σ A Q R ρ) (rs : List R) (s : σ) :
    ∃ t, Run p t (pursue W fuel p rs s).1 ∧ Replay W s t (pursue W fuel p rs s).2 := by
  induction fuel generalizing p rs s with
  | zero => exact ⟨[], .refl p, .nil s⟩
  | succ fuel ih =>
    unfold pursue
    split
    · rename_i next ha
      obtain ⟨ls, hstep, hreplay⟩ := advance_sound (show advance W p rs s = some (next.1, next.2.1, next.2.2) from ha)
      obtain ⟨t, ht, hr⟩ := ih next.1 next.2.1 next.2.2
      exact ⟨ls ++ t, .head hstep ht, replay_append hreplay hr⟩
    · exact ⟨[], .refl p, .nil s⟩

end Scheduling
