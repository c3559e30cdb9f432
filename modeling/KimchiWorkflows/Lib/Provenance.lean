import Mathlib.Data.List.Basic
import KimchiWorkflows.Lib.Process

/-!
Where an action of a run comes from: the part of the process that performs it, and what that part has done.
-/

namespace Process.Proc

variable {σ A Q R ρ : Type}

/-- `q` runs as a part of `p`: of the labels of a run of `p`, the last list holds those that are its own. -/
inductive Part : Proc σ A Q R ρ → List (Label σ A Q R) → Proc σ A Q R ρ → List (Label σ A Q R) → Prop where
  | whole {p q : Proc σ A Q R ρ} {t : List (Label σ A Q R)} : Run p t q → Part p t p t
  | act {a : A} {k q : Proc σ A Q R ρ} {t u : List (Label σ A Q R)} : Part k t q u →
      Part (.act a k) (.did a :: t) q u
  | look {s : σ} {k : σ → Proc σ A Q R ρ} {q : Proc σ A Q R ρ} {t u : List (Label σ A Q R)} :
      Part (k s) t q u → Part (.look k) (.saw s :: t) q u
  | call {c : Q} {r : R} {k : R → Proc σ A Q R ρ} {q : Proc σ A Q R ρ} {t u : List (Label σ A Q R)} :
      Part (k r) t q u → Part (.call c k) (.heard c r :: t) q u
  | first {p q : Proc σ A Q R ρ} {f : ρ → Proc σ A Q R ρ} {t t' u : List (Label σ A Q R)} :
      Part p t q u → Part (p.bind f) (t ++ t') q u
  | after {p q : Proc σ A Q R ρ} {f : ρ → Proc σ A Q R ρ} {t t' u : List (Label σ A Q R)} {r : ρ} :
      Traces p t r → Part (f r) t' q u → Part (p.bind f) (t ++ t') q u
  | lane {size : Nat} {stop : ρ → Bool} {lane : Nat → Lane ρ} {task : Nat → Proc σ A Q R ρ}
      {join : List (Option ρ) → Proc σ A Q R ρ} {q : Proc σ A Q R ρ} {t t' u : List (Label σ A Q R)} {i : Nat} :
      i < size → Part (task i) t q u → t.Sublist t' → Part (.fork size stop lane task join) t' q u
  | joined {size : Nat} {stop : ρ → Bool} {lane : Nat → Lane ρ} {task : Nat → Proc σ A Q R ρ}
      {join : List (Option ρ) → Proc σ A Q R ρ} {q : Proc σ A Q R ρ} {t t' u : List (Label σ A Q R)}
      {rs : List (Option ρ)} :
      Part (join rs) t q u → t.Sublist t' → Part (.fork size stop lane task join) t' q u

theorem Part.sublist {p q : Proc σ A Q R ρ} {t u : List (Label σ A Q R)} (h : Part p t q u) : u.Sublist t := by
  induction h with
  | whole _ => exact List.Sublist.refl _
  | act _ ih => exact ih.trans (List.sublist_cons_self _ _)
  | look _ ih => exact ih.trans (List.sublist_cons_self _ _)
  | call _ ih => exact ih.trans (List.sublist_cons_self _ _)
  | first _ ih => exact ih.trans (List.sublist_append_left _ _)
  | after _ _ ih => exact ih.trans (List.sublist_append_right _ _)
  | lane _ _ hs ih => exact ih.trans hs
  | joined _ hs ih => exact ih.trans hs

/-- Each action of the kind is performed by a part of the process that answers for it, or is answered for by what
the process itself has done. -/
def Supplies (C : A → Prop) (S : Proc σ A Q R ρ → List (Label σ A Q R) → A → Prop)
    (P : List (Label σ A Q R) → A → Prop) (p : Proc σ A Q R ρ) : Prop :=
  ∀ t q, Run p t q → ∀ a, Label.did a ∈ t → C a →
    (∃ u, u.Sublist t ∧ P u a) ∨ ∃ r u, Part p t r u ∧ .did a ∈ u ∧ S r u a

variable {C : A → Prop} {S : Proc σ A Q R ρ → List (Label σ A Q R) → A → Prop}
  {P P' : List (Label σ A Q R) → A → Prop}

theorem Supplies.mono {p : Proc σ A Q R ρ} (h : Supplies C S P p) (hP : ∀ u a, P u a → P' u a) :
    Supplies C S P' p := by
  intro t q hr a ha hc
  refine (h t q hr a ha hc).imp_left ?_
  rintro ⟨u, hu, hp⟩
  exact ⟨u, hu, hP u a hp⟩

theorem supplies_own {p : Proc σ A Q R ρ} (h : ∀ t q, Run p t q → ∀ a, Label.did a ∈ t → C a → S p t a) :
    Supplies C S P p :=
  fun t q hr a ha hc => .inr ⟨p, t, .whole hr, ha, h t q hr a ha hc⟩

theorem supplies_done (r : ρ) : Supplies C S P (.done r : Proc σ A Q R ρ) := by
  intro t q hr a ha
  rw [run_done hr] at ha
  cases ha

theorem supplies_act {a : A} {k : Proc σ A Q R ρ} (ha : C a → P [.did a] a) (h : Supplies C S P k) :
    Supplies C S P (.act a k) := by
  intro t q hr b hb hc
  obtain rfl | ⟨u, rfl, hu⟩ := run_act hr
  · cases hb
  · obtain he | hb := List.mem_cons.mp hb
    · cases he
      exact .inl ⟨_, List.singleton_sublist.mpr List.mem_cons_self, ha hc⟩
    · obtain ⟨v, hv, hp⟩ | ⟨r, v, hpart, hm, hs⟩ := h u q hu b hb hc
      · exact .inl ⟨v, hv.trans (List.sublist_cons_self _ _), hp⟩
      · exact .inr ⟨r, v, .act hpart, hm, hs⟩

theorem run_look {k : σ → Proc σ A Q R ρ} {q : Proc σ A Q R ρ} {t : List (Label σ A Q R)} (h : Run (.look k) t q) :
    t = [] ∨ ∃ s u, t = .saw s :: u ∧ Run (k s) u q := by
  cases h with
  | refl => exact .inl rfl
  | head hs hr =>
    cases hs
    exact .inr ⟨_, _, rfl, hr⟩

theorem supplies_opened {k : σ → Proc σ A Q R ρ} {T : σ → List (Label σ A Q R) → A → Prop}
    (h : ∀ s, Supplies C S (T s) (k s))
    (hT : ∀ s t u a, u.Sublist t → T s u a → S (.look k) (.saw s :: t) a) : Supplies C S P (.look k) := by
  intro t q hr b hb hc
  obtain rfl | ⟨s, u, rfl, hu⟩ := run_look hr
  · cases hb
  · obtain he | hm := List.mem_cons.mp hb
    · cases he
    · obtain ⟨v, hv, hp⟩ | ⟨r, v, hpart, hin, hs⟩ := h s u q hu b hm hc
      · exact .inr ⟨_, _, .whole hr, hb, hT s u v b hv hp⟩
      · exact .inr ⟨r, v, .look hpart, hin, hs⟩

theorem supplies_look {k : σ → Proc σ A Q R ρ} (h : ∀ s, Supplies C S P (k s)) : Supplies C S P (.look k) := by
  intro t q hr b hb hc
  obtain rfl | ⟨s, u, rfl, hu⟩ := run_look hr
  · cases hb
  · obtain he | hb := List.mem_cons.mp hb
    · cases he
    · obtain ⟨v, hv, hp⟩ | ⟨r, v, hpart, hm, hs⟩ := h s u q hu b hb hc
      · exact .inl ⟨v, hv.trans (List.sublist_cons_self _ _), hp⟩
      · exact .inr ⟨r, v, .look hpart, hm, hs⟩

theorem run_bind {p q : Proc σ A Q R ρ} {f : ρ → Proc σ A Q R ρ} {t : List (Label σ A Q R)}
    (h : Run (p.bind f) t q) : (∃ p', Run p t p') ∨
      ∃ t₁ r t₂, Traces p t₁ r ∧ Run (f r) t₂ q ∧ t = t₁ ++ t₂ := by
  generalize hp : p.bind f = start at h
  induction h generalizing p with
  | refl q => exact .inl ⟨p, .refl p⟩
  | @head start mid q ls u hs hr ih =>
    subst hp
    obtain ⟨r, rfl⟩ | ⟨p', hp', rfl⟩ := step_bind hs
    · exact .inr ⟨[], r, ls ++ u, .refl _, .head hs hr, rfl⟩
    · obtain ⟨p'', hrun⟩ | ⟨t₁, r, t₂, h₁, h₂, rfl⟩ := ih rfl
      · exact .inl ⟨p'', .head hp' hrun⟩
      · exact .inr ⟨ls ++ t₁, r, t₂, .head hp' h₁, h₂, (List.append_assoc _ _ _).symm⟩

theorem supplies_bind {p : Proc σ A Q R ρ} {f : ρ → Proc σ A Q R ρ} (h : Supplies C S P p)
    (hf : ∀ t r, Traces p t r → Supplies C S (fun u => P (t ++ u)) (f r)) : Supplies C S P (p.bind f) := by
  have hfirst : ∀ t t' p', Run p t p' → ∀ a, Label.did a ∈ t → C a → (∃ u, u.Sublist (t ++ t') ∧ P u a) ∨
      ∃ r u, Part (p.bind f) (t ++ t') r u ∧ .did a ∈ u ∧ S r u a := by
    intro t t' p' hp a ha hc
    obtain ⟨u, hu, hpu⟩ | ⟨r, u, hpart, hm, hs⟩ := h t p' hp a ha hc
    · exact .inl ⟨u, hu.trans (List.sublist_append_left _ _), hpu⟩
    · exact .inr ⟨r, u, .first hpart, hm, hs⟩
  intro t q hr a ha hc
  obtain ⟨p', hp⟩ | ⟨t₁, r, t₂, h₁, h₂, rfl⟩ := run_bind hr
  · have hwhole := hfirst t [] p' hp a ha hc
    rwa [List.append_nil] at hwhole
  · obtain ha | ha := List.mem_append.mp ha
    · exact hfirst t₁ t₂ _ h₁ a ha hc
    · obtain ⟨u, hu, hpu⟩ | ⟨s, u, hpart, hm, hs⟩ := hf t₁ r h₁ t₂ q h₂ a ha hc
      · exact .inl ⟨t₁ ++ u, hu.append_left t₁, hpu⟩
      · exact .inr ⟨s, u, .after h₁ hpart, hm, hs⟩

theorem run_fork {size : Nat} {stop : ρ → Bool} {lane : Nat → Lane ρ} {task : Nat → Proc σ A Q R ρ}
    {join : List (Option ρ) → Proc σ A Q R ρ} {t : List (Label σ A Q R)} {q : Proc σ A Q R ρ}
    (h : Run (.fork size stop lane task join) t q) {label : Label σ A Q R} (hm : label ∈ t) :
    (∃ i u p, i < size ∧ Run (task i) u p ∧ u.Sublist t ∧ label ∈ u) ∨
      ∃ rs u, Run (join rs) u q ∧ u.Sublist t ∧ label ∈ u := by
  generalize hp : (Proc.fork size stop lane task join : Proc σ A Q R ρ) = start at h
  induction h generalizing lane task with
  | refl q => cases hm
  | @head start mid q ls rest hs hr ih =>
    subst hp
    cases hs with
    | @task _ _ _ _ _ _ p i hi hrun hstep =>
      obtain hm | hm := List.mem_append.mp hm
      · refine .inl ⟨i, ls, p, hi, ?_, List.sublist_append_left _ _, hm⟩
        have hone := Run.head hstep (.refl p)
        rwa [List.append_nil] at hone
      · obtain ⟨j, u, p', hj, hrun', hsub, hu⟩ | ⟨rs, u, hrun', hsub, hu⟩ := ih hm rfl
        · by_cases hji : j = i
          · subst hji
            rw [Function.update_self] at hrun'
            exact .inl ⟨j, ls ++ u, p', hj, .head hstep hrun', (List.Sublist.refl ls).append hsub,
              List.mem_append_right _ hu⟩
          · rw [Function.update_of_ne hji] at hrun'
            exact .inl ⟨j, u, p', hj, hrun', hsub.trans (List.sublist_append_right _ _), hu⟩
        · exact .inr ⟨rs, u, hrun', hsub.trans (List.sublist_append_right _ _), hu⟩
    | settle i r hi hrun hdone => exact ih hm rfl
    | join hn => exact .inr ⟨_, rest, hr, List.Sublist.refl _, hm⟩

theorem supplies_fork {size : Nat} {stop : ρ → Bool} {lane : Nat → Lane ρ} {task : Nat → Proc σ A Q R ρ}
    {join : List (Option ρ) → Proc σ A Q R ρ} (ht : ∀ i, i < size → Supplies C S P (task i))
    (hj : ∀ rs, Supplies C S P (join rs)) : Supplies C S P (.fork size stop lane task join) := by
  intro t q hr a ha hc
  obtain ⟨i, u, p, hi, hu, hsub, hm⟩ | ⟨rs, u, hu, hsub, hm⟩ := run_fork hr ha
  · obtain ⟨v, hv, hp⟩ | ⟨r, v, hpart, hin, hs⟩ := ht i hi u p hu a hm hc
    · exact .inl ⟨v, hv.trans hsub, hp⟩
    · exact .inr ⟨r, v, .lane hi hpart hsub, hin, hs⟩
  · obtain ⟨v, hv, hp⟩ | ⟨r, v, hpart, hin, hs⟩ := hj rs u q hu a hm hc
    · exact .inl ⟨v, hv.trans hsub, hp⟩
    · exact .inr ⟨r, v, .joined hpart hsub, hin, hs⟩

end Process.Proc
