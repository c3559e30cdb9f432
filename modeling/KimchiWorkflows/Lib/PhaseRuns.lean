import KimchiWorkflows.Lib.Phases
import KimchiWorkflows.Lib.Scheduling
import Mathlib.Data.List.Forall2

/-!
What a step of a process does to the phases of its parts, and what holds of them along a run.
-/

namespace Process.Proc

open Process

variable {σ A Q R ρ Φ : Type} {D : Discipline A Q Φ} {apart : Φ → Φ → Prop} {home : Φ → Prop} {φ : Φ}
  {ends : ρ → Φ → Prop}

theorem stands_of_keeps {p : Proc σ A Q R ρ} (h : p.Keeps D apart home φ ends) (hh : D.busy φ = true → home φ) :
    ∃ φs, p.Stands D apart home φs ends ∧ φs.filter D.busy = [φ].filter D.busy := by
  induction p generalizing home φ ends with
  | done r => exact ⟨[φ], ⟨φ, rfl, hh, h⟩, rfl⟩
  | act a k _ => exact ⟨[φ], ⟨φ, rfl, hh, h⟩, rfl⟩
  | look k _ => exact ⟨[φ], ⟨φ, rfl, hh, h⟩, rfl⟩
  | call q k _ => exact ⟨[φ], ⟨φ, rfl, hh, h⟩, rfl⟩
  | fork size stop lane task join iht _ =>
    obtain ⟨rfl, homes, hsub, hapart, ht, hj⟩ := h
    have hidle : ∀ i, D.busy D.idle = true → homes i D.idle := by
      intro i hb
      rw [(D.idle_iff D.idle).mpr rfl] at hb
      cases hb
    have hlanes : ∀ i, ∃ φs, (task i).Stands D apart (homes i) φs (fun _ φ => φ = D.idle) ∧
        φs.filter D.busy = [] := by
      intro i
      obtain ⟨φs, hs, hf⟩ := iht i (ht i) (hidle i)
      exact ⟨φs, hs, hf.trans filter_idle⟩
    choose lanes hlanes hnone using hlanes
    refine ⟨_, ⟨homes, lanes, hsub, hapart, fun i _ _ => hlanes i, fun i _ _ => ht i, hj, rfl⟩, ?_⟩
    rw [filter_pool, filter_idle, List.flatMap_eq_nil_iff]
    intro i _
    split
    · exact hnone i
    · rfl

/-- A part that keeps to the discipline from its phase on and ends idle; a pool whose lanes are done is idle. -/
def GoesOn (D : Discipline A Q Φ) (apart : Φ → Φ → Prop) (part : Proc σ A Q R ρ) (φ : Φ) : Prop :=
  (φ = D.idle ∧ ∃ size stop lane task join, part = .fork size stop lane task join) ∨
    ∃ home, Keeps D apart part home φ (fun _ φ => φ = D.idle)

theorem parts_of_stands {p : Proc σ A Q R ρ} {φs : List Φ}
    (h : p.Stands D apart home φs (fun _ φ => φ = D.idle)) : List.Forall₂ (GoesOn D apart) p.parts φs := by
  induction p generalizing home φs with
  | done r =>
    obtain ⟨φ, rfl, -, hk⟩ := h
    exact .cons (.inr ⟨_, hk⟩) .nil
  | act a k _ =>
    obtain ⟨φ, rfl, -, hk⟩ := h
    exact .cons (.inr ⟨_, hk⟩) .nil
  | look k _ =>
    obtain ⟨φ, rfl, -, hk⟩ := h
    exact .cons (.inr ⟨_, hk⟩) .nil
  | call q k _ =>
    obtain ⟨φ, rfl, -, hk⟩ := h
    exact .cons (.inr ⟨_, hk⟩) .nil
  | fork size stop lane task join iht _ =>
    obtain ⟨homes, lanes, -, -, hrun, -, -, rfl⟩ := h
    simp only [parts]
    split
    · have hall : ∀ is : List Nat, (∀ i ∈ is, i < size) →
          List.Forall₂ (GoesOn D apart)
            (is.flatMap (fun i => if (lane i).isRunning then (task i).parts else []))
            (is.flatMap (fun i => if (lane i).isRunning then lanes i else [])) := by
        intro is his
        induction is with
        | nil => exact .nil
        | cons i rest ih =>
          simp only [List.flatMap_cons]
          refine List.rel_append ?_ (ih (fun j hj => his j (List.mem_cons_of_mem _ hj)))
          split
          · rename_i hr
            exact iht i (hrun i (his i List.mem_cons_self) hr)
          · exact .nil
      exact hall _ (fun i hi => List.mem_range.mp hi)
    · exact .cons (.inl ⟨rfl, _, _, _, _, _, rfl⟩) .nil

theorem home_of_stands {p : Proc σ A Q R ρ} {φs : List Φ} (h : p.Stands D apart home φs ends) :
    ∀ φ ∈ φs.filter D.busy, home φ := by
  induction p generalizing home φs ends with
  | fork size stop lane task join iht _ =>
    obtain ⟨homes, lanes, hsub, -, hrun, -, -, rfl⟩ := h
    intro φ hφ
    rw [filter_pool] at hφ
    obtain ⟨i, hi, hφ⟩ := List.mem_flatMap.mp hφ
    split at hφ
    · rename_i hr
      have hi := List.mem_range.mp hi
      exact hsub i hi φ (iht i (hrun i hi hr) φ hφ)
    · cases hφ
  | _ =>
    obtain ⟨φ, rfl, hh, -⟩ := h
    intro ψ hψ
    obtain ⟨hm, hb⟩ := List.mem_filter.mp hψ
    obtain rfl := List.mem_singleton.mp hm
    exact hh hb

theorem apart_of_stands {p : Proc σ A Q R ρ} {φs : List Φ} (h : p.Stands D apart home φs ends) :
    (φs.filter D.busy).Pairwise apart := by
  induction p generalizing home φs ends with
  | fork size stop lane task join iht _ =>
    obtain ⟨homes, lanes, -, hapart, hrun, -, -, rfl⟩ := h
    rw [filter_pool, List.pairwise_flatMap]
    constructor
    · intro i hi
      split
      · rename_i hr
        exact iht i (hrun i (List.mem_range.mp hi) hr)
      · exact .nil
    · refine List.Pairwise.imp_of_mem ?_ List.nodup_range
      intro i j hi hj hne φ hφ ψ hψ
      have hi := List.mem_range.mp hi
      have hj := List.mem_range.mp hj
      split at hφ
      · split at hψ
        · rename_i hr hr'
          exact hapart i hi j hj hne φ ψ (home_of_stands (hrun i hi hr) φ hφ) (home_of_stands (hrun j hj hr') ψ hψ)
        · cases hψ
      · cases hφ
  | _ =>
    obtain ⟨φ, rfl, -, -⟩ := h
    exact List.Pairwise.sublist List.filter_sublist (List.pairwise_singleton _ _)

theorem Shift.frame {ls : List (Label σ A Q R)} {φs φs' : List Φ} (h : Shift D ls φs φs') (before after : List Φ) :
    Shift D ls (before ++ φs ++ after) (before ++ φs' ++ after) := by
  cases h with
  | did b c hm =>
    have := Shift.did (σ := σ) (R := R) (Q := Q) (before ++ b) (c ++ after) hm
    simpa using this
  | saw s => exact .saw s _
  | heard ha hm =>
    refine .heard ha (fun hb => ?_)
    simp [hm hb]
  | silent => exact .silent _

theorem running_of_settle {size : Nat} {stop : ρ → Bool} {lane : Nat → Lane ρ} {i : Nat} {r : ρ} {j : Nat}
    (hrun : (Process.settle size stop lane i r j).isRunning = true) :
    j ≠ i ∧ (lane j).isRunning = true ∨ j ≠ i ∧ (lane j).isWaiting = true := by
  unfold Process.settle at hrun
  rcases claim_cases size stop (Function.update lane i (.settled r)) j with he | ⟨hw, he⟩
  · rw [he] at hrun
    by_cases hj : j = i
    · subst hj
      simp [Lane.isRunning] at hrun
    · rw [Function.update_of_ne hj] at hrun
      exact .inl ⟨hj, hrun⟩
  · by_cases hj : j = i
    · subst hj
      simp [Lane.isWaiting] at hw
    · rw [Function.update_of_ne hj] at hw
      exact .inr ⟨hj, hw⟩

theorem running_settle {size : Nat} {stop : ρ → Bool} {lane : Nat → Lane ρ} {i : Nat} {r : ρ} {j : Nat}
    (hji : j ≠ i) (hr : (lane j).isRunning = true) : (Process.settle size stop lane i r j).isRunning = true := by
  unfold Process.settle
  rcases claim_cases size stop (Function.update lane i (.settled r)) j with he | ⟨_, he⟩
  · rw [he, Function.update_of_ne hji]
    exact hr
  · rw [he]
    rfl

theorem waiting_of_settle {size : Nat} {stop : ρ → Bool} {lane : Nat → Lane ρ} {i : Nat} {r : ρ} {j : Nat}
    (hw : (Process.settle size stop lane i r j).isWaiting = true) : (lane j).isWaiting = true := by
  unfold Process.settle at hw
  rcases claim_cases size stop (Function.update lane i (.settled r)) j with he | ⟨_, he⟩
  · rw [he] at hw
    by_cases hj : j = i
    · subst hj
      simp [Lane.isWaiting] at hw
    · rwa [Function.update_of_ne hj] at hw
  · rw [he] at hw
    simp [Lane.isWaiting] at hw

theorem stands_step {p q : Proc σ A Q R ρ} {ls : List (Label σ A Q R)} {φs : List Φ}
    (h : p.Stands D apart home φs ends) (hs : Step p ls q) :
    ∃ φs', q.Stands D apart home φs' ends ∧ Shift D ls (φs.filter D.busy) (φs'.filter D.busy) := by
  induction hs generalizing home φs ends with
  | act a k =>
    obtain ⟨φ, rfl, hh, φ', hm, hh', hk⟩ := h
    obtain ⟨φs', hs, hf⟩ := stands_of_keeps hk hh'
    refine ⟨φs', hs, ?_⟩
    rw [hf]
    simpa using Shift.did (σ := σ) (R := R) (Q := Q) [] [] hm
  | look s k =>
    obtain ⟨φ, rfl, hh, hk⟩ := h
    obtain ⟨φs', hs, hf⟩ := stands_of_keeps (hk s) hh
    exact ⟨φs', hs, hf ▸ .saw s _⟩
  | call c r k =>
    obtain ⟨φ, rfl, hh, ha, hk⟩ := h
    obtain ⟨φs', hs, hf⟩ := stands_of_keeps (hk r) hh
    refine ⟨φs', hs, ?_⟩
    rw [hf]
    exact .heard ha (fun hb => by simp [hb])
  | @task size stop lane task join ls p i hi hr hstep ih =>
    obtain ⟨homes, lanes, hsub, hapart, hrun, hwait, hj, rfl⟩ := h
    obtain ⟨φs', hs, hshift⟩ := ih (hrun i hi hr)
    refine ⟨_, ⟨homes, Function.update lanes i φs', hsub, hapart, ?_, ?_, hj, rfl⟩, ?_⟩
    · intro j hj hrj
      by_cases hji : j = i
      · subst hji
        simpa using hs
      · rw [Function.update_of_ne hji, Function.update_of_ne hji]
        exact hrun j hj hrj
    · intro j hj hw
      have hji : j ≠ i := by
        rintro rfl
        cases hl : lane j <;> simp [hl, Lane.isRunning, Lane.isWaiting] at hr hw
      rw [Function.update_of_ne hji]
      exact hwait j hj hw
    · rw [filter_pool, filter_pool]
      obtain ⟨before, after, hsplit⟩ := flatMap_range_update size
        (fun j => if (lane j).isRunning then (lanes j).filter D.busy else []) hi
      have hframe := hshift.frame before after
      rw [← hsplit, ← hsplit] at hframe
      convert hframe using 3 with j j
      · by_cases hji : j = i
        · subst hji
          simp [hr]
        · rw [Function.update_of_ne hji]
      · by_cases hji : j = i
        · subst hji
          simp [hr]
        · rw [Function.update_of_ne hji, Function.update_of_ne hji]
  | @settle size stop lane task join i r hi hr hd =>
    obtain ⟨homes, lanes, hsub, hapart, hrun, hwait, hj, rfl⟩ := h
    have hdone : (lanes i).filter D.busy = [] := by
      have hlane := hrun i hi hr
      rw [hd] at hlane
      obtain ⟨φ, he, -, hend⟩ := hlane
      rw [he, show φ = D.idle from hend, filter_idle]
    -- a lane that has just started has only idle parts; the others stand as before
    have hnext : ∀ j, ∃ φs, (j < size → (Process.settle size stop lane i r j).isRunning = true →
        (task j).Stands D apart (homes j) φs (fun _ φ => φ = D.idle)) ∧
        ((Process.settle size stop lane i r j).isRunning = true →
          φs.filter D.busy = if (lane j).isRunning then (lanes j).filter D.busy else []) := by
      intro j
      by_cases hn : j < size ∧ (Process.settle size stop lane i r j).isRunning = true
      · obtain ⟨hlt, hn⟩ := hn
        rcases running_of_settle hn with ⟨_, hold⟩ | ⟨_, hw⟩
        · exact ⟨lanes j, fun _ _ => hrun j hlt hold, fun _ => by rw [if_pos hold]⟩
        · obtain ⟨φs, hs, hf⟩ := stands_of_keeps (hwait j hlt hw) (by simp [(D.idle_iff D.idle).mpr rfl])
          refine ⟨φs, fun _ _ => hs, fun _ => ?_⟩
          have hnot : (lane j).isRunning = false := by
            cases hl : lane j <;> simp [hl, Lane.isWaiting, Lane.isRunning] at hw ⊢
          rw [hf, filter_idle, hnot]
          rfl
      · refine ⟨if (lane j).isRunning then lanes j else [], fun hlt hr' => absurd ⟨hlt, hr'⟩ hn, fun _ => ?_⟩
        split <;> rfl
    choose lanes' hstands hfilter using hnext
    refine ⟨_, ⟨homes, lanes', hsub, hapart, hstands, fun j hj hw => hwait j hj (waiting_of_settle hw), hj, rfl⟩, ?_⟩
    rw [filter_pool, filter_pool]
    have hsame : ∀ j ∈ List.range size,
        (if (Process.settle size stop lane i r j).isRunning then (lanes' j).filter D.busy else []) =
          (if (lane j).isRunning then (lanes j).filter D.busy else []) := by
      intro j _
      split
      · rename_i hn
        exact hfilter j hn
      · rename_i hn
        split
        · rename_i hold
          by_cases hji : j = i
          · rw [hji, hdone]
          · exact absurd (running_settle hji hold) hn
        · rfl
    rw [List.flatMap_congr hsame]
    exact .silent _
  | @join size stop lane task join hn =>
    obtain ⟨homes, lanes, -, -, -, -, hj, rfl⟩ := h
    have hnone : (List.range size).any (fun i => (lane i).isRunning) = false := by
      rw [List.any_eq_false]
      intro i hi
      simp [hn i (List.mem_range.mp hi)]
    obtain ⟨φs', hs, hf⟩ := stands_of_keeps (hj (results size lane)) (by simp [(D.idle_iff D.idle).mpr rfl])
    refine ⟨φs', hs, ?_⟩
    rw [hnone, hf]
    exact .silent _

end Process.Proc

namespace Scheduling

open Process Process.Proc

variable {σ A Q R ρ Φ : Type} {D : Discipline A Q Φ} {apart : Φ → Φ → Prop} {home : Φ → Prop}
  {ends : ρ → Φ → Prop} {W : World σ A Q R}

/-- What every label keeps, whatever part it comes from: a statement on the trace so far, the state, and the
phases of the busy parts. -/
structure Kept (W : World σ A Q R) (D : Discipline A Q Φ) (apart : Φ → Φ → Prop) (home : Φ → Prop)
    (Inv : List (Label σ A Q R) → σ → List Φ → Prop) : Prop where
  did : ∀ u s a l r φ φ', D.moves a φ φ' → W.enabled a s = true →
    (l ++ [φ].filter D.busy ++ r).Pairwise apart → (l ++ [φ'].filter D.busy ++ r).Pairwise apart →
    (∀ ψ ∈ l ++ [φ'].filter D.busy ++ r, home ψ) → Inv u s (l ++ [φ].filter D.busy ++ r) →
    Inv (u ++ [.did a]) (W.apply a s) (l ++ [φ'].filter D.busy ++ r)
  saw : ∀ u s φs, Inv u s φs → Inv (u ++ [.saw s]) s φs
  heard : ∀ u s c r φ φs, D.asks c φ → (D.busy φ = true → φ ∈ φs) → W.admits c r = true → Inv u s φs →
    Inv (u ++ [.heard c r]) s φs
  outside : ∀ u s s' φs, W.outside s s' → Inv u s φs → Inv u s' φs

variable {Inv : List (Label σ A Q R) → σ → List Φ → Prop}

theorem Kept.shift (hk : Kept W D apart home Inv) {ls u : List (Label σ A Q R)} {s s' : σ} {φs φs' : List Φ}
    (hw : Replay W s ls s') (h : Shift D ls φs φs') (hp : φs.Pairwise apart) (hp' : φs'.Pairwise apart)
    (hh : ∀ ψ ∈ φs', home ψ) (hi : Inv u s φs) : Inv (u ++ ls) s' φs' := by
  have hnil : ∀ {s s' : σ} {u : List (Label σ A Q R)} {φs : List Φ}, Replay W s [] s' → Inv u s φs → Inv u s' φs := by
    intro s s' u φs hw
    generalize he : ([] : List (Label σ A Q R)) = none at hw
    induction hw with
    | nil => exact id
    | outside ho _ ih => exact fun hi => ih he (hk.outside _ _ _ _ ho hi)
    | did _ _ => cases he
    | saw _ => cases he
    | heard _ _ => cases he
  generalize he : ls = labels at hw
  induction hw with
  | nil =>
    subst he
    cases h
    simpa using hi
  | outside ho _ ih => exact ih (hk.outside _ _ _ _ ho hi) he
  | did ha hrest =>
    subst he
    cases h with
    | did l r hm => exact hnil hrest (hk.did _ _ _ _ _ _ _ hm ha hp hp' hh hi)
  | saw hrest =>
    subst he
    cases h with
    | saw => exact hnil hrest (hk.saw _ _ _ hi)
  | heard hc hrest =>
    subst he
    cases h with
    | heard ha hm => exact hnil hrest (hk.heard _ _ _ _ _ _ ha hm hc hi)

theorem stands_run (hk : Kept W D apart home Inv) {p q : Proc σ A Q R ρ} {t u : List (Label σ A Q R)} {s s' : σ}
    {φs : List Φ} (hp : p.Stands D apart home φs ends) (hr : Run p t q) (hw : Replay W s t s')
    (hi : Inv u s (φs.filter D.busy)) :
    ∃ φs', q.Stands D apart home φs' ends ∧ Inv (u ++ t) s' (φs'.filter D.busy) := by
  induction hr generalizing s φs u with
  | refl p =>
    have hshift := Shift.silent (D := D) (σ := σ) (A := A) (Q := Q) (R := R) (φs.filter D.busy)
    exact ⟨φs, hp, hk.shift hw hshift (apart_of_stands hp) (apart_of_stands hp) (home_of_stands hp) hi⟩
  | @head p q r ls t hs _ ih =>
    obtain ⟨v, hfirst, hrest⟩ := replay_split hw
    obtain ⟨φs₁, hq, hshift⟩ := stands_step hp hs
    have hi₁ := hk.shift hfirst hshift (apart_of_stands hp) (apart_of_stands hq) (home_of_stands hq) hi
    obtain ⟨φs', hend, hi'⟩ := ih hq hrest hi₁
    exact ⟨φs', hend, by simpa using hi'⟩

end Scheduling
