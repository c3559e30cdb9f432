import Mathlib.Data.List.Basic

/-!
Machines that take one enabled action after another, and what holds along their runs.
-/

namespace Stepping

variable {σ α : Type}

/-- The runs of a machine whose steps all meet a condition on the state before them. -/
inductive Run (step : σ → α → Option σ) (Meets : σ → α → Prop) (start : σ) : List α → σ → Prop where
  | nil : Run step Meets start [] start
  | snoc {actions : List α} {s s' : σ} {a : α} : Run step Meets start actions s → step s a = some s' →
      Meets s a → Run step Meets start (actions ++ [a]) s'

def Unconditional (_ : σ) (_ : α) : Prop := True

variable {step : σ → α → Option σ} {Meets Meets' : σ → α → Prop} {start s s' : σ} {actions : List α}

theorem Run.keeps {Inv : σ → Prop} (h : Run step Meets start actions s) (h0 : Inv start)
    (hstep : ∀ s a s', Inv s → Meets s a → step s a = some s' → Inv s') : Inv s := by
  induction h with
  | nil => exact h0
  | snoc _ hs hm ih => exact hstep _ _ _ ih hm hs

theorem Run.mono (h : Run step Meets start actions s) (hm : ∀ s a, Meets s a → Meets' s a) :
    Run step Meets' start actions s := by
  induction h with
  | nil => exact .nil
  | snoc _ hs ha ih => exact .snoc ih hs (hm _ _ ha)

theorem Run.trans {before after : List α} (h : Run step Meets start before s) (h' : Run step Meets s after s') :
    Run step Meets start (before ++ after) s' := by
  induction h' with
  | nil =>
    rw [List.append_nil]
    exact h
  | snoc _ hs hm ih =>
    rw [← List.append_assoc]
    exact .snoc ih hs hm

theorem Run.single {a : α} (hs : step s a = some s') (hm : Meets s a) : Run step Meets s [a] s' :=
  .snoc .nil hs hm

def steps (step : σ → α → Option σ) (s : σ) : List α → Option σ
  | [] => some s
  | a :: rest => (step s a).bind (fun s' => steps step s' rest)

theorem Run.of_steps {before after : List α} (h : Run step Unconditional start before s)
    (hs : steps step s after = some s') : Run step Unconditional start (before ++ after) s' := by
  induction after generalizing before s with
  | nil =>
    cases hs
    simpa using h
  | cons a rest ih =>
    obtain ⟨u, hu, hr⟩ := Option.bind_eq_some_iff.mp hs
    have := ih (.snoc h hu trivial) hr
    simpa using this

theorem run_of_steps (hs : steps step start actions = some s) : Run step Unconditional start actions s :=
  Run.of_steps .nil hs

end Stepping
