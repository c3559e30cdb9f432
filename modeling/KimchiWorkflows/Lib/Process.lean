import Mathlib.Logic.Function.Basic
import Mathlib.Tactic.SplitIfs

/-!
Processes over a shared state: a process performs atomic actions, reads the whole state, asks its
environment for a reply, and forks a bounded pool of tasks whose steps interleave.
-/

namespace Process

inductive Lane (ρ : Type) where
  | waiting
  | running
  | settled (result : ρ)

inductive Proc (σ A Q R ρ : Type) where
  | done (result : ρ)
  | act (action : A) (next : Proc σ A Q R ρ)
  | look (next : σ → Proc σ A Q R ρ)
  | call (query : Q) (next : R → Proc σ A Q R ρ)
  | fork (size : Nat) (stop : ρ → Bool) (lane : Nat → Lane ρ) (task : Nat → Proc σ A Q R ρ)
      (join : List (Option ρ) → Proc σ A Q R ρ)

inductive Label (σ A Q R : Type) where
  | did (action : A)
  | saw (state : σ)
  | heard (query : Q) (reply : R)

variable {σ A Q R ρ : Type}

def Lane.result : Lane ρ → Option ρ
  | .settled r => some r
  | _ => none

def Lane.isRunning : Lane ρ → Bool
  | .running => true
  | _ => false

def Lane.isWaiting : Lane ρ → Bool
  | .waiting => true
  | _ => false

def stopped (size : Nat) (stop : ρ → Bool) (lane : Nat → Lane ρ) : Bool :=
  (List.range size).any (fun i => ((lane i).result.map stop).getD false)

/-- The lane that has just settled takes the next waiting task, unless the pool has stopped. -/
def claim (size : Nat) (stop : ρ → Bool) (lane : Nat → Lane ρ) : Nat → Lane ρ :=
  if stopped size stop lane then lane
  else match (List.range size).find? (fun i => (lane i).isWaiting) with
    | some i => Function.update lane i .running
    | none => lane

def settle (size : Nat) (stop : ρ → Bool) (lane : Nat → Lane ρ) (i : Nat) (r : ρ) : Nat → Lane ρ :=
  claim size stop (Function.update lane i (.settled r))

def results (size : Nat) (lane : Nat → Lane ρ) : List (Option ρ) :=
  (List.range size).map (fun i => (lane i).result)

theorem claim_cases (size : Nat) (stop : ρ → Bool) (lane : Nat → Lane ρ) (i : Nat) :
    claim size stop lane i = lane i ∨
      ((lane i).isWaiting = true ∧ claim size stop lane i = .running) := by
  unfold claim
  split_ifs
  · exact .inl rfl
  · cases hf : (List.range size).find? (fun j => (lane j).isWaiting) with
    | none => exact .inl rfl
    | some j =>
      by_cases h : i = j
      · subst h
        exact .inr ⟨by simpa using List.find?_some hf, by simp⟩
      · exact .inl (by simp [h])

namespace Proc

inductive Step : Proc σ A Q R ρ → List (Label σ A Q R) → Proc σ A Q R ρ → Prop where
  | act (a : A) (k : Proc σ A Q R ρ) : Step (.act a k) [.did a] k
  | look (s : σ) (k : σ → Proc σ A Q R ρ) : Step (.look k) [.saw s] (k s)
  | call (q : Q) (r : R) (k : R → Proc σ A Q R ρ) : Step (.call q k) [.heard q r] (k r)
  | task {size : Nat} {stop : ρ → Bool} {lane : Nat → Lane ρ} {task : Nat → Proc σ A Q R ρ}
      {join : List (Option ρ) → Proc σ A Q R ρ} {ls : List (Label σ A Q R)}
      {p : Proc σ A Q R ρ} (i : Nat) : i < size → (lane i).isRunning = true → Step (task i) ls p →
      Step (.fork size stop lane task join) ls
        (.fork size stop lane (Function.update task i p) join)
  | settle {size : Nat} {stop : ρ → Bool} {lane : Nat → Lane ρ} {task : Nat → Proc σ A Q R ρ}
      {join : List (Option ρ) → Proc σ A Q R ρ} (i : Nat) (r : ρ) : i < size →
      (lane i).isRunning = true → task i = .done r →
      Step (.fork size stop lane task join) []
        (.fork size stop (Process.settle size stop lane i r) task join)
  | join {size : Nat} {stop : ρ → Bool} {lane : Nat → Lane ρ} {task : Nat → Proc σ A Q R ρ}
      {join : List (Option ρ) → Proc σ A Q R ρ} : (∀ i < size, (lane i).isRunning = false) →
      Step (.fork size stop lane task join) [] (join (results size lane))

inductive Run : Proc σ A Q R ρ → List (Label σ A Q R) → Proc σ A Q R ρ → Prop where
  | refl (p : Proc σ A Q R ρ) : Run p [] p
  | head {p q r : Proc σ A Q R ρ} {ls t : List (Label σ A Q R)} :
      Step p ls q → Run q t r → Run p (ls ++ t) r

/-- The complete runs of a process: its labels in order, and the result it settles with. -/
def Traces (p : Proc σ A Q R ρ) (t : List (Label σ A Q R)) (r : ρ) : Prop := Run p t (.done r)

def bind : Proc σ A Q R ρ → (ρ → Proc σ A Q R ρ) → Proc σ A Q R ρ
  | .done r, f => f r
  | .act a k, f => .act a (bind k f)
  | .look k, f => .look (fun s => bind (k s) f)
  | .call q k, f => .call q (fun r => bind (k r) f)
  | .fork size stop lane task join, f => .fork size stop lane task (fun rs => bind (join rs) f)

theorem traces_done {r r' : ρ} {t : List (Label σ A Q R)}
    (h : Traces (.done r) t r') : t = [] ∧ r' = r := by
  cases h with
  | refl => exact ⟨rfl, rfl⟩
  | head hs _ => cases hs

theorem run_act {a : A} {k p : Proc σ A Q R ρ} {t : List (Label σ A Q R)} (h : Run (.act a k) t p) :
    t = [] ∨ ∃ u, t = .did a :: u ∧ Run k u p := by
  cases h with
  | refl => exact .inl rfl
  | head hs hr =>
    cases hs
    exact .inr ⟨_, rfl, hr⟩

theorem run_done {r : ρ} {p : Proc σ A Q R ρ} {t : List (Label σ A Q R)} (h : Run (.done r) t p) :
    t = [] := by
  cases h with
  | refl => rfl
  | head hs _ => cases hs

theorem traces_act {a : A} {k : Proc σ A Q R ρ} {t : List (Label σ A Q R)} {r : ρ}
    (h : Traces (.act a k) t r) : ∃ u, t = .did a :: u ∧ Traces k u r := by
  cases h with
  | head hs hr => cases hs; exact ⟨_, rfl, hr⟩

theorem traces_look {k : σ → Proc σ A Q R ρ} {t : List (Label σ A Q R)} {r : ρ}
    (h : Traces (.look k) t r) : ∃ s u, t = .saw s :: u ∧ Traces (k s) u r := by
  cases h with
  | head hs hr => cases hs; exact ⟨_, _, rfl, hr⟩

theorem traces_call {q : Q} {k : R → Proc σ A Q R ρ} {t : List (Label σ A Q R)} {r : ρ}
    (h : Traces (.call q k) t r) : ∃ v u, t = .heard q v :: u ∧ Traces (k v) u r := by
  cases h with
  | head hs hr => cases hs; exact ⟨_, _, rfl, hr⟩

theorem step_bind {p q : Proc σ A Q R ρ} {f : ρ → Proc σ A Q R ρ} {ls : List (Label σ A Q R)}
    (h : Step (p.bind f) ls q) :
    (∃ r, p = .done r) ∨ ∃ p', Step p ls p' ∧ q = p'.bind f := by
  cases p with
  | done r => exact .inl ⟨r, rfl⟩
  | act a k => cases h; exact .inr ⟨_, .act a k, rfl⟩
  | look k => cases h with | look s => exact .inr ⟨_, .look s k, rfl⟩
  | call c k => cases h with | call _ r => exact .inr ⟨_, .call c r k, rfl⟩
  | fork size stop lane task join =>
    cases h with
    | task i hi hl hs => exact .inr ⟨_, .task i hi hl hs, rfl⟩
    | settle i r hi hl hd => exact .inr ⟨_, .settle i r hi hl hd, rfl⟩
    | join hn => exact .inr ⟨_, .join hn, rfl⟩

theorem traces_bind {p : Proc σ A Q R ρ} {f : ρ → Proc σ A Q R ρ}
    {t : List (Label σ A Q R)} {r : ρ} (h : Traces (p.bind f) t r) :
    ∃ t₁ r₁ t₂, Traces p t₁ r₁ ∧ Traces (f r₁) t₂ r ∧ t = t₁ ++ t₂ := by
  unfold Traces at h
  generalize hp : p.bind f = start at h
  generalize he : (Proc.done r : Proc σ A Q R ρ) = stop at h
  induction h generalizing p with
  | refl q =>
    cases p with
    | done r₁ =>
      have hf : f r₁ = .done r := hp.trans he.symm
      exact ⟨[], r₁, [], .refl _, hf ▸ .refl _, rfl⟩
    | _ => subst he; simp [bind] at hp
  | @head q q' e ls u hs hr ih =>
    subst hp
    rcases step_bind hs with ⟨r₁, rfl⟩ | ⟨p', hp', rfl⟩
    · subst he
      exact ⟨[], r₁, ls ++ u, .refl _, .head hs hr, rfl⟩
    · obtain ⟨t₁, r₁, t₂, h₁, h₂, rfl⟩ := ih rfl he
      exact ⟨ls ++ t₁, r₁, t₂, .head hp' h₁, h₂, by simp⟩

end Proc

end Process
