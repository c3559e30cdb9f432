import KimchiWorkflows.Lib.Scheduling

/-!
Two processes that do the same and ask the same under other names, as long as their replies are fair.
-/

namespace Process

/-- How the queries of a process are renamed; which of them are answered alike under both names, which replies
are fair, and what an unfair one leads to, by actions that are always free. -/
structure Mirroring (A Q R : Type) where
  rename : Q → Q
  alike : Q → Prop
  fair : Q → R → Prop
  tells : Q → A → Prop
  free : A → Prop

namespace Proc

variable {σ A Q R ρ : Type} {M : Mirroring A Q R}

/-- The process performs free actions, one that a query tells among them. -/
inductive Tells (M : Mirroring A Q R) (q : Q) : Proc σ A Q R ρ → Prop where
  | now {a : A} (k : Proc σ A Q R ρ) : M.tells q a → M.free a → Tells M q (.act a k)
  | later {a : A} {k : Proc σ A Q R ρ} : M.free a → Tells M q k → Tells M q (.act a k)

inductive Mirrors (M : Mirroring A Q R) : Proc σ A Q R ρ → Proc σ A Q R ρ → Prop where
  | done (r : ρ) : Mirrors M (.done r) (.done r)
  | act (a : A) {k k' : Proc σ A Q R ρ} : Mirrors M k k' → Mirrors M (.act a k) (.act a k')
  | look {k k' : σ → Proc σ A Q R ρ} : (∀ s, Mirrors M (k s) (k' s)) → Mirrors M (.look k) (.look k')
  | call {q : Q} {k k' : R → Proc σ A Q R ρ} : M.alike q → (∀ r, M.fair q r → Mirrors M (k r) (k' r)) →
      (∀ r, ¬ M.fair q r → Tells M q (k r)) → Mirrors M (.call q k) (.call (M.rename q) k')
  | fork {size : Nat} {stop : ρ → Bool} {lane : Nat → Lane ρ} {task task' : Nat → Proc σ A Q R ρ}
      {join join' : List (Option ρ) → Proc σ A Q R ρ} : (∀ i, Mirrors M (task i) (task' i)) →
      (∀ rs, Mirrors M (join rs) (join' rs)) → Mirrors M (.fork size stop lane task join) (.fork size stop lane task' join')

def renamed (M : Mirroring A Q R) : Label σ A Q R → Label σ A Q R
  | .heard q r => .heard (M.rename q) r
  | label => label

/-- Every reply that is heard is fair, to a query answered alike under both names. -/
def Fair (M : Mirroring A Q R) (t : List (Label σ A Q R)) : Prop :=
  ∀ q r, Label.heard q r ∈ t → M.fair q r

def Alike (M : Mirroring A Q R) (t : List (Label σ A Q R)) : Prop :=
  ∀ q r, Label.heard q r ∈ t → M.alike q

theorem Tells.bind {q : Q} {p : Proc σ A Q R ρ} (h : Tells M q p) (f : ρ → Proc σ A Q R ρ) :
    Tells M q (p.bind f) := by
  induction h with
  | now k ha hf => exact .now _ ha hf
  | later hf _ ih => exact .later hf ih

theorem mirrors_bind {p p' : Proc σ A Q R ρ} {f f' : ρ → Proc σ A Q R ρ} (h : Mirrors M p p')
    (hf : ∀ r, Mirrors M (f r) (f' r)) : Mirrors M (p.bind f) (p'.bind f') := by
  induction h with
  | done r => exact hf r
  | act a _ ih => exact .act a ih
  | look _ ih => exact .look ih
  | call ha _ ht ih => exact .call ha ih (fun r hr => (ht r hr).bind f)
  | fork ht _ _ ihj => exact .fork ht ihj

theorem Mirrors.done_iff {p p' : Proc σ A Q R ρ} (h : Mirrors M p p') (r : ρ) : p = .done r ↔ p' = .done r := by
  cases h <;> simp

theorem mirrors_step {p p' m : Proc σ A Q R ρ} {ls : List (Label σ A Q R)} (h : Mirrors M p p') (hs : Step p ls m)
    (hf : Fair M ls) : ∃ m', Step p' (ls.map (renamed M)) m' ∧ Mirrors M m m' := by
  induction hs generalizing p' with
  | act a k =>
    cases h with
    | act _ hk => exact ⟨_, .act a _, hk⟩
  | look s k =>
    cases h with
    | look hk => exact ⟨_, .look s _, hk s⟩
  | call q r k =>
    cases h with
    | call _ hk _ => exact ⟨_, .call _ r _, hk r (hf q r List.mem_cons_self)⟩
  | @task size stop lane task join ls m i hi hl hs ih =>
    cases h with
    | @fork _ _ _ _ task' _ join' ht hj =>
      obtain ⟨m', hs', hm⟩ := ih (ht i) hf
      refine ⟨_, .task i hi hl hs', .fork ?_ hj⟩
      intro j
      by_cases hji : j = i
      · subst hji
        simpa using hm
      · rw [Function.update_of_ne hji, Function.update_of_ne hji]
        exact ht j
  | settle i r hi hl hd =>
    cases h with
    | fork ht hj => exact ⟨_, .settle i r hi hl ((ht i).done_iff r |>.mp hd), .fork ht hj⟩
  | join hn =>
    cases h with
    | fork ht hj => exact ⟨_, .join hn, hj _⟩

/-- Whatever the second process does, the first does under the old names. -/
theorem mirrors_step_back {p p' m' : Proc σ A Q R ρ} {ls' : List (Label σ A Q R)} (h : Mirrors M p p')
    (hs : Step p' ls' m') : ∃ ls m, ls.map (renamed M) = ls' ∧ Step p ls m ∧ Alike M ls ∧ (Fair M ls → Mirrors M m m') := by
  induction h generalizing ls' m' with
  | done r => cases hs
  | act a hk _ =>
    cases hs
    exact ⟨[.did a], _, rfl, .act a _, by simp [Alike], fun _ => hk⟩
  | look hk _ =>
    cases hs with
    | look s => exact ⟨[.saw s], _, rfl, .look s _, by simp [Alike], fun _ => hk s⟩
  | @call q k k' ha hk ht _ =>
    cases hs with
    | call _ r =>
      refine ⟨[.heard q r], _, rfl, .call q r k, ?_, fun hf => hk r (hf q r List.mem_cons_self)⟩
      intro other reply hm
      cases List.mem_singleton.mp hm
      exact ha
  | @fork size stop lane task task' join join' ht hj iht _ =>
    cases hs with
    | @task _ _ _ _ _ _ m' i hi hl hs =>
      obtain ⟨ls, m, hls, hs', halike, hm⟩ := iht i hs
      refine ⟨ls, _, hls, .task i hi hl hs', halike, ?_⟩
      intro hf
      refine .fork ?_ hj
      intro j
      by_cases hji : j = i
      · subst hji
        simpa using hm hf
      · rw [Function.update_of_ne hji, Function.update_of_ne hji]
        exact ht j
    | settle i r hi hl hd =>
      exact ⟨[], _, rfl, .settle i r hi hl ((ht i).done_iff r |>.mpr hd), by simp [Alike], fun _ => .fork ht hj⟩
    | join hn => exact ⟨[], _, rfl, .join hn, by simp [Alike], fun _ => hj _⟩

theorem alike_of_step {p p' m : Proc σ A Q R ρ} {ls : List (Label σ A Q R)} (h : Mirrors M p p')
    (hs : Step p ls m) : Alike M ls := by
  induction hs generalizing p' with
  | call q r k =>
    cases h with
    | call ha _ _ =>
      intro other reply hm
      cases List.mem_singleton.mp hm
      exact ha
  | task i hi hl hs ih =>
    cases h with
    | fork ht _ => exact ih (ht i)
  | _ => simp [Alike]

theorem alike_append {t u : List (Label σ A Q R)} (ht : Alike M t) (hu : Alike M u) : Alike M (t ++ u) := by
  intro q r hm
  obtain hm | hm := List.mem_append.mp hm
  · exact ht q r hm
  · exact hu q r hm

theorem mirrors_run {p p' m : Proc σ A Q R ρ} {t : List (Label σ A Q R)} (h : Mirrors M p p') (hr : Run p t m)
    (hf : Fair M t) : ∃ m', Run p' (t.map (renamed M)) m' ∧ Alike M t ∧ Mirrors M m m' := by
  induction hr generalizing p' with
  | refl p => exact ⟨p', .refl _, by simp [Alike], h⟩
  | @head p q m ls t hs _ ih =>
    obtain ⟨q', hs', hq⟩ := mirrors_step h hs (fun c r hm => hf c r (List.mem_append_left _ hm))
    obtain ⟨m', hr', halike, hm⟩ := ih hq (fun c r hm => hf c r (List.mem_append_right _ hm))
    refine ⟨m', ?_, alike_append (alike_of_step h hs) halike, hm⟩
    rw [List.map_append]
    exact .head hs' hr'

/-- Runs of the second process, where every run of the first that is answered hears fair replies only. -/
theorem mirrors_run_back (answered : List (Label σ A Q R) → Prop) {p p' m' : Proc σ A Q R ρ}
    {t' : List (Label σ A Q R)} (h : Mirrors M p p') (hr : Run p' t' m')
    (ha : ∀ t m, Run p t m → t.map (renamed M) <+: t' → Alike M t → answered t)
    (hsafe : ∀ t m, Run p t m → answered t → Fair M t) :
    ∃ t m, t.map (renamed M) = t' ∧ Run p t m ∧ Alike M t ∧ Mirrors M m m' := by
  induction hr generalizing p answered with
  | refl p' => exact ⟨[], p, rfl, .refl _, by simp [Alike], h⟩
  | @head p' q' m' ls' t' hs' _ ih =>
    obtain ⟨ls, q, hls, hs, halike, hq⟩ := mirrors_step_back h hs'
    subst hls
    have hrun : Run p ls q := by
      rw [← List.append_nil ls]
      exact .head hs (.refl _)
    have hfair := hsafe ls q hrun (ha ls q hrun (List.prefix_append _ _) halike)
    obtain ⟨t, m, ht, hr, halike', hm⟩ := ih (fun u => answered (ls ++ u)) (hq hfair)
      (by
        intro u n hu hprefix hualike
        refine ha (ls ++ u) n (.head hs hu) ?_ (alike_append halike hualike)
        rw [List.map_append]
        exact (List.prefix_append_right_inj _).mpr hprefix)
      (by
        intro u n hu hanswered c r hm
        exact hsafe (ls ++ u) n (.head hs hu) hanswered c r (List.mem_append_right _ hm))
    refine ⟨ls ++ t, m, ?_, .head hs hr, alike_append halike halike', hm⟩
    rw [List.map_append, ht]

theorem run_trans {p q r : Proc σ A Q R ρ} {t u : List (Label σ A Q R)} (h : Run p t q) (h' : Run q u r) :
    Run p (t ++ u) r := by
  induction h with
  | refl p => exact h'
  | head hs _ ih =>
    rw [List.append_assoc]
    exact .head hs (ih h')

theorem run_lane {size : Nat} {stop : ρ → Bool} {lane : Nat → Lane ρ} {task : Nat → Proc σ A Q R ρ}
    {join : List (Option ρ) → Proc σ A Q R ρ} {p n : Proc σ A Q R ρ} {t : List (Label σ A Q R)} {i : Nat}
    (hi : i < size) (hl : (lane i).isRunning = true) (hr : Run p t n) :
    Run (.fork size stop lane (Function.update task i p) join) t
      (.fork size stop lane (Function.update task i n) join) := by
  induction hr with
  | refl p => exact .refl _
  | @head p q n ls t hs _ ih =>
    refine .head (.task i hi hl (by rwa [Function.update_self])) ?_
    rwa [Function.update_idem]

theorem Tells.run {q : Q} {p : Proc σ A Q R ρ} (h : Tells M q p) : ∃ (actions : List A) (n : Proc σ A Q R ρ),
    Run p (actions.map Label.did) n ∧ (∀ a ∈ actions, M.free a) ∧ ∃ a ∈ actions, M.tells q a := by
  induction h with
  | @now a k ha hfree => exact ⟨[a], k, .head (.act a k) (.refl _), by simpa using hfree, a, List.mem_cons_self, ha⟩
  | @later a k hfree _ ih =>
    obtain ⟨actions, n, hrun, hall, b, hb, htells⟩ := ih
    refine ⟨a :: actions, n, .head (.act a k) hrun, ?_, b, List.mem_cons_of_mem _ hb, htells⟩
    simpa using ⟨hfree, hall⟩

/-- Having heard an unfair reply, the first process can go on to what the query tells. -/
theorem tells_of_step {p p' m : Proc σ A Q R ρ} {q : Q} {r : R} (h : Mirrors M p p') (hs : Step p [.heard q r] m)
    (hr : ¬ M.fair q r) : M.alike q ∧ ∃ (actions : List A) (n : Proc σ A Q R ρ),
      Run m (actions.map Label.did) n ∧ (∀ a ∈ actions, M.free a) ∧ ∃ a ∈ actions, M.tells q a := by
  generalize hls : [Label.heard q r] = ls at hs
  induction hs generalizing p' with
  | act a k => cases hls
  | look s k => cases hls
  | call q r k =>
    cases hls
    cases h with
    | call ha _ ht => exact ⟨ha, (ht r hr).run⟩
  | @task size stop lane task join ls m i hi hl hs ih =>
    cases h with
    | fork ht hj =>
      obtain ⟨halike, actions, n, hrun, htold⟩ := ih (ht i) hls
      exact ⟨halike, actions, _, run_lane hi hl hrun, htold⟩
  | settle i r hi hl hd => cases hls
  | join hn => cases hls

theorem labels_of_heard {p m : Proc σ A Q R ρ} {ls : List (Label σ A Q R)} {q : Q} {r : R} (hs : Step p ls m)
    (hm : Label.heard q r ∈ ls) : ls = [.heard q r] := by
  induction hs with
  | act a k => simp at hm
  | look s k => simp at hm
  | call q' r' k => rw [List.mem_singleton.mp hm]
  | task i hi hl hs ih => exact ih hm
  | settle i r hi hl hd => cases hm
  | join hn => cases hm

theorem first_unfair {p m : Proc σ A Q R ρ} {t : List (Label σ A Q R)} (hr : Run p t m) (hf : ¬ Fair M t) :
    ∃ t₁ q r m₁ m₂, t₁ ++ [.heard q r] <+: t ∧ Run p t₁ m₁ ∧ Fair M t₁ ∧ Step m₁ [.heard q r] m₂ ∧
      ¬ M.fair q r := by
  induction hr with
  | refl p => exact absurd (by simp [Fair]) hf
  | @head p q m ls t hs hr ih =>
    by_cases hls : Fair M ls
    · obtain ⟨t₁, c, r, m₁, m₂, hprefix, hrun, hfair, hstep, hunfair⟩ := ih (by
        intro ht
        apply hf
        intro c r hm
        obtain hm | hm := List.mem_append.mp hm
        · exact hls c r hm
        · exact ht c r hm)
      refine ⟨ls ++ t₁, c, r, m₁, m₂, ?_, .head hs hrun, ?_, hstep, hunfair⟩
      · rw [List.append_assoc]
        exact (List.prefix_append_right_inj _).mpr hprefix
      · intro c r hm
        obtain hm | hm := List.mem_append.mp hm
        · exact hls c r hm
        · exact hfair c r hm
    · obtain ⟨c, r, hm, hunfair⟩ : ∃ c r, Label.heard c r ∈ ls ∧ ¬ M.fair c r := by
        simpa [Fair] using hls
      obtain rfl := labels_of_heard hs hm
      exact ⟨[], c, r, p, q, List.prefix_append _ _, .refl _, by simp [Fair], hs, hunfair⟩

section Replays

open Scheduling

variable {W : World σ A Q R} {s s' : σ} {t : List (Label σ A Q R)}

theorem replay_renamed (ha : ∀ q r, M.alike q → W.admits (M.rename q) r = W.admits q r) (hr : Replay W s t s')
    (h : Alike M t) : Replay W s (t.map (renamed M)) s' := by
  induction hr with
  | nil s => exact .nil s
  | did he _ ih => exact .did he (ih (fun q r hm => h q r (List.mem_cons_of_mem _ hm)))
  | saw _ ih => exact .saw (ih (fun q r hm => h q r (List.mem_cons_of_mem _ hm)))
  | @heard q r _ _ _ hq _ ih =>
    refine .heard ?_ (ih (fun q r hm => h q r (List.mem_cons_of_mem _ hm)))
    rwa [ha q r (h q r List.mem_cons_self)]
  | outside ho _ ih => exact .outside ho (ih h)

theorem replay_of_renamed (ha : ∀ q r, M.alike q → W.admits (M.rename q) r = W.admits q r)
    (hr : Replay W s (t.map (renamed M)) s') (h : Alike M t) : Replay W s t s' := by
  generalize hu : t.map (renamed M) = u at hr
  induction hr generalizing t with
  | nil s =>
    rw [List.map_eq_nil_iff.mp hu]
    exact .nil s
  | outside ho _ ih => exact .outside ho (ih h hu)
  | did he _ ih =>
    obtain ⟨label, rest, rfl, hlabel, rfl⟩ := List.map_eq_cons_iff.mp hu
    cases label <;> cases hlabel
    exact .did he (ih (fun q r hm => h q r (List.mem_cons_of_mem _ hm)) rfl)
  | saw _ ih =>
    obtain ⟨label, rest, rfl, hlabel, rfl⟩ := List.map_eq_cons_iff.mp hu
    cases label <;> cases hlabel
    exact .saw (ih (fun q r hm => h q r (List.mem_cons_of_mem _ hm)) rfl)
  | heard hq _ ih =>
    obtain ⟨label, rest, rfl, hlabel, rfl⟩ := List.map_eq_cons_iff.mp hu
    cases label with
    | heard q r =>
      simp only [renamed, Label.heard.injEq] at hlabel
      obtain ⟨rfl, rfl⟩ := hlabel
      refine .heard ?_ (ih (fun q r hm => h q r (List.mem_cons_of_mem _ hm)) rfl)
      rwa [ha q r (h q r List.mem_cons_self)] at hq
    | _ => cases hlabel

theorem replay_free (hfree : ∀ a, M.free a → ∀ s, W.enabled a s = true) {actions : List A}
    (h : ∀ a ∈ actions, M.free a) (s : σ) : ∃ s', Replay W s (actions.map Label.did) s' := by
  induction actions generalizing s with
  | nil => exact ⟨s, .nil s⟩
  | cons a rest ih =>
    obtain ⟨s', hs'⟩ := ih (fun b hb => h b (List.mem_cons_of_mem _ hb)) (W.apply a s)
    exact ⟨s', .did (hfree a (h a List.mem_cons_self) s) hs'⟩

end Replays

end Proc

end Process
