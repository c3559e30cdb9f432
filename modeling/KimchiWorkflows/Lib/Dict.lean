import Mathlib.Data.List.Basic

namespace Dict

variable {κ ν : Type} [DecidableEq κ]

def get : List (κ × ν) → κ → Option ν
  | [], _ => none
  | (k, v) :: rest, key => if k = key then some v else get rest key

def has (d : List (κ × ν)) (key : κ) : Bool := (get d key).isSome

/-- Overwriting a key keeps its place; a new key goes to the end. -/
def set : List (κ × ν) → κ → ν → List (κ × ν)
  | [], key, value => [(key, value)]
  | (k, v) :: rest, key, value =>
    if k = key then (k, value) :: rest else (k, v) :: set rest key value

@[simp] theorem get_nil (key : κ) : get ([] : List (κ × ν)) key = none := rfl

theorem get_set (d : List (κ × ν)) (key other : κ) (value : ν) :
    get (set d key value) other = if other = key then some value else get d other := by
  induction d with
  | nil => by_cases h : key = other <;> simp [set, get, h, eq_comm]
  | cons entry rest ih =>
    obtain ⟨k, v⟩ := entry
    by_cases hk : k = key
    · subst hk
      by_cases ho : k = other
      · simp [set, get, ho]
      · simp [set, get, ho, Ne.symm ho]
    · by_cases ho : k = other
      · subst ho; simp [set, get, hk]
      · simp [set, get, hk, ho, ih]

@[simp] theorem get_set_self (d : List (κ × ν)) (key : κ) (value : ν) :
    get (set d key value) key = some value := by simp [get_set]

theorem get_set_of_ne {key other : κ} (h : other ≠ key) (d : List (κ × ν)) (value : ν) :
    get (set d key value) other = get d other := by simp [get_set, h]

def restrict (keep : κ → Bool) (d : List (κ × ν)) : List (κ × ν) := d.filter (fun entry => keep entry.1)

theorem get_restrict (keep : κ → Bool) (d : List (κ × ν)) (key : κ) :
    get (restrict keep d) key = if keep key then get d key else none := by
  induction d with
  | nil => simp [restrict]
  | cons entry rest ih =>
    obtain ⟨k, v⟩ := entry
    rw [restrict] at ih ⊢
    by_cases hk : k = key
    · subst hk
      cases hkeep : keep k <;> simp [hkeep, get, ih]
    · cases hkeep : keep k <;> simp [hkeep, get, hk, ih]

theorem mem_of_get {d : List (κ × ν)} {key : κ} {value : ν} (h : get d key = some value) :
    (key, value) ∈ d := by
  induction d with
  | nil => simp at h
  | cons entry rest ih =>
    obtain ⟨k, v⟩ := entry
    by_cases hk : k = key
    · simp [get, hk] at h; simp [hk, h]
    · simp [get, hk] at h; exact List.mem_cons_of_mem _ (ih h)

theorem keys_set (d : List (κ × ν)) (key : κ) (value : ν) :
    (set d key value).map Prod.fst =
      if key ∈ d.map Prod.fst then d.map Prod.fst else d.map Prod.fst ++ [key] := by
  induction d with
  | nil => simp [set]
  | cons entry rest ih =>
    obtain ⟨k, v⟩ := entry
    by_cases hk : k = key
    · simp [set, hk]
    · by_cases hm : key ∈ rest.map Prod.fst
      · simp only [hm, if_true] at ih
        simp [set, hk, ih, hm]
      · simp only [hm, if_false] at ih
        simp [set, hk, ih, hm, Ne.symm hk]

theorem mem_set {d : List (κ × ν)} {key : κ} {value : ν} {entry : κ × ν} (h : entry ∈ set d key value) :
    entry = (key, value) ∨ entry ∈ d := by
  induction d with
  | nil => simpa [set] using h
  | cons head rest ih =>
    obtain ⟨k, v⟩ := head
    by_cases hk : k = key
    · simp only [set, hk, if_true, List.mem_cons] at h
      obtain rfl | h := h
      · exact .inl rfl
      · exact .inr (List.mem_cons_of_mem _ h)
    · simp only [set, hk, if_false, List.mem_cons] at h
      obtain rfl | h := h
      · exact .inr (by simp)
      · obtain rfl | h := ih h
        · exact .inl rfl
        · exact .inr (List.mem_cons_of_mem _ h)

theorem nodup_set {d : List (κ × ν)} (h : (d.map Prod.fst).Nodup) (key : κ) (value : ν) :
    ((set d key value).map Prod.fst).Nodup := by
  rw [keys_set]
  split_ifs with hm
  · exact h
  · refine List.nodup_append.mpr ⟨h, by simp, ?_⟩
    intro a ha b hb
    rw [List.mem_singleton.mp hb]
    rintro rfl
    exact hm ha

theorem get_of_mem {d : List (κ × ν)} (hd : (d.map Prod.fst).Nodup) {key : κ} {value : ν}
    (h : (key, value) ∈ d) : get d key = some value := by
  induction d with
  | nil => simp at h
  | cons entry rest ih =>
    obtain ⟨k, v⟩ := entry
    obtain ⟨hn, hr⟩ := List.nodup_cons.mp hd
    rcases List.mem_cons.mp h with he | hm
    · obtain ⟨rfl, rfl⟩ := Prod.mk.inj he
      simp [get]
    · have hne : k ≠ key := by
        intro he
        exact hn (List.mem_map.mpr ⟨_, hm, he.symm⟩)
      simpa [get, hne] using ih hr hm

def last : List (κ × ν) → κ → Option ν
  | [], _ => none
  | (k, v) :: rest, key => (last rest key).or (if k = key then some v else none)

theorem mem_of_last {d : List (κ × ν)} {key : κ} {value : ν} (h : last d key = some value) : (key, value) ∈ d := by
  induction d with
  | nil => simp [last] at h
  | cons entry rest ih =>
    obtain ⟨k, v⟩ := entry
    simp only [last, Option.or_eq_some_iff] at h
    obtain h | ⟨_, h⟩ := h
    · exact List.mem_cons_of_mem _ (ih h)
    · by_cases hk : k = key
      · simp only [hk, if_true, Option.some.injEq] at h
        simp [hk, h]
      · simp [hk] at h

theorem last_isSome_of_mem {d : List (κ × ν)} {key : κ} {value : ν} (h : (key, value) ∈ d) :
    ∃ w, last d key = some w := by
  induction d with
  | nil => simp at h
  | cons entry rest ih =>
    obtain ⟨k, v⟩ := entry
    obtain h | h := List.mem_cons.mp h
    · obtain ⟨rfl, rfl⟩ := Prod.mk.inj h
      cases hr : last rest key <;> simp [last, hr]
    · obtain ⟨w, hw⟩ := ih h
      exact ⟨w, by simp [last, hw]⟩

theorem last_map {α β : Type} (f : α → β) (key : α → κ) (value : α → ν) (g : ν → β) (l : List α) (k : κ)
    (h : ∀ a ∈ l, key a = k → f a = g (value a)) :
    last (l.map (fun a => (key a, f a))) k = (last (l.map (fun a => (key a, value a))) k).map g := by
  induction l with
  | nil => simp [last]
  | cons a rest ih =>
    have ih := ih (fun b hb => h b (List.mem_cons_of_mem _ hb))
    by_cases hk : key a = k
    · simp [last, ih, hk, h a (by simp) hk]
    · simp [last, ih, hk]

theorem get_foldl_set {α : Type} (key : α → κ) (value : α → ν) (l : List α) (d : List (κ × ν)) (k : κ) :
    get (l.foldl (fun d a => set d (key a) (value a)) d) k =
      (last (l.map (fun a => (key a, value a))) k).or (get d k) := by
  induction l generalizing d with
  | nil => simp [last]
  | cons a rest ih =>
    rw [List.foldl_cons, ih, get_set]
    by_cases hk : key a = k
    · simp [last, hk]
    · simp [last, hk, Ne.symm hk]

theorem get_map {ω : Type} (f : ν → ω) (d : List (κ × ν)) (key : κ) :
    get (d.map (fun entry => (entry.1, f entry.2))) key = (get d key).map f := by
  induction d with
  | nil => rfl
  | cons entry rest ih =>
    obtain ⟨k, v⟩ := entry
    by_cases hk : k = key
    · simp [get, hk]
    · simp [get, hk, ih]

theorem set_map {ω : Type} (f : ν → ω) (d : List (κ × ν)) (key : κ) (value : ν) :
    set (d.map (fun entry => (entry.1, f entry.2))) key (f value) =
      (set d key value).map (fun entry => (entry.1, f entry.2)) := by
  induction d with
  | nil => rfl
  | cons entry rest ih =>
    obtain ⟨k, v⟩ := entry
    by_cases hk : k = key
    · simp [set, hk]
    · simp [set, hk, ih]

end Dict
