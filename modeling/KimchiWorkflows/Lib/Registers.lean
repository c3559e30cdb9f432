import Mathlib.Data.List.Basic

/-!
A machine that learns from events: what it is told last of a register, and what it puts out on the way.
-/

namespace Registers

variable {E S V O : Type}

def lastSaid (said : E → Option V) (log : List E) : Option V := (log.filterMap said).getLast?

theorem lastSaid_append (said : E → Option V) (first second : List E) :
    lastSaid said (first ++ second) = (lastSaid said second).or (lastSaid said first) := by
  simp [lastSaid, List.filterMap_append, List.getLast?_append]

theorem lastSaid_singleton (said : E → Option V) (event : E) : lastSaid said [event] = said event := by
  cases h : said event with
  | none => simp [lastSaid, h]
  | some value => simp [lastSaid, h]

theorem said_earlier {said : E → Option V} {first log : List E} (h : first <+: log)
    (hfirst : (lastSaid said first).isSome) : (lastSaid said log).isSome := by
  obtain ⟨rest, rfl⟩ := h
  rw [lastSaid_append]
  cases hrest : lastSaid said rest with
  | none => exact hfirst
  | some value => rfl

theorem told_of_lastSaid {said : E → Option V} {log : List E} {value : V} (h : lastSaid said log = some value) :
    ∃ event ∈ log, said event = some value :=
  List.mem_filterMap.mp (List.mem_of_getLast? h)

theorem silent_iff {said : E → Option V} {log : List E} :
    lastSaid said log = none ↔ ∀ event ∈ log, said event = none := by
  simp [lastSaid]

variable {next : S → E → S} {out : S → E → O}

theorem read_foldl (read : S → V) {said : E → Option V}
    (h : ∀ s event, read (next s event) = (said event).getD (read s)) (s : S) (log : List E) :
    read (log.foldl next s) = (lastSaid said log).getD (read s) := by
  induction log generalizing s with
  | nil => rfl
  | cons event rest ih =>
    rw [List.foldl_cons, ih, h, ← List.singleton_append, lastSaid_append, lastSaid_singleton]
    cases lastSaid said rest <;> rfl

theorem kept_foldl (read : S → Option V) {said : E → Option V}
    (h : ∀ s event, read (next s event) = (read s).or (said event)) (s : S) (log : List E) :
    read (log.foldl next s) = (read s).or (log.findSome? said) := by
  induction log generalizing s with
  | nil => simp
  | cons event rest ih =>
    rw [List.foldl_cons, ih, h, Option.or_assoc, List.findSome?_cons]
    cases said event <;> simp

/-- Told again what it was once told, a register reads the same unless the later telling is what shows. -/
theorem told_again_iff {W : Type} (read : V → W) (later again earlier : Option V) (start : V) :
    read (later.getD (again.getD (earlier.getD start))) = read (later.getD (earlier.getD start)) ↔
      (later = none → ∀ said, again = some said → read said = read (earlier.getD start)) := by
  cases later with
  | some said => simp
  | none => cases again <;> simp

def outputs (next : S → E → S) (out : S → E → O) : S → List E → List O
  | _, [] => []
  | s, event :: rest => out s event :: outputs next out (next s event) rest

theorem outputs_eq_iff {s s' : S} {log : List E} : outputs next out s log = outputs next out s' log ↔
    ∀ before event, before ++ [event] <+: log →
      out (before.foldl next s) event = out (before.foldl next s') event := by
  induction log generalizing s s' with
  | nil => simp [outputs]
  | cons head rest ih =>
    rw [outputs, outputs, List.cons.injEq, ih]
    constructor
    · rintro ⟨hhead, hrest⟩ before event hprefix
      cases before with
      | nil =>
        obtain ⟨rfl, -⟩ := List.cons_prefix_cons.mp hprefix
        exact hhead
      | cons first before =>
        obtain ⟨rfl, hbefore⟩ := List.cons_prefix_cons.mp hprefix
        exact hrest before event hbefore
    · intro h
      refine ⟨h [] head ⟨rest, rfl⟩, ?_⟩
      intro before event hprefix
      exact h (head :: before) event (List.cons_prefix_cons.mpr ⟨rfl, hprefix⟩)

end Registers
