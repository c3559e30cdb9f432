import KimchiWorkflows.Lib.Dict
import Mathlib.Data.Rat.Defs

/-!
The values a workflow passes around. They are trees: a value that contains itself is not represented.
-/

namespace KimchiWorkflows.Flow

inductive Value where
  | undefined
  | null
  | bool (b : Bool)
  | number (n : Rat)
  | nonFinite
  | string (s : String)
  | array (items : List Value)
  | object (fields : List (String × Value))
  | classInstance
  | foreign (typeOf : String)

instance : Inhabited Value := ⟨.undefined⟩

def Value.isUndefined : Value → Bool
  | .undefined => true
  | _ => false

abbrev Record := List (String × Value)

/-- Assignment to a member of a plain object: the name of the prototype accessor creates no member. -/
def assign (record : Record) (name : String) (value : Value) : Record :=
  if name = "__proto__" then record else Dict.set record name value

def lookup (record : Record) (name : String) : Value := (Dict.get record name).getD .undefined

theorem get_assign (record : Record) (name other : String) (value : Value) :
    Dict.get (assign record name value) other =
      if other = name ∧ name ≠ "__proto__" then some value else Dict.get record other := by
  by_cases hp : name = "__proto__"
  · simp [assign, hp]
  · by_cases h : other = name <;> simp [assign, hp, Dict.get_set, h]

mutual

/-- The first place where writing the value as JSON would change or lose it. -/
def violationAt : Value → String → Option String
  | .null, _ => none
  | .string _, _ => none
  | .bool _, _ => none
  | .number _, _ => none
  | .nonFinite, path => some (path ++ " is not a finite number")
  | .undefined, path => some (path ++ " has unsupported type undefined")
  | .foreign typeOf, path => some (path ++ " has unsupported type " ++ typeOf)
  | .classInstance, path => some (path ++ " is not a plain object")
  | .array items, path => itemViolation items path 0
  | .object fields, path => fieldViolation fields path

def itemViolation : List Value → String → Nat → Option String
  | [], _, _ => none
  | item :: rest, path, index =>
    (violationAt item (path ++ "[" ++ toString index ++ "]")).orElse
      (fun _ => itemViolation rest path (index + 1))

def fieldViolation : List (String × Value) → String → Option String
  | [], _ => none
  | (key, child) :: rest, path =>
    (violationAt child (path ++ "." ++ key)).orElse (fun _ => fieldViolation rest path)

end

def jsonValueViolation (value : Value) : Option String := violationAt value "request"

mutual

def Value.same : Value → Value → Bool
  | .undefined, .undefined => true
  | .null, .null => true
  | .bool b, .bool c => b == c
  | .number n, .number m => n == m
  | .nonFinite, .nonFinite => true
  | .string s, .string t => s == t
  | .array items, .array others => sameItems items others
  | .object fields, .object others => sameFields fields others
  | .classInstance, .classInstance => true
  | .foreign t, .foreign u => t == u
  | _, _ => false

def sameItems : List Value → List Value → Bool
  | [], [] => true
  | v :: items, w :: others => v.same w && sameItems items others
  | _, _ => false

def sameFields : List (String × Value) → List (String × Value) → Bool
  | [], [] => true
  | (k, v) :: fields, (l, w) :: others => k == l && (v.same w && sameFields fields others)
  | _, _ => false

end

mutual

theorem Value.same_iff (v w : Value) : v.same w = true ↔ v = w := by
  cases v with
  | array items => cases w <;> simp [Value.same, sameItems_iff items]
  | object fields => cases w <;> simp [Value.same, sameFields_iff fields]
  | _ => cases w <;> simp [Value.same]

theorem sameItems_iff (items others : List Value) : sameItems items others = true ↔ items = others := by
  cases items with
  | nil => cases others <;> simp [sameItems]
  | cons v items => cases others <;> simp [sameItems, Value.same_iff v, sameItems_iff items]

theorem sameFields_iff (fields others : List (String × Value)) : sameFields fields others = true ↔ fields = others := by
  cases fields with
  | nil => cases others <;> simp [sameFields]
  | cons f fields =>
    obtain ⟨k, v⟩ := f
    cases others with
    | nil => simp [sameFields]
    | cons g others =>
      obtain ⟨l, w⟩ := g
      simp [sameFields, Value.same_iff v, sameFields_iff fields, and_assoc]

end

instance : DecidableEq Value := fun v w => decidable_of_iff _ (Value.same_iff v w)

end KimchiWorkflows.Flow
