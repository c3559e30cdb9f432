import KimchiWorkflows.Flow.Value

namespace KimchiWorkflows.Flow

section Storage

-- what the writer makes of values that no JSON text stands for: functions, class instances
variable (f : Value → Value)

mutual

/-- Undefined survives where it stands for an absent member: as the whole value of an event's field. -/
def Value.stored : Value → Value
  | .nonFinite => .null
  | .array items => .array (storedItems items)
  | .object fields => .object (storedFields fields)
  | .classInstance => f .classInstance
  | .foreign typeOf => f (.foreign typeOf)
  | value => value

def storedItems : List Value → List Value
  | [] => []
  | item :: rest =>
    (if item.stored.isUndefined then .null else item.stored) :: storedItems rest

def storedFields : Record → Record
  | [] => []
  | (name, value) :: rest =>
    if value.stored.isUndefined then storedFields rest else (name, value.stored) :: storedFields rest

end

end Storage

mutual

def Value.isData : Value → Bool
  | .nonFinite => false
  | .classInstance => false
  | .foreign _ => false
  | .array items => areData items
  | .object fields => fieldsAreData fields
  | _ => true

def areData : List Value → Bool
  | [] => true
  | item :: rest => item.isData && areData rest

def fieldsAreData : Record → Bool
  | [] => true
  | (_, value) :: rest => value.isData && fieldsAreData rest

end

mutual

/-- No element and no member of the value, at any depth, is undefined. -/
def Value.isWhole : Value → Bool
  | .array items => areWhole items
  | .object fields => fieldsAreWhole fields
  | _ => true

def areWhole : List Value → Bool
  | [] => true
  | item :: rest => !item.isUndefined && (item.isWhole && areWhole rest)

def fieldsAreWhole : Record → Bool
  | [] => true
  | (_, value) :: rest => !value.isUndefined && (value.isWhole && fieldsAreWhole rest)

end

variable {f : Value → Value}

theorem isUndefined_stored {value : Value} (h : value.isData = true) :
    (value.stored f).isUndefined = value.isUndefined := by
  cases value with
  | nonFinite => cases h
  | classInstance => cases h
  | foreign typeOf => cases h
  | array items => rw [Value.stored]; rfl
  | object fields => rw [Value.stored]; rfl
  | _ => rw [Value.stored] <;> simp

theorem length_storedFields (fields : Record) : (storedFields f fields).length ≤ fields.length := by
  induction fields with
  | nil => exact Nat.le_of_eq (by rw [storedFields])
  | cons field rest ih =>
    obtain ⟨name, value⟩ := field
    rw [storedFields]
    split
    · exact Nat.le_succ_of_le ih
    · exact Nat.succ_le_succ ih

mutual

theorem stored_eq_iff (value : Value) (h : value.isData = true) :
    value.stored f = value ↔ value.isWhole = true := by
  cases value with
  | nonFinite => cases h
  | classInstance => cases h
  | foreign typeOf => cases h
  | array items =>
    rw [Value.stored, Value.isWhole, Value.array.injEq]
    exact storedItems_eq_iff items h
  | object fields =>
    rw [Value.stored, Value.isWhole, Value.object.injEq]
    exact storedFields_eq_iff fields h
  | _ => rw [Value.stored] <;> simp [Value.isWhole]

theorem storedItems_eq_iff (items : List Value) (h : areData items = true) :
    storedItems f items = items ↔ areWhole items = true := by
  cases items with
  | nil => rw [storedItems, areWhole]; simp
  | cons item rest =>
    obtain ⟨hitem, hrest⟩ := (Bool.and_eq_true _ _).mp h
    rw [storedItems, areWhole, List.cons.injEq, storedItems_eq_iff rest hrest, isUndefined_stored hitem,
      Bool.and_eq_true, Bool.and_eq_true, ← stored_eq_iff item hitem]
    cases hu : item.isUndefined with
    | false => simp
    | true =>
      cases item with
      | undefined => simp
      | _ => cases hu

theorem storedFields_eq_iff (fields : Record) (h : fieldsAreData fields = true) :
    storedFields f fields = fields ↔ fieldsAreWhole fields = true := by
  cases fields with
  | nil => rw [storedFields, fieldsAreWhole]; simp
  | cons field rest =>
    obtain ⟨name, value⟩ := field
    obtain ⟨hvalue, hrest⟩ := (Bool.and_eq_true _ _).mp h
    rw [storedFields, fieldsAreWhole, isUndefined_stored hvalue]
    cases hu : value.isUndefined with
    | false =>
      simp only [Bool.false_eq_true, if_false, Bool.not_false, Bool.true_and, List.cons.injEq, Prod.mk.injEq,
        true_and, Bool.and_eq_true, storedFields_eq_iff rest hrest, stored_eq_iff value hvalue]
    | true =>
      have hshort := length_storedFields (f := f) rest
      simp only [if_true, Bool.not_true, Bool.false_and, Bool.false_eq_true, iff_false]
      intro he
      rw [he] at hshort
      exact absurd hshort (Nat.not_succ_le_self _)

end

end KimchiWorkflows.Flow
