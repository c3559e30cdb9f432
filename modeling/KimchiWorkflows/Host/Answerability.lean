import KimchiWorkflows.Host.AnswerAssembly

namespace KimchiWorkflows.Host

open KimchiWorkflows.Flow KimchiWorkflows.Engine

/-- What the validator documents of the keywords used here, for records without undefined members. -/
structure Lawful (validator : Validator) : Prop where
  string : ∀ a accepts v, validator.check (.string a accepts) v = true ↔ ∃ s, v = .string s ∧ accepts s = true
  number : ∀ a accepts v, validator.check (.number a accepts) v = true → ∃ n, v = .number n
  integer : ∀ a accepts v, validator.check (.integer a accepts) v = true → ∃ n, v = .number n
  boolean : ∀ a v, validator.check (.boolean a) v = true → ∃ b, v = .bool b
  literal : ∀ a c v, validator.check (.literal a c) v = true ↔ v = c.value
  union : ∀ a members v, validator.check (.union a members) v = true ↔ ∃ m ∈ members, v = m.const.value
  enum : ∀ a values v, validator.check (.enum a values) v = true ↔ ∃ c ∈ values, v = c.value
  array : ∀ a items least most unique v, validator.check (.array a items least most unique) v = true ↔
    ∃ vs, v = .array vs ∧ least ≤ vs.length ∧ (∀ n, most = some n → vs.length ≤ n) ∧
      (unique = true → vs.Nodup) ∧ ∀ w ∈ vs, validator.check items w = true
  object : ∀ a properties closed fields, (∀ f ∈ fields, f.2 ≠ Value.undefined) →
    (validator.check (.object a properties closed) (.object fields) = true ↔
      (∀ p ∈ properties, match Dict.get fields p.name with
        | some v => validator.check p.field v = true
        | none => p.isOptional = true) ∧
      (closed = true → ∀ f ∈ fields, f.1 ∈ properties.map Property.name))
  notObject : ∀ a properties closed v, validator.check (.object a properties closed) v = true →
    ∃ fields, v = .object fields

inductive Answer where
  | text (s : String)
  | chosen (values : List String)

def Answer.value : Answer → Value
  | .text s => .string s
  | .chosen values => .array (values.map .string)

def AdmitsText : TSchema → String → Prop
  | .string _ accepts, s => accepts s = true
  | .literal _ c, s => c = .string s
  | .union _ members, s => ∃ m ∈ members, m.const = .string s
  | .enum _ values, s => .string s ∈ values
  | _, _ => False

def Admits : TSchema → Answer → Prop
  | field, .text s => AdmitsText field s
  | .array _ items least most unique, .chosen values => least ≤ values.length ∧
      (∀ n, most = some n → values.length ≤ n) ∧ (unique = true → values.Nodup) ∧ ∀ s ∈ values, AdmitsText items s
  | _, .chosen _ => False

/-- The texts of the options a field is asked with, if it has any. -/
def optionTexts : TSchema → Option (List String)
  | .union _ members => if members.isEmpty then none else some (members.map (fun m => m.const.text))
  | .enum _ values => some (values.map Literal.text)
  | _ => none

def choiceTexts : TSchema → Option (List String)
  | .array _ items _ _ _ => optionTexts items
  | _ => none

/-- The answers the question of a field can be given: an option or, where it is allowed, another text; some
of the options of an array; or any text. -/
def Gives (field : TSchema) : Answer → Prop
  | .text s =>
    match optionTexts field, choiceTexts field with
    | some texts, _ => (s ∈ texts ∧ s ≠ otherValue) ∨ (s = "" ∧ otherValue ∈ texts) ∨
        field.annotations.allowOther = true
    | none, some _ => False
    | none, none => True
  | .chosen values =>
    match optionTexts field, choiceTexts field with
    | none, some texts => values.Subperm texts
    | _, _ => False

/-- A field that is asked for, with the key of its question; it is lost where the result cannot hold it. -/
structure AskedField where
  key : String
  schema : TSchema
  lost : Bool

def isLost (name : String) : Bool := decide (name = "__proto__")

def fieldsOf (property : Property) : List AskedField :=
  if isObjectSchema property.field then
    (objectProperties property.field).map (fun sub =>
      ⟨property.name ++ "." ++ sub.name, sub.field, isLost property.name || isLost sub.name⟩)
  else [⟨property.name, property.field, isLost property.name⟩]

def askedFields (outputSchema : TSchema) : List AskedField := (objectProperties outputSchema).flatMap fieldsOf

/-- The answer to the last question under the key of a field satisfies every field asked under that key. -/
def KeyAnswerable (fields : List AskedField) (key : String) : Prop :=
  ∃ answer, (∀ field, Dict.last (fields.map (fun f => (f.key, f.schema))) key = some field → Gives field answer) ∧
    ∀ f ∈ fields, f.key = key → f.lost = true ∨ Admits f.schema answer

/-- Every question can be answered, the answers fit the fields, and what the result cannot hold is optional. -/
def Fillable (outputSchema : TSchema) : Prop :=
  isObjectSchema outputSchema = true ∧
  (∀ p ∈ objectProperties outputSchema, p.name = "__proto__" → p.isOptional = true) ∧
  (∀ p ∈ objectProperties outputSchema, p.name ≠ "__proto__" →
    ∀ sub ∈ objectProperties p.field, sub.name = "__proto__" → sub.isOptional = true) ∧
  ∀ f ∈ askedFields outputSchema, (∃ answer, Gives f.schema answer) ∧ KeyAnswerable (askedFields outputSchema) f.key

end KimchiWorkflows.Host
