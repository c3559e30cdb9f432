import KimchiWorkflows.Flow.Definitions

/-!
The questions a target schema is asked by, and how their answers are put back into its shape. The
validator that checks the result is not part of the repository.
-/

namespace KimchiWorkflows.Flow

/-- A constant of a schema; of a number, also what `String` prints for it. -/
inductive Literal where
  | string (s : String)
  | number (n : Rat) (text : String)
  | bool (b : Bool)
  | null
  deriving DecidableEq

def Literal.text : Literal → String
  | .string s => s
  | .number _ text => text
  | .bool true => "true"
  | .bool false => "false"
  | .null => "null"

def Literal.value : Literal → Value
  | .string s => .string s
  | .number n _ => .number n
  | .bool b => .bool b
  | .null => .null

/-- The keywords of a schema that are only read to ask for it; of `default`, what `String` prints for it. -/
structure Annotations where
  title : Option String := none
  description : Option String := none
  defaultText : Option String := none
  allowOther : Bool := false
  chat : Bool := false

structure LiteralMember where
  const : Literal
  title : Option String := none
  description : Option String := none
  recommended : Bool := false

mutual

/-- A TypeBox schema, with its checks on strings and on numbers taken as they are. -/
inductive TSchema where
  | string (annotations : Annotations) (accepts : String → Bool)
  | number (annotations : Annotations) (accepts : Rat → Bool)
  | integer (annotations : Annotations) (accepts : Rat → Bool)
  | boolean (annotations : Annotations)
  | literal (annotations : Annotations) (const : Literal)
  | union (annotations : Annotations) (members : List LiteralMember)
  | enum (annotations : Annotations) (values : List Literal)
  | array (annotations : Annotations) (items : TSchema) (minItems : Nat) (maxItems : Option Nat)
      (uniqueItems : Bool)
  | object (annotations : Annotations) (properties : List Property) (closed : Bool)

inductive Property where
  | mk (name : String) (isOptional : Bool) (field : TSchema)

end

def Property.name : Property → String
  | .mk name _ _ => name

def Property.isOptional : Property → Bool
  | .mk _ isOptional _ => isOptional

def Property.field : Property → TSchema
  | .mk _ _ field => field

def TSchema.annotations : TSchema → Annotations
  | .string annotations _ => annotations
  | .number annotations _ => annotations
  | .integer annotations _ => annotations
  | .boolean annotations => annotations
  | .literal annotations _ => annotations
  | .union annotations _ => annotations
  | .enum annotations _ => annotations
  | .array annotations _ _ _ _ => annotations
  | .object annotations _ _ => annotations

def isObjectSchema : TSchema → Bool
  | .object _ _ _ => true
  | _ => false

def objectProperties : TSchema → List Property
  | .object _ properties _ => properties
  | _ => []

def isSpacing (c : Char) : Bool :=
  c ∈ ['\t', '\n', '\x0b', '\x0c', '\r', ' ', '\u00a0', '\u1680', '\u2028', '\u2029', '\u202f', '\u205f',
    '\u3000', '\ufeff'] || ('\u2000' ≤ c && c ≤ '\u200a')

def splitCamelCase : List Char → List Char
  | c :: d :: rest =>
    if (c.isLower || c.isDigit) && d.isUpper then c :: ' ' :: splitCamelCase (d :: rest)
    else c :: splitCamelCase (d :: rest)
  | short => short

def squeeze (test : Char → Bool) : List Char → List Char
  | [] => []
  | [c] => [if test c then ' ' else c]
  | c :: d :: rest =>
    if test c then if test d then squeeze test (d :: rest) else ' ' :: squeeze test (d :: rest)
    else c :: squeeze test (d :: rest)

def isWord (c : Char) : Bool := c.isAlphanum || c = '_'

def capitalize : Bool → List Char → List Char
  | _, [] => []
  | inWord, c :: rest => (if isWord c && !inWord then c.toUpper else c) :: capitalize (isWord c) rest

def trimSpacing (text : List Char) : List Char :=
  ((text.dropWhile isSpacing).reverse.dropWhile isSpacing).reverse

def humanize (key : String) : String :=
  String.ofList (capitalize false (trimSpacing (squeeze isSpacing
    (squeeze (fun c => c = '_' || c = '-') (splitCamelCase key.toList)))))

def optionFromConstMember (member : LiteralMember) : QuestionOption where
  value := member.const.text
  label := member.title.getD member.const.text
  description := member.description
  recommended := if member.recommended then some true else none

def literalOptions : TSchema → Option (List QuestionOption)
  | .union _ members => if members.isEmpty then none else some (members.map optionFromConstMember)
  | .enum _ values => some (values.map (fun value => { value := value.text, label := value.text }))
  | _ => none

def itemOptions : TSchema → Option (List QuestionOption)
  | .array _ items _ _ _ => literalOptions items
  | _ => none

def markDefault (options : List QuestionOption) : Option String → List QuestionOption
  | none => options
  | some target => options.map (fun option =>
      if option.value = target then { option with recommended := some true } else option)

def buildQuestion (key : String) (field : TSchema) (section_ : Option String) : Question :=
  let header := field.annotations.title.getD (humanize key)
  let question : Question :=
    { key := key
      header := header
      question := field.annotations.description.getD header
      kind := .text
      section_ := section_
      allowOther := if field.annotations.allowOther then some true else none }
  match literalOptions field, itemOptions field with
  | some options, _ =>
    { question with kind := .single, options := some (markDefault options field.annotations.defaultText) }
  | none, some options => { question with kind := .multi, options := some options }
  | none, none => if field.annotations.chat then { question with kind := .chat } else question

/-- A nested object is asked as a section; its fields are keyed by their path. -/
def questionsOf (property : Property) : List Question :=
  if isObjectSchema property.field then
    let label := property.field.annotations.title.getD (humanize property.name)
    (objectProperties property.field).map (fun sub =>
      { buildQuestion sub.name sub.field (some label) with key := property.name ++ "." ++ sub.name })
  else [buildQuestion property.name property.field none]

def questionnaireFromSchema (outputSchema : TSchema) : Questionnaire where
  title := outputSchema.annotations.title
  questions := (objectProperties outputSchema).flatMap questionsOf

/-- What `in` finds on a plain object that does not have the member itself. -/
def inheritedMember (key : String) : Option Value :=
  if key = "__proto__" then some (.object [])
  else if key ∈ ["constructor", "__defineGetter__", "__defineSetter__", "hasOwnProperty", "__lookupGetter__",
      "__lookupSetter__", "isPrototypeOf", "propertyIsEnumerable", "toString", "valueOf", "toLocaleString"]
    then some (.foreign "function")
  else none

def memberIn (record : Record) (key : String) : Option Value := (Dict.get record key).or (inheritedMember key)

def takeAnswer (answers : Record) (record : Record) (name key : String) : Record :=
  match memberIn answers key with
  | some value => assign record name value
  | none => record

def sectionOutput (answers : Record) (property : Property) : Record :=
  (objectProperties property.field).foldl (fun nested sub =>
    takeAnswer answers nested sub.name (property.name ++ "." ++ sub.name)) []

def answersToOutput (outputSchema : TSchema) (answers : Record) : Record :=
  (objectProperties outputSchema).foldl (fun result property =>
    if isObjectSchema property.field then assign result property.name (.object (sectionOutput answers property))
    else takeAnswer answers result property.name property.name) []

/-- The validator: whether a value satisfies a schema, and where it does not. -/
structure Validator where
  check : TSchema → Value → Bool
  errors : TSchema → Value → List (String × String)

def describeSchemaViolations (validator : Validator) (schema : TSchema) (value : Value) : Option String :=
  if validator.check schema value then none
  else match (validator.errors schema value).take 5 with
    | [] => some "value does not match the declared schema"
    | errors => some ("; ".intercalate (errors.map (fun error =>
        (if error.1 = "" then "<root>" else error.1) ++ ": " ++ error.2)))

def TSchema.schema (validator : Validator) (outputSchema : TSchema) : Schema where
  violations := describeSchemaViolations validator outputSchema
  questionnaire := questionnaireFromSchema outputSchema
  answersToOutput := fun answers => .object (answersToOutput outputSchema answers)

end KimchiWorkflows.Flow
