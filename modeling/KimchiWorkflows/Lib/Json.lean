import Mathlib.Data.List.Basic
import Mathlib.Tactic.SplitIfs

/-!
JSON texts: how a value is written, and how a text is read back. Strings are lists of characters, and
numbers are kept as they are written.
-/

namespace Json

abbrev Text := List Char

def isBlank (c : Char) : Bool := c = ' ' || c = '\t' || c = '\n' || c = '\r'

def isNumberChar (c : Char) : Bool := c.isDigit || c = '-' || c = '+' || c = '.' || c = 'e' || c = 'E'

def dropSign : Text → Text
  | '-' :: rest => rest
  | text => text

def isWhole (digits : Text) : Bool := digits ≠ [] && (digits = ['0'] || digits.head? ≠ some '0')

def isExponent : Text → Bool
  | [] => true
  | mark :: rest =>
    let digits := match rest with
      | '+' :: digits => digits
      | '-' :: digits => digits
      | digits => digits
    (mark = 'e' || mark = 'E') && digits ≠ [] && digits.all Char.isDigit

/-- An optional minus, digits without a leading zero, an optional fraction and an optional exponent. -/
def isNumeral (text : Text) : Bool :=
  let unsigned := dropSign text
  let rest := unsigned.dropWhile Char.isDigit
  text.all isNumberChar && isWhole (unsigned.takeWhile Char.isDigit) &&
    match rest with
    | '.' :: fraction => fraction.takeWhile Char.isDigit ≠ [] && isExponent (fraction.dropWhile Char.isDigit)
    | rest => isExponent rest

structure Numeral where
  text : Text
  valid : isNumeral text = true

inductive Value where
  | null
  | bool (b : Bool)
  | number (literal : Numeral)
  | string (s : Text)
  | array (items : List Value)
  | object (members : List (Text × Value))

def hexDigit (n : Nat) : Char := if n < 10 then Char.ofNat (48 + n) else Char.ofNat (87 + n)

/-- A quote, a backslash and the control characters are written as escapes. -/
def escape (c : Char) : Text :=
  if c = '"' then ['\\', '"']
  else if c = '\\' then ['\\', '\\']
  else if c = '\x08' then ['\\', 'b']
  else if c = '\x0c' then ['\\', 'f']
  else if c = '\n' then ['\\', 'n']
  else if c = '\r' then ['\\', 'r']
  else if c = '\t' then ['\\', 't']
  else if c.toNat < 32 then ['\\', 'u', '0', '0', hexDigit (c.toNat / 16), hexDigit (c.toNat % 16)]
  else [c]

def writeString (s : Text) : Text := s.flatMap escape ++ ['"']

mutual

def write : Value → Text
  | .null => ['n', 'u', 'l', 'l']
  | .bool true => ['t', 'r', 'u', 'e']
  | .bool false => ['f', 'a', 'l', 's', 'e']
  | .number literal => literal.text
  | .string s => '"' :: writeString s
  | .array items => '[' :: writeItems items
  | .object members => '{' :: writeMembers members

def writeItems : List Value → Text
  | [] => [']']
  | item :: rest => write item ++ writeMoreItems rest

def writeMoreItems : List Value → Text
  | [] => [']']
  | item :: rest => ',' :: (write item ++ writeMoreItems rest)

def writeMembers : List (Text × Value) → Text
  | [] => ['}']
  | (name, value) :: rest => '"' :: (writeString name ++ ':' :: (write value ++ writeMoreMembers rest))

def writeMoreMembers : List (Text × Value) → Text
  | [] => ['}']
  | (name, value) :: rest => ',' :: '"' :: (writeString name ++ ':' :: (write value ++ writeMoreMembers rest))

end

def skipBlank (text : Text) : Text := text.dropWhile isBlank

def hexValue (c : Char) : Option Nat :=
  if c.isDigit then some (c.toNat - 48)
  else if 'a' ≤ c ∧ c ≤ 'f' then some (c.toNat - 87)
  else if 'A' ≤ c ∧ c ≤ 'F' then some (c.toNat - 55)
  else none

/-- A code unit that is no character by itself is read as the replacement character. -/
def readUnit (a b c d : Char) : Option Char := do
  let n := ((← hexValue a) * 16 + (← hexValue b)) * 256 + ((← hexValue c) * 16 + (← hexValue d))
  return if n.isValidChar then Char.ofNat n else '\ufffd'

def unescape (c : Char) : Option Char :=
  if c = '"' then some '"'
  else if c = '\\' then some '\\'
  else if c = '/' then some '/'
  else if c = 'b' then some '\x08'
  else if c = 'f' then some '\x0c'
  else if c = 'n' then some '\n'
  else if c = 'r' then some '\r'
  else if c = 't' then some '\t'
  else none

/-- A string after its opening quote, and the text after its closing one. -/
def readString : Text → Option (Text × Text)
  | [] => none
  | '"' :: rest => some ([], rest)
  | '\\' :: 'u' :: a :: b :: c :: d :: rest =>
    (readUnit a b c d).bind (fun unit => (readString rest).map (fun (s, after) => (unit :: s, after)))
  | '\\' :: mark :: rest =>
    (unescape mark).bind (fun c => (readString rest).map (fun (s, after) => (c :: s, after)))
  | c :: rest =>
    if c.toNat < 32 || c = '\\' then none
    else (readString rest).map (fun (s, after) => (c :: s, after))

def readNumber (text : Text) : Option (Value × Text) :=
  if h : isNumeral (text.takeWhile isNumberChar) = true then
    some (.number ⟨_, h⟩, text.dropWhile isNumberChar)
  else none

def readWord (word : Text) (value : Value) (text : Text) : Option (Value × Text) :=
  if text.take word.length = word then some (value, text.drop word.length) else none

mutual

def readValue : Nat → Text → Option (Value × Text)
  | 0, _ => none
  | fuel + 1, text =>
    match skipBlank text with
    | [] => none
    | c :: rest =>
      if c = '"' then (readString rest).map (fun (s, after) => (.string s, after))
      else if c = '[' then (readItems fuel rest).map (fun (items, after) => (.array items, after))
      else if c = '{' then (readMembers fuel rest).map (fun (members, after) => (.object members, after))
      else if c = 'n' then readWord ['u', 'l', 'l'] .null rest
      else if c = 't' then readWord ['r', 'u', 'e'] (.bool true) rest
      else if c = 'f' then readWord ['a', 'l', 's', 'e'] (.bool false) rest
      else readNumber (c :: rest)

def readItems : Nat → Text → Option (List Value × Text)
  | 0, _ => none
  | fuel + 1, text =>
    match skipBlank text with
    | ']' :: after => some ([], after)
    | _ => do
      let (item, rest) ← readValue fuel text
      let (items, after) ← readMoreItems fuel rest
      return (item :: items, after)

def readMoreItems : Nat → Text → Option (List Value × Text)
  | 0, _ => none
  | fuel + 1, text =>
    match skipBlank text with
    | ']' :: after => some ([], after)
    | ',' :: next => do
      let (item, rest) ← readValue fuel next
      let (items, after) ← readMoreItems fuel rest
      return (item :: items, after)
    | _ => none

def readMembers : Nat → Text → Option (List (Text × Value) × Text)
  | 0, _ => none
  | fuel + 1, text =>
    match skipBlank text with
    | '}' :: after => some ([], after)
    | _ => do
      let (member, rest) ← readMember fuel text
      let (members, after) ← readMoreMembers fuel rest
      return (member :: members, after)

def readMember : Nat → Text → Option ((Text × Value) × Text)
  | 0, _ => none
  | fuel + 1, text =>
    match skipBlank text with
    | '"' :: opened => do
      let (name, rest) ← readString opened
      match skipBlank rest with
      | ':' :: next => do
        let (value, after) ← readValue fuel next
        return ((name, value), after)
      | _ => none
    | _ => none

def readMoreMembers : Nat → Text → Option (List (Text × Value) × Text)
  | 0, _ => none
  | fuel + 1, text =>
    match skipBlank text with
    | '}' :: after => some ([], after)
    | ',' :: next => do
      let (member, rest) ← readMember fuel next
      let (members, after) ← readMoreMembers fuel rest
      return (member :: members, after)
    | _ => none

end

def read (text : Text) : Option Value :=
  (readValue (text.length + 1) text).bind (fun (value, after) =>
    if skipBlank after = [] then some value else none)

end Json
