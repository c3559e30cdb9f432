import Mathlib.Data.List.Basic
import KimchiWorkflows.Engine.NodePath
import KimchiWorkflows.Flow.Commit

/-!
Paths as the log spells them: what is formatted is read back as it was.
-/

namespace KimchiWorkflows.Engine

open KimchiWorkflows.Flow

def parseIndexed (kind : IndexKind) (separator : Char) (raw : String) (name index : List Char) :
    Except String PathSegment :=
  let label := "parsePath: \"" ++ raw ++ "\" has "
  let spelled := "\"" ++ String.ofList [separator] ++ "\""
  if name = [] then .error (label ++ "an empty name before " ++ spelled)
  else if separator ∈ index then .error (label ++ "more than one " ++ spelled ++ " in one segment")
  else if index = [] ∨ !index.all Char.isDigit then
    .error (label ++ "a non-integer index \"" ++ String.ofList index ++ "\"")
  else .ok { name := String.ofList name, index := some (kind, Nat.ofDigitChars 10 index 0) }

def parseSegment (raw : String) (token : List Char) : Except String PathSegment :=
  if token = [] then .error ("parsePath: \"" ++ raw ++ "\" has an empty segment")
  else
    match token.idxOf? '#', token.idxOf? '@' with
    | none, none => .ok { name := String.ofList token }
    | some _, some _ => .error ("parsePath: \"" ++ raw ++ "\" segment mixes \"#\" and \"@\"")
    | some hash, none => parseIndexed .loop '#' raw (token.take hash) (token.drop (hash + 1))
    | none, some at_ => parseIndexed .foreach '@' raw (token.take at_) (token.drop (at_ + 1))

def parsePath (raw : String) : Except String NodePath :=
  if raw = "" then .error ("parsePath: expected a non-empty path string, got \"\" (a log written before node-path " ++
    "addressing landed cannot be read by this build)")
  else (raw.toList.splitOn '/').mapM (parseSegment raw)

def formatKey (path : NodePath) : String := formatPath (staticKeyOf path)

/-- At least one segment, and every name one that the log can spell. -/
def Spellable (path : NodePath) : Prop := path ≠ [] ∧ ∀ segment ∈ path, isValidNodeName segment.name = true

variable {path other : NodePath} {segment : PathSegment} {name : String} {raw : String}

theorem isValidNodeName_iff : isValidNodeName name = true ↔
    name.toList ≠ [] ∧ '/' ∉ name.toList ∧ '#' ∉ name.toList ∧ '@' ∉ name.toList := by
  rw [isValidNodeName, Bool.and_eq_true, decide_eq_true_iff, Bool.not_eq_true', List.any_eq_false]
  constructor
  · rintro ⟨hne, hall⟩
    refine ⟨by simpa using hne, ?_, ?_, ?_⟩ <;> exact fun hm => absurd (hall _ hm) (by simp)
  · rintro ⟨hne, hslash, hhash, hat⟩
    refine ⟨by simpa using hne, ?_⟩
    intro c hc
    simp only [Bool.or_eq_true, decide_eq_true_eq, not_or]
    refine ⟨⟨?_, ?_⟩, ?_⟩ <;> rintro rfl
    · exact hslash hc
    · exact hhash hc
    · exact hat hc

def kindChar : IndexKind → Char
  | .loop => '#'
  | .foreach => '@'

theorem toList_formatSegment (segment : PathSegment) : (formatSegment segment).toList =
    match segment.index with
    | none => segment.name.toList
    | some (kind, index) => segment.name.toList ++ kindChar kind :: Nat.toDigits 10 index := by
  unfold formatSegment
  split <;> rename_i hindex <;> simp [hindex, kindChar, toString]

theorem not_mem_toDigits {c : Char} (hc : c.isDigit = false) (n : Nat) : c ∉ Nat.toDigits 10 n := by
  intro hm
  rw [Nat.isDigit_of_mem_toDigits (by omega) (by omega) hm] at hc
  cases hc

theorem slash_not_mem (h : isValidNodeName segment.name = true) : '/' ∉ (formatSegment segment).toList := by
  obtain ⟨-, hslash, -, -⟩ := isValidNodeName_iff.mp h
  rw [toList_formatSegment]
  split
  · exact hslash
  · rename_i kind index _
    have hdigits := not_mem_toDigits (c := '/') rfl index
    cases kind <;> simp [hslash, hdigits, kindChar]

theorem parseIndexed_format (kind : IndexKind) (h : isValidNodeName name = true) (index : Nat) :
    parseIndexed kind (kindChar kind) raw name.toList (Nat.toDigits 10 index) =
      .ok { name := name, index := some (kind, index) } := by
  obtain ⟨hne, -⟩ := isValidNodeName_iff.mp h
  have hseparator : kindChar kind ∉ Nat.toDigits 10 index := by
    cases kind <;> exact not_mem_toDigits rfl index
  have hdigits : ¬(Nat.toDigits 10 index = [] ∨ (!(Nat.toDigits 10 index).all Char.isDigit) = true) := by
    simp only [Nat.toDigits_ne_nil, false_or, Bool.not_eq_true', Bool.not_eq_false]
    exact List.all_eq_true.mpr (fun c hc => Nat.isDigit_of_mem_toDigits (by omega) (by omega) hc)
  simp only [parseIndexed, if_neg hne, if_neg hseparator, if_neg hdigits, Nat.ofDigitChars_ten_toDigits,
    String.ofList_toList]

theorem idxOf?_append_cons {l r : List Char} {c : Char} (h : c ∉ l) : (l ++ c :: r).idxOf? c = some l.length := by
  induction l with
  | nil => simp [List.idxOf?_cons]
  | cons d rest ih =>
    obtain ⟨hd, hrest⟩ := not_or.mp (fun hm => h (List.mem_cons.mpr hm))
    rw [List.cons_append, List.idxOf?_cons, ih hrest]
    simp [Ne.symm hd]

theorem parseSegment_format (h : isValidNodeName segment.name = true) :
    parseSegment raw (formatSegment segment).toList = .ok segment := by
  obtain ⟨name, index⟩ := segment
  dsimp only at h
  obtain ⟨hne, -, hhash, hat⟩ := isValidNodeName_iff.mp h
  rw [toList_formatSegment]
  cases index with
  | none =>
    simp only [parseSegment, if_neg hne, List.idxOf?_eq_none_iff.mpr hhash, List.idxOf?_eq_none_iff.mpr hat,
      String.ofList_toList]
  | some entry =>
    obtain ⟨kind, index⟩ := entry
    have htoken : name.toList ++ kindChar kind :: Nat.toDigits 10 index ≠ [] := by simp
    have htake : (name.toList ++ kindChar kind :: Nat.toDigits 10 index).take name.toList.length = name.toList :=
      List.take_left
    have hdrop : (name.toList ++ kindChar kind :: Nat.toDigits 10 index).drop (name.toList.length + 1) =
        Nat.toDigits 10 index := by
      rw [← List.drop_drop, List.drop_left, List.drop_one, List.tail_cons]
    simp only [parseSegment, if_neg htoken]
    cases kind with
    | loop =>
      have hother : '@' ∉ name.toList ++ kindChar .loop :: Nat.toDigits 10 index := by
        simp [hat, not_mem_toDigits (c := '@') rfl index, kindChar]
      have hown : (name.toList ++ kindChar .loop :: Nat.toDigits 10 index).idxOf? '#' = some name.toList.length :=
        idxOf?_append_cons hhash
      rw [hown, List.idxOf?_eq_none_iff.mpr hother]
      dsimp only
      rw [htake, hdrop]
      exact parseIndexed_format .loop h index
    | «foreach» =>
      have hother : '#' ∉ name.toList ++ kindChar .foreach :: Nat.toDigits 10 index := by
        simp [hhash, not_mem_toDigits (c := '#') rfl index, kindChar]
      have hown : (name.toList ++ kindChar .foreach :: Nat.toDigits 10 index).idxOf? '@' = some name.toList.length :=
        idxOf?_append_cons hat
      rw [hown, List.idxOf?_eq_none_iff.mpr hother]
      dsimp only
      rw [htake, hdrop]
      exact parseIndexed_format .foreach h index

theorem mapM_ok {α β : Type} {f : α → Except String β} {g : β → α} {l : List β} (h : ∀ b ∈ l, f (g b) = .ok b) :
    (l.map g).mapM f = .ok l := by
  induction l with
  | nil => rfl
  | cons b rest ih =>
    rw [List.map_cons, List.mapM_cons, h b List.mem_cons_self, ih (fun c hc => h c (List.mem_cons_of_mem _ hc))]
    rfl

theorem toList_formatPath (path : NodePath) :
    (formatPath path).toList = ['/'].intercalate (path.map (fun segment => (formatSegment segment).toList)) := by
  rw [formatPath, String.toList_intercalate, List.map_map]
  rfl

theorem formatPath_ne_empty (h : Spellable path) : formatPath path ≠ "" := by
  obtain ⟨hne, hvalid⟩ := h
  intro hempty
  have hlist := congrArg String.toList hempty
  rw [toList_formatPath] at hlist
  obtain ⟨segment, rest, rfl⟩ := List.exists_cons_of_ne_nil hne
  obtain ⟨hname, -⟩ := isValidNodeName_iff.mp (hvalid segment List.mem_cons_self)
  have hsegment : (formatSegment segment).toList ≠ [] := by
    rw [toList_formatSegment]
    split <;> simp [hname]
  cases rest with
  | nil => exact hsegment (by simpa using hlist)
  | cons next rest => simp [List.intercalate] at hlist

theorem parsePath_formatPath (h : Spellable path) : parsePath (formatPath path) = .ok path := by
  obtain ⟨hne, hvalid⟩ := h
  have hsplit : (formatPath path).toList.splitOn '/' = path.map (fun segment => (formatSegment segment).toList) := by
    rw [toList_formatPath]
    refine List.splitOn_intercalate '/' ?_ (by simpa using hne)
    intro token ht
    obtain ⟨segment, hs, rfl⟩ := List.mem_map.mp ht
    exact slash_not_mem (hvalid segment hs)
  rw [parsePath, if_neg (formatPath_ne_empty ⟨hne, hvalid⟩), hsplit]
  exact mapM_ok (fun segment hs => parseSegment_format (hvalid segment hs))

theorem name_staticSegmentOf (segment : PathSegment) : (staticSegmentOf segment).name = segment.name := by
  unfold staticSegmentOf
  split <;> rfl

theorem Spellable.static (h : Spellable path) : Spellable (staticKeyOf path) := by
  refine ⟨by simpa [staticKeyOf, staticPathOf] using h.1, ?_⟩
  intro segment hs
  obtain ⟨original, ho, rfl⟩ := List.mem_map.mp hs
  rw [name_staticSegmentOf]
  exact h.2 original ho

theorem formatKey_parsePath (h : Spellable path) : (parsePath (formatKey path)).map formatKey = .ok (formatKey path) := by
  rw [formatKey, parsePath_formatPath h.static, Except.map, formatKey]
  congr 2
  exact staticPathOf_idem path

theorem formatKey_inj (h : Spellable path) (h' : Spellable other) :
    formatKey path = formatKey other ↔ staticKeyOf path = staticKeyOf other := by
  constructor
  · intro he
    have hparsed := congrArg parsePath he
    rw [formatKey, formatKey, parsePath_formatPath h.static, parsePath_formatPath h'.static] at hparsed
    exact Except.ok.inj hparsed
  · intro he
    rw [formatKey, formatKey, he]

end KimchiWorkflows.Engine
