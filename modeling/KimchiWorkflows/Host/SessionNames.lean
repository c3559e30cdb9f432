import KimchiWorkflows.Host.SessionWords
import Mathlib.Data.List.Infix

namespace KimchiWorkflows.Host

open Words

variable {hashOf : List Char → Nat → List Char} {flatten : Char → Char} {max : Nat} {name name' : String}

def isHexDigit (c : Char) : Bool := c.isDigit || ('a' ≤ c && c ≤ 'f')

def HexHash (hashOf : List Char → Nat → List Char) : Prop :=
  ∀ raw, (hashOf raw nameHashLength).length = nameHashLength ∧ ∀ c ∈ hashOf raw nameHashLength, isHexDigit c = true

/-- A workflow name keeps its separators, a node path or a key has them replaced. -/
def sanitizeName (hashOf : List Char → Nat → List Char) (flatten : Char → Char) (max : Nat) (name : String) :
    List Char :=
  capWithHash hashOf (orHash hashOf (sanitizeSegment (name.toList.map flatten)) name.toList) name.toList max

theorem sanitizeWorkflowName_eq (name : String) :
    sanitizeWorkflowName hashOf name = sanitizeName hashOf id workflowNameMax name := by
  simp [sanitizeWorkflowName, sanitizeName]

theorem sanitizeNodePath_eq (name : String) :
    sanitizeNodePath hashOf name = sanitizeName hashOf flattenSeparator nodePathMax name := rfl

section Words

variable (hashOf : List Char → Nat → List Char) (flatten : Char → Char) (max : Nat) (name name' : String)

def shownWords : List (List Char) :=
  if nameWords (name.toList.map flatten) = [] then [hashOf name.toList nameHashLength]
  else nameWords (name.toList.map flatten)

def FitsFile : Prop := (['-'].intercalate (shownWords hashOf flatten name)).length ≤ max

instance : Decidable (FitsFile hashOf flatten max name) := inferInstanceAs (Decidable (_ ≤ _))

/-- The words of a name in a file name: all of them where they fit, else the first and a hash. -/
def fileWords : List (List Char) :=
  if FitsFile hashOf flatten max name then shownWords hashOf flatten name
  else (((['-'].intercalate (shownWords hashOf flatten name)).take max).rdropWhile (· = '-')).splitOn '-' ++
    [hashOf name.toList nameHashLength]

/-- Two names are written alike if they are the same, or both fit and have the same words. -/
def WrittenAlike : Prop :=
  name = name' ∨ FitsFile hashOf flatten max name ∧ FitsFile hashOf flatten max name' ∧
    shownWords hashOf flatten name = shownWords hashOf flatten name'

end Words

theorem orHash_eq : orHash hashOf (sanitizeSegment (name.toList.map flatten)) name.toList =
    ['-'].intercalate (shownWords hashOf flatten name) := by
  unfold orHash shownWords
  simp only [sanitizeSegment_eq_nil]
  split
  · simp
  · exact sanitizeSegment_eq _

theorem sanitizeName_eq : sanitizeName hashOf flatten max name =
    if FitsFile hashOf flatten max name then ['-'].intercalate (shownWords hashOf flatten name)
    else ((['-'].intercalate (shownWords hashOf flatten name)).take max).rdropWhile (· = '-') ++
      '-' :: hashOf name.toList nameHashLength := by
  rw [sanitizeName, orHash_eq]
  rfl

theorem HexHash.dash_notMem (h : HexHash hashOf) (raw : List Char) : '-' ∉ hashOf raw nameHashLength := by
  intro hm
  have := (h raw).2 _ hm
  simp [isHexDigit] at this

theorem splitOn_shownWords (h : HexHash hashOf) :
    (['-'].intercalate (shownWords hashOf flatten name)).splitOn '-' = shownWords hashOf flatten name := by
  unfold shownWords
  split
  · refine List.splitOn_intercalate _ ?_ (List.cons_ne_nil _ _)
    intro word hm
    obtain rfl := List.mem_singleton.mp hm
    exact h.dash_notMem _
  · rename_i hne
    exact List.splitOn_intercalate _ (fun word hm => dash_notMem hm) hne

theorem splitOn_sanitizeName (h : HexHash hashOf) :
    (sanitizeName hashOf flatten max name).splitOn '-' = fileWords hashOf flatten max name := by
  rw [sanitizeName_eq, fileWords]
  split
  · exact splitOn_shownWords h
  · rw [List.splitOn_append_cons_self, List.splitOn_eq_singleton (h.dash_notMem _)]

theorem fileWords_inj (h : HexHash hashOf) : fileWords hashOf flatten max name = fileWords hashOf flatten max name' ↔
    sanitizeName hashOf flatten max name = sanitizeName hashOf flatten max name' := by
  rw [← splitOn_sanitizeName h, ← splitOn_sanitizeName h, splitOn_inj]

theorem fileWords_ne_nil (h : HexHash hashOf) : fileWords hashOf flatten max name ≠ [] := by
  rw [← splitOn_sanitizeName h]
  exact List.splitOn_ne_nil _ _

theorem capped_length (h : HexHash hashOf) (hmax : nameHashLength ≤ max) (hn : ¬FitsFile hashOf flatten max name) :
    max < (sanitizeName hashOf flatten max name).length := by
  have hwords : nameWords (name.toList.map flatten) ≠ [] := by
    intro hnil
    apply hn
    rw [FitsFile, shownWords, if_pos hnil]
    simpa [(h name.toList).1] using hmax
  have hjoined : ['-'].intercalate (shownWords hashOf flatten name) = sanitizeSegment (name.toList.map flatten) := by
    rw [shownWords, if_neg hwords, sanitizeSegment_eq]
  have hspaced : Spaced '-' ((['-'].intercalate (shownWords hashOf flatten name)).take max) := by
    rw [hjoined]
    exact List.IsChain.prefix (spaced_sanitizeSegment _) (List.take_prefix _ _)
  have hlength := length_rdropWhile hspaced
  have htake : ((['-'].intercalate (shownWords hashOf flatten name)).take max).length = max := by
    rw [List.length_take]
    have := hn
    unfold FitsFile at this
    omega
  rw [sanitizeName_eq, if_neg hn, List.length_append, List.length_cons, (h name.toList).1]
  have : nameHashLength = 6 := rfl
  omega

theorem sanitizeName_eq_iff (h : HexHash hashOf) (hmax : nameHashLength ≤ max)
    (hinj : hashOf name.toList nameHashLength = hashOf name'.toList nameHashLength → name = name') :
    sanitizeName hashOf flatten max name = sanitizeName hashOf flatten max name' ↔
      WrittenAlike hashOf flatten max name name' := by
  unfold WrittenAlike
  constructor
  · intro he
    by_cases hf : FitsFile hashOf flatten max name
    · by_cases hf' : FitsFile hashOf flatten max name'
      · rw [sanitizeName_eq, sanitizeName_eq, if_pos hf, if_pos hf'] at he
        refine .inr ⟨hf, hf', ?_⟩
        rw [← splitOn_shownWords h, he, splitOn_shownWords h]
      · have hlong := capped_length h hmax hf'
        rw [← he, sanitizeName_eq, if_pos hf] at hlong
        exact absurd hf (Nat.not_le.mpr hlong)
    · by_cases hf' : FitsFile hashOf flatten max name'
      · have hlong := capped_length h hmax hf
        rw [he, sanitizeName_eq, if_pos hf'] at hlong
        exact absurd hf' (Nat.not_le.mpr hlong)
      · rw [sanitizeName_eq, sanitizeName_eq, if_neg hf, if_neg hf'] at he
        have htail := (List.append_inj' he (by simp [(h name.toList).1, (h name'.toList).1])).2
        exact .inl (hinj (List.cons.inj htail).2)
  · rintro (rfl | ⟨hf, hf', he⟩)
    · rfl
    · rw [sanitizeName_eq, sanitizeName_eq, if_pos hf, if_pos hf', he]

end KimchiWorkflows.Host
