import KimchiWorkflows.Host.Naming
import KimchiWorkflows.Lib.Words

namespace KimchiWorkflows.Host

open Words

variable {replaced : Char → Bool} {c : Char} {text rest raw raw' : List Char}

def isWordChar (c : Char) : Bool := isSegmentChar c && c ≠ '-'

/-- The words of a name: its lower-case runs of letters, digits, dots and underscores. -/
def nameWords (raw : List Char) : List (List Char) := wordsOf isWordChar (raw.flatMap toLowerCase)

theorem head_dashRuns : (dashRuns replaced text).head? =
    text.head?.map (fun c => if replaced c then '-' else c) := by
  induction text with
  | nil => rfl
  | cons c rest ih =>
    unfold dashRuns
    split
    · split
      · rename_i hc hr
        rw [ih]
        cases rest with
        | nil => simp at hr
        | cons d more => simp_all
      · simp_all
    · simp_all

theorem wordsOf_dashRuns :
    wordsOf (· ≠ '-') (dashRuns replaced text) = wordsOf (fun c => !replaced c && c ≠ '-') text := by
  induction text with
  | nil => rfl
  | cons c rest ih =>
    have hhead : (dashRuns replaced rest).head?.any (fun c => decide (c ≠ '-')) =
        rest.head?.any (fun c => !replaced c && c ≠ '-') := by
      rw [head_dashRuns]
      cases rest with
      | nil => rfl
      | cons d more => by_cases hd : replaced d = true <;> simp [hd]
    by_cases hc : replaced c = true
    · have hskip : wordsOf (fun c => !replaced c && c ≠ '-') (c :: rest) =
          wordsOf (fun c => !replaced c && c ≠ '-') rest := wordsOf_cons_of_neg (by simp [hc])
      rw [dashRuns, if_pos hc, hskip]
      split
      · exact ih
      · rw [wordsOf_cons_of_neg (by simp), ih]
    · rw [dashRuns, if_neg hc, wordsOf, wordsOf, hhead, ih]
      simp [hc]

theorem spaced_dashRuns : Spaced '-' (dashRuns (· = '-') text) := by
  induction text with
  | nil => exact List.isChain_nil
  | cons c rest ih =>
    unfold dashRuns
    split
    · split
      · exact ih
      · rename_i hc hr
        refine List.isChain_cons.mpr ⟨?_, ih⟩
        intro d hd
        rw [Option.mem_def, head_dashRuns, Option.map_eq_some_iff] at hd
        obtain ⟨e, he, rfl⟩ := hd
        simp_all
    · rename_i hc
      refine List.isChain_cons.mpr ⟨?_, ih⟩
      simp_all

theorem spaced_sanitizeSegment (raw : List Char) : Spaced '-' (sanitizeSegment raw) := by
  refine List.IsChain.prefix ?_ (List.rdropWhile_prefix _ _)
  exact spaced_dashRuns.suffix (List.dropWhile_suffix _)

theorem wordsOf_sanitizeSegment (raw : List Char) : wordsOf (· ≠ '-') (sanitizeSegment raw) = nameWords raw := by
  have hdash : (fun c : Char => decide (c = '-')) = fun c => !decide (c ≠ '-') := by
    funext c
    simp
  have hword : (fun c => !!isSegmentChar c && decide (c ≠ '-')) = isWordChar := by
    funext c
    simp [isWordChar]
  unfold sanitizeSegment nameWords
  simp only
  rw [hdash, wordsOf_rdropWhile, wordsOf_dropWhile, wordsOf_dashRuns]
  simp only [Bool.not_not, Bool.and_self]
  rw [wordsOf_dashRuns, hword]

theorem sanitizeSegment_head (raw : List Char) : (sanitizeSegment raw).head? ≠ some '-' := by
  intro h
  obtain ⟨rest, he⟩ := List.head?_eq_some_iff.mp h
  have hprefix : sanitizeSegment raw <+: (dashRuns (· = '-') (dashRuns (fun c => !isSegmentChar c)
      (raw.flatMap toLowerCase))).dropWhile (· = '-') := List.rdropWhile_prefix _ _
  obtain ⟨tail, ht⟩ := he ▸ hprefix
  have := List.head?_dropWhile_not (fun c : Char => decide (c = '-')) (dashRuns (fun c => decide (c = '-'))
    (dashRuns (fun c => !isSegmentChar c) (raw.flatMap toLowerCase)))
  simp [← ht] at this

theorem sanitizeSegment_getLast (raw : List Char) : (sanitizeSegment raw).getLast? ≠ some '-' := by
  intro h
  have hne : sanitizeSegment raw ≠ [] := by
    intro hnil
    simp [hnil] at h
  have hlast := List.rdropWhile_last_not (fun c : Char => decide (c = '-')) _ hne
  rw [List.getLast?_eq_some_getLast hne, Option.some.injEq] at h
  exact hlast (decide_eq_true h)

theorem sanitizeSegment_eq (raw : List Char) : sanitizeSegment raw = ['-'].intercalate (nameWords raw) := by
  rw [← wordsOf_sanitizeSegment, intercalate_wordsOf (spaced_sanitizeSegment raw) (sanitizeSegment_head raw)
    (sanitizeSegment_getLast raw)]

theorem dash_notMem {word : List Char} (h : word ∈ nameWords raw) : '-' ∉ word := by
  intro hm
  have := (wordsOf_keep h).2 '-' hm
  simp [isWordChar] at this

theorem sanitizeSegment_eq_nil : sanitizeSegment raw = [] ↔ nameWords raw = [] := by
  rw [← wordsOf_sanitizeSegment]
  constructor
  · intro h
    rw [h]
    rfl
  · intro h
    rw [sanitizeSegment_eq, ← wordsOf_sanitizeSegment, h]
    rfl

end KimchiWorkflows.Host
