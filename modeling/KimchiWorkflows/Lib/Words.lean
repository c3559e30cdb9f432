import Mathlib.Data.List.DropRight
import Mathlib.Data.List.Chain

/-!
Texts as words: what stands between two runs of other letters, and what stands between two dashes.
-/

namespace Words

variable {α : Type} {keeps replaced : α → Bool} {dash c : α} {text other rest : List α}

def wordsOf (keeps : α → Bool) : List α → List (List α)
  | [] => []
  | c :: rest =>
    if keeps c then
      if rest.head?.any keeps then (wordsOf keeps rest).modifyHead (c :: ·) else [c] :: wordsOf keeps rest
    else wordsOf keeps rest

theorem wordsOf_cons_of_neg (h : keeps c = false) : wordsOf keeps (c :: rest) = wordsOf keeps rest := by
  simp [wordsOf, h]

theorem wordsOf_ne_nil (h : rest.head?.any keeps = true) : wordsOf keeps rest ≠ [] := by
  induction rest with
  | nil => simp at h
  | cons c rest ih =>
    have hc : keeps c = true := by simpa using h
    by_cases hr : rest.head?.any keeps = true
    · simpa [wordsOf, hc, hr] using ih hr
    · simp [wordsOf, hc, hr]

theorem wordsOf_keep {word : List α} (h : word ∈ wordsOf keeps text) :
    word ≠ [] ∧ ∀ c ∈ word, keeps c = true := by
  induction text generalizing word with
  | nil => simp [wordsOf] at h
  | cons c rest ih =>
    unfold wordsOf at h
    split at h
    · rename_i hc
      split at h
      · cases hw : wordsOf keeps rest with
        | nil => simp [hw] at h
        | cons first more =>
          rw [hw] at h ih
          obtain rfl | hm := List.mem_cons.mp h
          · refine ⟨List.cons_ne_nil _ _, ?_⟩
            intro d hd
            obtain rfl | hd := List.mem_cons.mp hd
            · exact hc
            · exact (ih List.mem_cons_self).2 d hd
          · exact ih (List.mem_cons_of_mem _ hm)
      · obtain rfl | hm := List.mem_cons.mp h
        · simpa using hc
        · exact ih hm
    · exact ih h

theorem wordsOf_dropWhile : wordsOf keeps (text.dropWhile (fun c => !keeps c)) = wordsOf keeps text := by
  induction text with
  | nil => rfl
  | cons c rest ih =>
    by_cases hc : keeps c = true
    · simp [hc]
    · rw [List.dropWhile_cons_of_pos (by simpa using hc), ih, wordsOf_cons_of_neg (by simpa using hc)]

theorem wordsOf_concat (h : keeps c = false) : wordsOf keeps (text ++ [c]) = wordsOf keeps text := by
  induction text with
  | nil => simp [wordsOf, h]
  | cons d rest ih =>
    have hhead : (rest ++ [c]).head?.any keeps = rest.head?.any keeps := by
      cases rest <;> simp [h]
    rw [List.cons_append, wordsOf, wordsOf, hhead, ih]

theorem wordsOf_rdropWhile : wordsOf keeps (text.rdropWhile (fun c => !keeps c)) = wordsOf keeps text := by
  induction text using List.reverseRecOn with
  | nil => rfl
  | append_singleton text c ih =>
    by_cases hc : keeps c = true
    · rw [List.rdropWhile_concat_neg _ _ _ (by simp [hc])]
    · rw [List.rdropWhile_concat_pos _ _ _ (by simp [hc]), ih, wordsOf_concat (by simpa using hc)]

theorem wordsOf_append {word : List α} (hne : word ≠ []) (hk : ∀ c ∈ word, keeps c = true)
    (hr : rest.head?.any keeps = false) : wordsOf keeps (word ++ rest) = word :: wordsOf keeps rest := by
  induction word with
  | nil => exact absurd rfl hne
  | cons c more ih =>
    have hc : keeps c = true := hk c List.mem_cons_self
    cases more with
    | nil => simp [wordsOf, hc, hr]
    | cons d more =>
      have hd : keeps d = true := hk d (by simp)
      have hrest := ih (List.cons_ne_nil _ _) (fun c hm => hk c (List.mem_cons_of_mem _ hm))
      rw [List.cons_append, wordsOf, if_pos hc, if_pos (by simpa using hd), hrest]
      rfl

def Spaced (dash : α) (text : List α) : Prop := text.IsChain (fun a b => ¬(a = dash ∧ b = dash))

theorem intercalate_cons {first : List α} {more : List (List α)} (h : more ≠ []) :
    [dash].intercalate (first :: more) = first ++ dash :: [dash].intercalate more := by
  cases more with
  | nil => exact absurd rfl h
  | cons second more => simp [List.intercalate]

theorem intercalate_modifyHead {words : List (List α)} (h : words ≠ []) :
    [dash].intercalate (words.modifyHead (c :: ·)) = c :: [dash].intercalate words := by
  cases words with
  | nil => exact absurd rfl h
  | cons first more =>
    cases more with
    | nil => simp [List.intercalate]
    | cons second more => simp [List.intercalate]

theorem append_cons_eq_iff {β : Type} {before after before' after' : List β} {mark mark' : β} :
    before ++ mark :: after = before' ++ mark' :: after' ↔
      (before = before' ∧ mark = mark' ∧ after = after') ∨
      (∃ middle, before' = before ++ mark :: middle ∧ after = middle ++ mark' :: after') ∨
      ∃ middle, before = before' ++ mark' :: middle ∧ after' = middle ++ mark :: after := by
  constructor
  · intro h
    obtain ⟨piece, hb, ha⟩ | ⟨piece, hb, ha⟩ := List.append_eq_append_iff.mp h
    · cases piece with
      | nil =>
        obtain ⟨rfl, rfl⟩ := List.cons.inj ha
        exact .inl ⟨by simpa using hb.symm, rfl, rfl⟩
      | cons first middle =>
        obtain ⟨rfl, rfl⟩ := List.cons.inj ha
        exact .inr (.inl ⟨middle, hb, rfl⟩)
    · cases piece with
      | nil =>
        obtain ⟨rfl, rfl⟩ := List.cons.inj ha
        exact .inl ⟨by simpa using hb, rfl, rfl⟩
      | cons first middle =>
        obtain ⟨rfl, rfl⟩ := List.cons.inj ha
        exact .inr (.inr ⟨middle, hb, rfl⟩)
  · rintro (⟨rfl, rfl, rfl⟩ | ⟨middle, rfl, rfl⟩ | ⟨middle, rfl, rfl⟩)
    · rfl
    · simp
    · simp

variable [DecidableEq α]

theorem intercalate_wordsOf (hs : Spaced dash text) (hf : text.head? ≠ some dash) (hl : text.getLast? ≠ some dash) :
    [dash].intercalate (wordsOf (· ≠ dash) text) = text := by
  induction hn : text.length using Nat.strong_induction_on generalizing text with
  | _ n ih =>
    cases text with
    | nil => rfl
    | cons c rest =>
      have hc : decide (c ≠ dash) = true := by simpa using hf
      cases rest with
      | nil => simp [wordsOf, hc, List.intercalate]
      | cons d more =>
        have hspaced : Spaced dash (d :: more) := hs.tail
        by_cases hd : d = dash
        · subst hd
          have hmore : more ≠ [] := by
            rintro rfl
            simp at hl
          have hne : more.head? ≠ some d := by
            intro hh
            obtain ⟨rest, rfl⟩ := List.head?_eq_some_iff.mp hh
            exact (List.isChain_cons_cons.mp hspaced).1 ⟨rfl, rfl⟩
          have hrest : [d].intercalate (wordsOf (· ≠ d) more) = more :=
            ih more.length (by simp at hn; omega) hspaced.tail hne (by cases more <;> simp_all) rfl
          have hwords : wordsOf (fun c => decide (c ≠ d)) more ≠ [] := by
            apply wordsOf_ne_nil
            cases more with
            | nil => exact absurd rfl hmore
            | cons first more => simpa using hne
          have hstep : wordsOf (fun c => decide (c ≠ d)) (c :: d :: more) =
              [c] :: wordsOf (fun c => decide (c ≠ d)) more := by
            rw [wordsOf, if_pos hc, if_neg (by simp), wordsOf_cons_of_neg (by simp)]
          rw [hstep, intercalate_cons hwords, hrest]
          rfl
        · have hrest := ih (d :: more).length (by simp at hn ⊢; omega) hspaced (by simpa using hd)
            (by simpa using hl) rfl
          have hhead : (d :: more).head?.any (fun c => decide (c ≠ dash)) = true := by simpa using hd
          rw [wordsOf, if_pos hc, if_pos hhead, intercalate_modifyHead (wordsOf_ne_nil hhead), hrest]

theorem length_rdropWhile (hs : Spaced dash text) : text.length ≤ (text.rdropWhile (· = dash)).length + 1 := by
  induction text using List.reverseRecOn with
  | nil => exact Nat.zero_le _
  | append_singleton text c _ =>
    by_cases hc : c = dash
    · rw [List.rdropWhile_concat_pos _ _ _ (by simpa using hc)]
      have hkeep : text.rdropWhile (· = dash) = text := by
        rw [List.rdropWhile_eq_self_iff]
        intro hne hlast
        have := (List.isChain_append.mp hs).2.2 (text.getLast hne) (List.getLast_mem_getLast? hne) c rfl
        exact this ⟨by simpa using hlast, hc⟩
      rw [hkeep]
      simp
    · rw [List.rdropWhile_concat_neg _ _ _ (by simpa using hc)]
      exact Nat.le_succ _

theorem splitOn_inj : text.splitOn dash = other.splitOn dash ↔ text = other := by
  constructor
  · intro h
    have hjoined : [dash].intercalate (text.splitOn dash) = text := List.intercalate_splitOn dash
    rw [← hjoined, h, List.intercalate_splitOn]
  · rintro rfl
    rfl

end Words
