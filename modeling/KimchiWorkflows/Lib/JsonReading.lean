import Mathlib.Data.List.TakeWhile
import KimchiWorkflows.Lib.Json

/-!
What is written is read back, and what was read of a text is read of every longer one.
-/

namespace Json

variable {text rest s : Text} {c : Char} {fuel : Nat}

def Ends (rest : Text) : Prop := ∀ c after, rest = c :: after → isNumberChar c = false

theorem ends_cons (h : isNumberChar c = false) : Ends (c :: rest) := by
  intro other after he
  cases he
  exact h

theorem ends_nil : Ends [] := by
  intro c after he
  cases he

theorem skipBlank_cons (h : isBlank c = false) : skipBlank (c :: rest) = c :: rest := by
  simp [skipBlank, h]

section Strings

theorem hexValue_hexDigit : ∀ n < 16, hexValue (hexDigit n) = some n := by decide

theorem readString_plain (hq : c ≠ '"') (h : ¬ (c.toNat < 32 || c = '\\') = true) :
    readString (c :: rest) = (readString rest).map (fun (s, after) => (c :: s, after)) := by
  have hb : c ≠ '\\' := by
    rintro rfl
    exact h rfl
  rw [readString]
  · rw [if_neg h]
  · exact hq
  · intro a b d e tail hc
    exact absurd hc hb
  · intro mark tail hc
    exact absurd hc hb

theorem escape_cases (c : Char) :
    (∃ mark, escape c = ['\\', mark] ∧ unescape mark = some c ∧ mark ≠ 'u' ∧ mark ≠ '\n') ∨
    (c.toNat < 32 ∧ escape c = ['\\', 'u', '0', '0', hexDigit (c.toNat / 16), hexDigit (c.toNat % 16)]) ∨
    (c ≠ '"' ∧ c ≠ '\\' ∧ ¬ c.toNat < 32 ∧ escape c = [c]) := by
  by_cases h₁ : c = '"'
  · subst h₁
    exact .inl ⟨'"', rfl, rfl, by decide, by decide⟩
  by_cases h₂ : c = '\\'
  · subst h₂
    exact .inl ⟨'\\', rfl, rfl, by decide, by decide⟩
  by_cases h₃ : c = '\x08'
  · subst h₃
    exact .inl ⟨'b', rfl, rfl, by decide, by decide⟩
  by_cases h₄ : c = '\x0c'
  · subst h₄
    exact .inl ⟨'f', rfl, rfl, by decide, by decide⟩
  by_cases h₅ : c = '\n'
  · subst h₅
    exact .inl ⟨'n', rfl, rfl, by decide, by decide⟩
  by_cases h₆ : c = '\r'
  · subst h₆
    exact .inl ⟨'r', rfl, rfl, by decide, by decide⟩
  by_cases h₇ : c = '\t'
  · subst h₇
    exact .inl ⟨'t', rfl, rfl, by decide, by decide⟩
  have he : escape c =
      if c.toNat < 32 then ['\\', 'u', '0', '0', hexDigit (c.toNat / 16), hexDigit (c.toNat % 16)] else [c] := by
    rw [escape, if_neg h₁, if_neg h₂, if_neg h₃, if_neg h₄, if_neg h₅, if_neg h₆, if_neg h₇]
  by_cases h₈ : c.toNat < 32
  · exact .inr (.inl ⟨h₈, he.trans (if_pos h₈)⟩)
  · exact .inr (.inr ⟨h₁, h₂, h₈, he.trans (if_neg h₈)⟩)

theorem readString_escaped {mark : Char} (h : mark ≠ 'u') : readString ('\\' :: mark :: rest) =
    (unescape mark).bind (fun c => (readString rest).map (fun (s, after) => (c :: s, after))) := by
  rw [readString]
  intro a b d e tail hu
  exact absurd hu h

theorem readString_escape (c : Char) (rest : Text) :
    readString (escape c ++ rest) = (readString rest).map (fun (s, after) => (c :: s, after)) := by
  obtain ⟨mark, he, hmark, hu, -⟩ | ⟨hlt, he⟩ | ⟨hquote, hslash, hlt, he⟩ := escape_cases c
  · rw [he, List.cons_append, List.cons_append, List.nil_append, readString_escaped hu, hmark]
    rfl
  · have hhigh := hexValue_hexDigit (c.toNat / 16) (by omega)
    have hlow := hexValue_hexDigit (c.toNat % 16) (by omega)
    have hzero : hexValue '0' = some 0 := by decide
    have hsum : (0 * 16 + 0) * 256 + (c.toNat / 16 * 16 + c.toNat % 16) = c.toNat := by omega
    have hvalid : c.toNat.isValidChar := c.valid
    have hunit : readUnit '0' '0' (hexDigit (c.toNat / 16)) (hexDigit (c.toNat % 16)) = some c := by
      simp only [readUnit, hzero, hhigh, hlow, Option.bind_eq_bind, Option.bind_some, Option.pure_def, hsum,
        if_pos hvalid, Char.ofNat_toNat]
    simp only [he, List.cons_append, List.nil_append, readString, hunit, Option.bind_some]
  · have hplain : ¬ (c.toNat < 32 || c = '\\') = true := by simp [hslash, hlt]
    rw [he]
    exact readString_plain hquote hplain

theorem readString_write (s rest : Text) : readString (writeString s ++ rest) = some (s, rest) := by
  induction s with
  | nil => rfl
  | cons c s ih =>
    have hstep : writeString (c :: s) ++ rest = escape c ++ (writeString s ++ rest) := by
      simp [writeString, List.append_assoc]
    rw [hstep, readString_escape, ih]
    rfl

end Strings

section Numbers

theorem numeral_chars (literal : Numeral) : ∀ c ∈ literal.text, isNumberChar c = true := by
  have h := literal.valid
  simp only [isNumeral, Bool.and_eq_true, List.all_eq_true] at h
  exact h.1.1

theorem numeral_ne_nil (literal : Numeral) : literal.text ≠ [] := by
  intro h
  have hvalid := literal.valid
  rw [h] at hvalid
  revert hvalid
  decide

theorem readNumber_write (literal : Numeral) (h : Ends rest) :
    readNumber (literal.text ++ rest) = some (.number literal, rest) := by
  have hrest : rest.takeWhile isNumberChar = [] ∧ rest.dropWhile isNumberChar = rest := by
    cases rest with
    | nil => exact ⟨rfl, rfl⟩
    | cons c after => simp [h c after rfl]
  have htake : (literal.text ++ rest).takeWhile isNumberChar = literal.text := by
    rw [List.takeWhile_append_of_pos (numeral_chars literal), hrest.1, List.append_nil]
  have hdrop : (literal.text ++ rest).dropWhile isNumberChar = rest := by
    rw [List.dropWhile_append_of_pos (numeral_chars literal), hrest.2]
  simp only [readNumber, htake, hdrop, literal.valid, dite_true]

end Numbers

theorem readValue_number (h : isNumberChar c = true) : readValue (fuel + 1) (c :: text) = readNumber (c :: text) := by
  have hne : ∀ other, isNumberChar other = false → c ≠ other := by
    rintro other ho rfl
    rw [h] at ho
    cases ho
  have hblank : isBlank c = false := by
    simp only [isBlank, Bool.or_eq_false_iff, decide_eq_false_iff_not]
    exact ⟨⟨⟨hne _ (by decide), hne _ (by decide)⟩, hne _ (by decide)⟩, hne _ (by decide)⟩
  rw [readValue, skipBlank_cons hblank]
  simp only [if_neg (hne '"' (by decide)), if_neg (hne '[' (by decide)), if_neg (hne '{' (by decide)),
    if_neg (hne 'n' (by decide)), if_neg (hne 't' (by decide)), if_neg (hne 'f' (by decide))]

theorem readValue_array : readValue (fuel + 1) ('[' :: text) =
    (readItems fuel text).map (fun (items, after) => (.array items, after)) := by
  rw [readValue, skipBlank_cons (by decide)]
  rfl

theorem readValue_object : readValue (fuel + 1) ('{' :: text) =
    (readMembers fuel text).map (fun (members, after) => (.object members, after)) := by
  rw [readValue, skipBlank_cons (by decide)]
  rfl

section Values

theorem write_head (value : Value) : ∃ c rest, write value = c :: rest ∧ isBlank c = false ∧ c ≠ ']' := by
  cases value with
  | null => exact ⟨_, _, by rw [write], by decide, by decide⟩
  | bool b => cases b <;> exact ⟨_, _, by rw [write], by decide, by decide⟩
  | number literal =>
    cases ht : literal.text with
    | nil => exact absurd ht (numeral_ne_nil literal)
    | cons c rest =>
      have hc := numeral_chars literal c (by rw [ht]; exact List.mem_cons_self)
      refine ⟨c, rest, by rw [write, ht], ?_, ?_⟩
      · by_contra hb
        simp only [isBlank, Bool.not_eq_false, Bool.or_eq_true, decide_eq_true_eq] at hb
        rcases hb with ((rfl | rfl) | rfl) | rfl <;> revert hc <;> decide
      · rintro rfl
        revert hc
        decide
  | string s => exact ⟨_, _, by rw [write], by decide, by decide⟩
  | array items => exact ⟨_, _, by rw [write], by decide, by decide⟩
  | object members => exact ⟨_, _, by rw [write], by decide, by decide⟩

theorem ends_writeMoreItems (items : List Value) (rest : Text) : Ends (writeMoreItems items ++ rest) := by
  cases items <;> rw [writeMoreItems] <;> exact ends_cons (by decide)

theorem ends_writeMoreMembers (members : List (Text × Value)) (rest : Text) :
    Ends (writeMoreMembers members ++ rest) := by
  cases members with
  | nil =>
    rw [writeMoreMembers]
    exact ends_cons (by decide)
  | cons member others =>
    obtain ⟨name, value⟩ := member
    rw [writeMoreMembers]
    exact ends_cons (by decide)

theorem readMember_write (name : Text) {value : Value}
    (hvalue : readValue fuel (write value ++ rest) = some (value, rest)) :
    readMember (fuel + 1) ('"' :: (writeString name ++ ':' :: (write value ++ rest))) = some ((name, value), rest) := by
  rw [readMember, skipBlank_cons (by decide)]
  simp only [readString_write, Option.bind_eq_bind, Option.bind_some, skipBlank_cons (show isBlank ':' = false by decide),
    hvalue, Option.pure_def]

mutual

theorem readValue_write (value : Value) (fuel : Nat) (rest : Text) (h : (write value).length ≤ fuel) (hrest : Ends rest) :
    readValue fuel (write value ++ rest) = some (value, rest) := by
  obtain ⟨c, tail, hw, -⟩ := write_head value
  cases fuel with
  | zero =>
    rw [hw] at h
    simp at h
  | succ fuel =>
    cases value with
    | null => rfl
    | bool b => cases b <;> rfl
    | number literal =>
      rw [write] at hw ⊢
      have hc := numeral_chars literal c (by rw [hw]; exact List.mem_cons_self)
      rw [← readNumber_write literal hrest, hw, List.cons_append, readValue_number hc]
    | string s =>
      rw [write, List.cons_append, readValue, skipBlank_cons (by decide)]
      simp only [if_true, readString_write, Option.map_some]
    | array items =>
      rw [write, List.length_cons] at h
      rw [write, List.cons_append, readValue_array, readItems_write items fuel rest (by omega)]
      rfl
    | object members =>
      rw [write, List.length_cons] at h
      rw [write, List.cons_append, readValue_object, readMembers_write members fuel rest (by omega)]
      rfl

theorem readItems_write (items : List Value) (fuel : Nat) (rest : Text) (h : (writeItems items).length ≤ fuel) :
    readItems fuel (writeItems items ++ rest) = some (items, rest) := by
  cases items with
  | nil =>
    cases fuel with
    | zero => simp [writeItems] at h
    | succ fuel => rfl
  | cons item others =>
    obtain ⟨c, tail, hw, hblank, hclose⟩ := write_head item
    rw [writeItems, List.length_append] at h
    rw [writeItems, List.append_assoc]
    cases fuel with
    | zero =>
      rw [hw] at h
      simp at h
    | succ fuel =>
      have hmore : 0 < (writeMoreItems others).length := by cases others <;> simp [writeMoreItems]
      have hitem : 0 < (write item).length := by simp [hw]
      have hfirst := readValue_write item fuel (writeMoreItems others ++ rest) (by omega)
        (ends_writeMoreItems others rest)
      have hothers := readMoreItems_write others fuel rest (by omega)
      rw [readItems]
      split
      · rename_i after hclosed
        rw [hw, List.cons_append, skipBlank_cons hblank] at hclosed
        exact absurd (List.cons.inj hclosed).1 hclose
      · simp only [hfirst, hothers, Option.bind_eq_bind, Option.bind_some, Option.pure_def]

theorem readMoreItems_write (items : List Value) (fuel : Nat) (rest : Text) (h : (writeMoreItems items).length ≤ fuel) :
    readMoreItems fuel (writeMoreItems items ++ rest) = some (items, rest) := by
  cases items with
  | nil =>
    cases fuel with
    | zero => simp [writeMoreItems] at h
    | succ fuel => rfl
  | cons item others =>
    rw [writeMoreItems, List.length_cons, List.length_append] at h
    rw [writeMoreItems, List.cons_append, List.append_assoc]
    cases fuel with
    | zero => omega
    | succ fuel =>
      have hfirst := readValue_write item fuel (writeMoreItems others ++ rest) (by omega)
        (ends_writeMoreItems others rest)
      have hothers := readMoreItems_write others fuel rest (by omega)
      rw [readMoreItems, skipBlank_cons (by decide)]
      simp only [hfirst, hothers, Option.bind_eq_bind, Option.bind_some, Option.pure_def]

theorem readMembers_write (members : List (Text × Value)) (fuel : Nat) (rest : Text)
    (h : (writeMembers members).length ≤ fuel) :
    readMembers fuel (writeMembers members ++ rest) = some (members, rest) := by
  cases members with
  | nil =>
    cases fuel with
    | zero => simp [writeMembers] at h
    | succ fuel => rfl
  | cons member others =>
    obtain ⟨name, value⟩ := member
    rw [writeMembers] at h ⊢
    simp only [List.length_cons, List.length_append] at h
    have hmore : 0 < (writeMoreMembers others).length := by cases others <;> simp [writeMoreMembers]
    match fuel, h with
    | fuel + 2, h =>
      have hvalue := readValue_write value fuel (writeMoreMembers others ++ rest) (by omega)
        (ends_writeMoreMembers others rest)
      have hothers := readMoreMembers_write others (fuel + 1) rest (by omega)
      have hmember := readMember_write name hvalue
      rw [List.cons_append, List.append_assoc, List.cons_append, List.append_assoc, readMembers,
        skipBlank_cons (by decide)]
      simp only [hmember, hothers, Option.bind_eq_bind, Option.bind_some, Option.pure_def]
      rfl

theorem readMoreMembers_write (members : List (Text × Value)) (fuel : Nat) (rest : Text)
    (h : (writeMoreMembers members).length ≤ fuel) :
    readMoreMembers fuel (writeMoreMembers members ++ rest) = some (members, rest) := by
  cases members with
  | nil =>
    cases fuel with
    | zero => simp [writeMoreMembers] at h
    | succ fuel => rfl
  | cons member others =>
    obtain ⟨name, value⟩ := member
    rw [writeMoreMembers] at h ⊢
    simp only [List.length_cons, List.length_append] at h
    match fuel, h with
    | fuel + 2, h =>
      have hvalue := readValue_write value fuel (writeMoreMembers others ++ rest) (by omega)
        (ends_writeMoreMembers others rest)
      have hothers := readMoreMembers_write others (fuel + 1) rest (by omega)
      have hmember := readMember_write name hvalue
      rw [List.cons_append, List.cons_append, List.append_assoc, List.cons_append, List.append_assoc,
        readMoreMembers, skipBlank_cons (by decide)]
      simp only [hmember, hothers, Option.bind_eq_bind, Option.bind_some, Option.pure_def]

end

/-- Reading a written value gives the value back. -/
theorem read_write (value : Value) : read (write value) = some value := by
  have h := readValue_write value ((write value).length + 1) [] (Nat.le_succ _) ends_nil
  rw [List.append_nil] at h
  rw [read, h]
  rfl

end Values

section Longer

variable {more after : Text} {value : Value}

theorem skipBlank_append (h : skipBlank text = c :: rest) : skipBlank (text ++ more) = c :: (rest ++ more) := by
  unfold skipBlank at h ⊢
  rw [List.dropWhile_append, h]
  rfl

theorem readString_append {s : Text} (h : readString text = some (s, rest)) :
    readString (text ++ more) = some (s, rest ++ more) := by
  induction text using readString.induct generalizing s with
  | case1 => cases h
  | case2 text =>
    cases h
    rfl
  | case3 a b c d text ih =>
    simp only [readString, Option.bind_eq_some_iff, Option.map_eq_some_iff] at h
    obtain ⟨unit, hunit, ⟨tail, after⟩, hread, he⟩ := h
    cases he
    simp only [List.cons_append, readString, hunit, Option.bind_some, ih hread, Option.map_some]
  | case4 mark text hu ih =>
    rw [readString] at h
    · simp only [Option.bind_eq_some_iff, Option.map_eq_some_iff] at h
      obtain ⟨c, hc, ⟨tail, after⟩, hread, he⟩ := h
      cases he
      have hmark : mark ≠ 'u' := by
        rintro rfl
        cases hc
      rw [List.cons_append, List.cons_append, readString_escaped hmark, hc, ih hread]
      rfl
    · exact hu
  | case5 c text hq hu hb hbad =>
    rw [readString, if_pos hbad] at h
    · cases h
    · exact hq
    · exact hu
    · exact hb
  | case6 c text hq hu hb hplain ih =>
    rw [readString, if_neg hplain] at h
    · obtain ⟨⟨tail, after⟩, hread, he⟩ := Option.map_eq_some_iff.mp h
      cases he
      rw [List.cons_append, readString_plain hq hplain, ih hread]
      rfl
    · exact hq
    · exact hu
    · exact hb

theorem readWord_append_more {word : Text} {result : Value} (h : readWord word result text = some (value, rest)) :
    readWord word result (text ++ more) = some (value, rest ++ more) := by
  unfold readWord at h ⊢
  split_ifs at h with hw
  cases h
  have hlen : word.length ≤ text.length := by
    have := congrArg List.length hw
    rw [List.length_take] at this
    omega
  rw [List.take_append_of_le_length hlen, if_pos hw, List.drop_append_of_le_length hlen]

theorem readNumber_append (h : readNumber text = some (value, rest)) (hrest : rest ≠ []) :
    readNumber (text ++ more) = some (value, rest ++ more) := by
  unfold readNumber at h
  split_ifs at h with hv
  cases h
  have hlen : ¬ (text.takeWhile isNumberChar).length = text.length := by
    intro hlen
    apply hrest
    have happend := congrArg List.length (List.takeWhile_append_dropWhile (p := isNumberChar) (l := text))
    rw [List.length_append] at happend
    exact List.length_eq_zero_iff.mp (by omega)
  have htake : (text ++ more).takeWhile isNumberChar = text.takeWhile isNumberChar := by
    rw [List.takeWhile_append, if_neg hlen]
  have hdrop : (text ++ more).dropWhile isNumberChar = text.dropWhile isNumberChar ++ more := by
    rw [List.dropWhile_append, if_neg]
    simpa using hrest
  simp only [readNumber, htake, hdrop, hv, dite_true]

/-- What was read with some fuel is read with more of it and of a longer text; a number must have ended. -/
structure ReadsOn (fuel : Nat) : Prop where
  value : ∀ {text rest value} fuel' more, fuel ≤ fuel' → readValue fuel text = some (value, rest) →
    (rest ≠ [] ∨ ∀ literal, value ≠ .number literal) → readValue fuel' (text ++ more) = some (value, rest ++ more)
  items : ∀ {text rest items} fuel' more, fuel ≤ fuel' → readItems fuel text = some (items, rest) →
    readItems fuel' (text ++ more) = some (items, rest ++ more)
  moreItems : ∀ {text rest items} fuel' more, fuel ≤ fuel' → readMoreItems fuel text = some (items, rest) →
    readMoreItems fuel' (text ++ more) = some (items, rest ++ more)
  members : ∀ {text rest members} fuel' more, fuel ≤ fuel' → readMembers fuel text = some (members, rest) →
    readMembers fuel' (text ++ more) = some (members, rest ++ more)
  member : ∀ {text rest member} fuel' more, fuel ≤ fuel' → rest ≠ [] →
    readMember fuel text = some (member, rest) → readMember fuel' (text ++ more) = some (member, rest ++ more)
  moreMembers : ∀ {text rest members} fuel' more, fuel ≤ fuel' → readMoreMembers fuel text = some (members, rest) →
    readMoreMembers fuel' (text ++ more) = some (members, rest ++ more)

theorem ne_nil_of_moreItems {items : List Value} (h : readMoreItems fuel text = some (items, rest)) : text ≠ [] := by
  rintro rfl
  cases fuel <;> cases h

theorem ne_nil_of_moreMembers {members : List (Text × Value)}
    (h : readMoreMembers fuel text = some (members, rest)) : text ≠ [] := by
  rintro rfl
  cases fuel <;> cases h

variable (ih : ReadsOn fuel)

include ih

theorem ReadsOn.readValue {fuel' : Nat} (hf : fuel ≤ fuel') (h : readValue (fuel + 1) text = some (value, rest))
    (hend : rest ≠ [] ∨ ∀ literal, value ≠ .number literal) :
    readValue (fuel' + 1) (text ++ more) = some (value, rest ++ more) := by
  rw [Json.readValue] at h
  cases hs : skipBlank text with
  | nil =>
    rw [hs] at h
    cases h
  | cons c tail =>
    rw [hs] at h
    rw [Json.readValue, skipBlank_append hs]
    dsimp only at h ⊢
    split_ifs at h ⊢
    · obtain ⟨⟨s, after⟩, hread, he⟩ := Option.map_eq_some_iff.mp h
      cases he
      rw [readString_append hread]
      rfl
    · obtain ⟨⟨items, after⟩, hread, he⟩ := Option.map_eq_some_iff.mp h
      cases he
      rw [ih.items fuel' more hf hread]
      rfl
    · obtain ⟨⟨members, after⟩, hread, he⟩ := Option.map_eq_some_iff.mp h
      cases he
      rw [ih.members fuel' more hf hread]
      rfl
    · exact readWord_append_more h
    · exact readWord_append_more h
    · exact readWord_append_more h
    · have hrest : rest ≠ [] := by
        rcases hend with hrest | hnumber
        · exact hrest
        · have hshape := h
          unfold readNumber at hshape
          split_ifs at hshape
          cases hshape
          exact absurd rfl (hnumber _)
      rw [← List.cons_append]
      exact readNumber_append h hrest

theorem ReadsOn.itemThen {fuel' : Nat} {items : List Value} (hf : fuel ≤ fuel')
    (h : (do
      let (item, rest) ← Json.readValue fuel text
      let (items, after) ← readMoreItems fuel rest
      return (item :: items, after)) = some (items, after)) :
    (do
      let (item, rest) ← Json.readValue fuel' (text ++ more)
      let (items, after) ← readMoreItems fuel' rest
      return (item :: items, after)) = some (items, after ++ more) := by
  simp only [Option.bind_eq_bind, Option.bind_eq_some_iff, Option.pure_def] at h
  obtain ⟨⟨item, rest⟩, hitem, ⟨others, last⟩, hothers, he⟩ := h
  cases he
  have hfirst := ih.value fuel' more hf hitem (.inl (ne_nil_of_moreItems hothers))
  simp only [hfirst, ih.moreItems fuel' more hf hothers, Option.bind_eq_bind, Option.bind_some, Option.pure_def]

theorem ReadsOn.memberThen {fuel' : Nat} {members : List (Text × Value)} (hf : fuel ≤ fuel')
    (h : (do
      let (member, rest) ← Json.readMember fuel text
      let (members, after) ← readMoreMembers fuel rest
      return (member :: members, after)) = some (members, after)) :
    (do
      let (member, rest) ← Json.readMember fuel' (text ++ more)
      let (members, after) ← readMoreMembers fuel' rest
      return (member :: members, after)) = some (members, after ++ more) := by
  simp only [Option.bind_eq_bind, Option.bind_eq_some_iff, Option.pure_def] at h
  obtain ⟨⟨member, rest⟩, hmember, ⟨others, last⟩, hothers, he⟩ := h
  cases he
  have hfirst := ih.member fuel' more hf (ne_nil_of_moreMembers hothers) hmember
  simp only [hfirst, ih.moreMembers fuel' more hf hothers, Option.bind_eq_bind, Option.bind_some, Option.pure_def]

theorem ReadsOn.readItems {fuel' : Nat} {items : List Value} (hf : fuel ≤ fuel')
    (h : readItems (fuel + 1) text = some (items, after)) :
    readItems (fuel' + 1) (text ++ more) = some (items, after ++ more) := by
  rw [Json.readItems] at h
  cases hs : skipBlank text with
  | nil =>
    rw [hs] at h
    simp only [Option.bind_eq_bind, Option.bind_eq_some_iff] at h
    obtain ⟨⟨item, rest⟩, hitem, -⟩ := h
    cases fuel with
    | zero => cases hitem
    | succ fuel =>
      rw [Json.readValue, hs] at hitem
      cases hitem
  | cons c tail =>
    rw [hs] at h
    rw [Json.readItems, skipBlank_append hs]
    by_cases hc : c = ']'
    · subst hc
      cases h
      rfl
    · split at h
      · rename_i heq
        exact absurd (List.cons.inj heq).1 hc
      · split
        · rename_i heq
          exact absurd (List.cons.inj heq).1 hc
        · exact ih.itemThen hf h

theorem ReadsOn.readMoreItems {fuel' : Nat} {items : List Value} (hf : fuel ≤ fuel')
    (h : readMoreItems (fuel + 1) text = some (items, after)) :
    readMoreItems (fuel' + 1) (text ++ more) = some (items, after ++ more) := by
  rw [Json.readMoreItems] at h
  split at h
  · rename_i closed hs
    cases h
    rw [Json.readMoreItems, skipBlank_append hs]
    rfl
  · rename_i next hs
    rw [Json.readMoreItems, skipBlank_append hs]
    exact ih.itemThen hf h
  · cases h

theorem ReadsOn.readMembers {fuel' : Nat} {members : List (Text × Value)} (hf : fuel ≤ fuel')
    (h : readMembers (fuel + 1) text = some (members, after)) :
    readMembers (fuel' + 1) (text ++ more) = some (members, after ++ more) := by
  rw [Json.readMembers] at h
  cases hs : skipBlank text with
  | nil =>
    rw [hs] at h
    simp only [Option.bind_eq_bind, Option.bind_eq_some_iff] at h
    obtain ⟨⟨member, rest⟩, hmember, -⟩ := h
    cases fuel with
    | zero => cases hmember
    | succ fuel =>
      rw [Json.readMember, hs] at hmember
      cases hmember
  | cons c tail =>
    rw [hs] at h
    rw [Json.readMembers, skipBlank_append hs]
    by_cases hc : c = '}'
    · subst hc
      cases h
      rfl
    · split at h
      · rename_i heq
        exact absurd (List.cons.inj heq).1 hc
      · split
        · rename_i heq
          exact absurd (List.cons.inj heq).1 hc
        · exact ih.memberThen hf h

theorem ReadsOn.readMember {fuel' : Nat} {member : Text × Value} (hf : fuel ≤ fuel') (hrest : rest ≠ [])
    (h : readMember (fuel + 1) text = some (member, rest)) :
    readMember (fuel' + 1) (text ++ more) = some (member, rest ++ more) := by
  rw [Json.readMember] at h
  split at h
  · rename_i opened hs
    simp only [Option.bind_eq_bind, Option.bind_eq_some_iff] at h
    obtain ⟨⟨name, named⟩, hname, h⟩ := h
    dsimp only at h
    split at h
    · rename_i next hcolon
      simp only [Option.bind_eq_some_iff, Option.pure_def] at h
      obtain ⟨⟨value, last⟩, hvalue, he⟩ := h
      cases he
      rw [Json.readMember, skipBlank_append hs]
      simp only [readString_append hname, Option.bind_eq_bind, Option.bind_some, skipBlank_append hcolon,
        ih.value fuel' more hf hvalue (.inl hrest), Option.pure_def]
    · cases h
  · cases h

theorem ReadsOn.readMoreMembers {fuel' : Nat} {members : List (Text × Value)} (hf : fuel ≤ fuel')
    (h : readMoreMembers (fuel + 1) text = some (members, after)) :
    readMoreMembers (fuel' + 1) (text ++ more) = some (members, after ++ more) := by
  rw [Json.readMoreMembers] at h
  split at h
  · rename_i closed hs
    cases h
    rw [Json.readMoreMembers, skipBlank_append hs]
    rfl
  · rename_i next hs
    rw [Json.readMoreMembers, skipBlank_append hs]
    exact ih.memberThen hf h
  · cases h

omit ih in
theorem readsOn (fuel : Nat) : ReadsOn fuel := by
  induction fuel with
  | zero =>
    exact ⟨fun _ _ _ h _ => (by cases h), fun _ _ _ h => (by cases h), fun _ _ _ h => (by cases h),
      fun _ _ _ h => (by cases h), fun _ _ _ _ h => (by cases h), fun _ _ _ h => (by cases h)⟩
  | succ fuel ih =>
    refine ⟨?_, ?_, ?_, ?_, ?_, ?_⟩
    · rintro text rest value (_ | fuel') more hf h hend
      · omega
      · exact ih.readValue (by omega) h hend
    · rintro text rest items (_ | fuel') more hf h
      · omega
      · exact ih.readItems (by omega) h
    · rintro text rest items (_ | fuel') more hf h
      · omega
      · exact ih.readMoreItems (by omega) h
    · rintro text rest members (_ | fuel') more hf h
      · omega
      · exact ih.readMembers (by omega) h
    · rintro text rest member (_ | fuel') more hf hrest h
      · omega
      · exact ih.readMember (by omega) hrest h
    · rintro text rest members (_ | fuel') more hf h
      · omega
      · exact ih.readMoreMembers (by omega) h

end Longer

/-- A part of a written object that stops short of its end is no JSON text. -/
theorem read_eq_none_of_prefix {members : List (Text × Value)} (h : text <+: write (.object members))
    (hne : text ≠ write (.object members)) : read text = none := by
  obtain ⟨more, happend⟩ := h
  cases text with
  | nil => rfl
  | cons c tail =>
    have hc : c = '{' := by
      rw [write, List.cons_append] at happend
      exact (List.cons.inj happend).1
    subst hc
    by_contra hread
    obtain ⟨value, hread⟩ := Option.ne_none_iff_exists'.mp hread
    simp only [read, Option.bind_eq_some_iff] at hread
    obtain ⟨⟨found, after⟩, hvalue, -⟩ := hread
    have hobject : ∀ literal, found ≠ .number literal := by
      rintro literal rfl
      rw [readValue_object] at hvalue
      obtain ⟨members, -, he⟩ := Option.map_eq_some_iff.mp hvalue
      cases he
    have hlen : ('{' :: tail).length + 1 ≤ (write (.object members)).length + 1 := by
      rw [← happend, List.length_append]
      omega
    have hwhole := (readsOn _).value _ more hlen hvalue (.inr hobject)
    have hwritten := readValue_write (.object members) ((write (.object members)).length + 1) [] (Nat.le_succ _) ends_nil
    rw [happend] at hwhole
    rw [List.append_nil, hwhole] at hwritten
    have hnil := (Prod.mk.inj (Option.some.inj hwritten)).2
    obtain ⟨-, rfl⟩ := List.append_eq_nil_iff.mp hnil
    rw [List.append_nil] at happend
    exact hne happend

section Lines

theorem newline_notMem_escape (c : Char) : '\n' ∉ escape c := by
  have hdigit : ∀ n < 16, '\n' ≠ hexDigit n := by decide
  obtain ⟨mark, he, -, -, hn⟩ | ⟨hlt, he⟩ | ⟨-, -, hlt, he⟩ := escape_cases c
  · rw [he]
    simp [Ne.symm hn]
  · have hhigh := hdigit (c.toNat / 16) (by omega)
    have hlow := hdigit (c.toNat % 16) (by omega)
    rw [he]
    simp [hhigh, hlow]
  · rw [he, List.mem_singleton]
    rintro rfl
    exact hlt (by decide)

theorem newline_notMem_writeString (s : Text) : '\n' ∉ writeString s := by
  simp [writeString, newline_notMem_escape]

mutual

theorem newline_notMem_write (value : Value) : '\n' ∉ write value := by
  cases value with
  | null => decide
  | bool b => cases b <;> decide
  | number literal =>
    rw [write]
    intro h
    have := numeral_chars literal _ h
    revert this
    decide
  | string s =>
    rw [write]
    simp [newline_notMem_writeString]
  | array items =>
    rw [write]
    simp [newline_notMem_writeItems items]
  | object members =>
    rw [write]
    simp [newline_notMem_writeMembers members]

theorem newline_notMem_writeItems (items : List Value) : '\n' ∉ writeItems items := by
  cases items with
  | nil => decide
  | cons item others =>
    rw [writeItems]
    simp [newline_notMem_write item, newline_notMem_writeMoreItems others]

theorem newline_notMem_writeMoreItems (items : List Value) : '\n' ∉ writeMoreItems items := by
  cases items with
  | nil => decide
  | cons item others =>
    rw [writeMoreItems]
    simp [newline_notMem_write item, newline_notMem_writeMoreItems others]

theorem newline_notMem_writeMembers (members : List (Text × Value)) : '\n' ∉ writeMembers members := by
  cases members with
  | nil => decide
  | cons member others =>
    obtain ⟨name, value⟩ := member
    rw [writeMembers]
    simp [newline_notMem_writeString, newline_notMem_write value, newline_notMem_writeMoreMembers others]

theorem newline_notMem_writeMoreMembers (members : List (Text × Value)) : '\n' ∉ writeMoreMembers members := by
  cases members with
  | nil => decide
  | cons member others =>
    obtain ⟨name, value⟩ := member
    rw [writeMoreMembers]
    simp [newline_notMem_writeString, newline_notMem_write value, newline_notMem_writeMoreMembers others]

end

end Lines

end Json
