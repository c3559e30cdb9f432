import KimchiWorkflows.Host.Transcript

/-!
The turn read as a subagent's output arrives, against the turn read from the whole of it.
-/

namespace KimchiWorkflows.Host.Transcript

open Json KimchiWorkflows.Engine.StepRunner

variable {js : Runtime} {registers registers' : Registers} {message : Value} {messages : List Value}
  {text chunk line : Text} {chunks : List Text} {reader : Reader}

theorem splitLines_ne_nil (text : Text) : splitLines text ≠ [] := by
  induction text with
  | nil => simp [splitLines]
  | cons c rest ih =>
    unfold splitLines
    split
    · simp
    · cases h : splitLines rest with
      | nil => simp
      | cons line lines => simp

theorem splitLines_newline (rest : Text) : splitLines ('\n' :: rest) = [] :: splitLines rest := rfl

theorem splitLines_cons {c : Char} (hc : c ≠ '\n') (rest : Text) :
    splitLines (c :: rest) = (splitLines rest).modifyHead (c :: ·) := by
  rw [splitLines, if_neg hc]
  cases h : splitLines rest with
  | nil => exact absurd h (splitLines_ne_nil rest)
  | cons line lines => rfl

theorem splitLines_append (text more : Text) :
    splitLines (text ++ more) = (splitLines text).dropLast ++ splitLines ((splitLines text).getLastD [] ++ more) := by
  induction text with
  | nil => rfl
  | cons c rest ih =>
    rw [List.cons_append]
    cases hs : splitLines rest with
    | nil => exact absurd hs (splitLines_ne_nil rest)
    | cons first lines =>
      rw [hs] at ih
      by_cases hc : c = '\n'
      · subst hc
        rw [splitLines_newline, splitLines_newline, ih, hs]
        rfl
      · rw [splitLines_cons hc, splitLines_cons hc, ih, hs]
        cases lines with
        | nil => exact (splitLines_cons hc (first ++ more)).symm
        | cons second lines => rfl

theorem getLastD_append {lines more : List Text} (hne : more ≠ []) : (lines ++ more).getLastD [] = more.getLastD [] := by
  rw [List.getLastD_eq_getLast?, List.getLastD_eq_getLast?, List.getLast?_append, List.getLast?_eq_some_getLast hne]
  rfl

theorem readLine_nil : readLine js registers [] = some registers := rfl

def readLines (js : Runtime) (text : Text) : Option Registers := (splitLines text).foldlM (readLine js) {}

theorem foldlM_lines (lines : List Text) (hne : lines ≠ []) :
    lines.foldlM (readLine js) registers =
      (lines.dropLast.foldlM (readLine js) registers).bind (fun registers => readLine js registers (lines.getLastD [])) := by
  conv_lhs => rw [← List.dropLast_append_getLast hne, List.foldlM_append]
  rw [List.getLastD_eq_getLast?, List.getLast?_eq_some_getLast hne]
  simp [Option.bind_eq_bind]

theorem finish_eq (reader : Reader) :
    finish js reader = (readLine js reader.registers reader.pending).map Registers.turn := by
  unfold finish
  split
  · rename_i h
    rw [h, readLine_nil]
    rfl
  · rfl

/-- After some chunks the complete lines of their text have been read, and the rest is held. -/
theorem foldlM_push (chunks : List Text) :
    chunks.foldlM (push js) {} =
      ((splitLines chunks.flatten).dropLast.foldlM (readLine js) {}).map (fun registers =>
        { pending := (splitLines chunks.flatten).getLastD [], registers := registers }) := by
  induction chunks using List.reverseRecOn with
  | nil => rfl
  | append_singleton chunks chunk ih =>
    have hne := splitLines_ne_nil ((splitLines chunks.flatten).getLastD [] ++ chunk)
    rw [List.foldlM_append, ih, List.flatten_append, List.flatten_singleton, splitLines_append,
      List.dropLast_append_of_ne_nil hne, List.foldlM_append]
    cases (splitLines chunks.flatten).dropLast.foldlM (readLine js) {} with
    | none => rfl
    | some registers =>
      rw [getLastD_append hne]
      simp [push]

theorem readChunks_eq (chunks : List Text) :
    readChunks js chunks = (readLines js chunks.flatten).map Registers.turn := by
  rw [readChunks, foldlM_push, readLines, foldlM_lines _ (splitLines_ne_nil _)]
  cases (splitLines chunks.flatten).dropLast.foldlM (readLine js) {} with
  | none => rfl
  | some registers => exact finish_eq _

theorem foldlM_readLine (lines : List Text) (registers : Registers) :
    lines.foldlM (readLine js) registers = (lines.filterMap (messageOfLine js)).foldlM (readMessage js) registers := by
  induction lines generalizing registers with
  | nil => rfl
  | cons line rest ih =>
    rw [List.foldlM_cons, readLine, List.filterMap_cons]
    cases messageOfLine js line with
    | none => exact ih registers
    | some message =>
      rw [List.foldlM_cons]
      exact congrArg _ (funext ih)

theorem foldlM_readMessage (messages : List Value) (registers : Registers) :
    messages.foldlM (readMessage js) registers =
      (messages.filter isAssistantMessage).foldlM (readMessage js) registers := by
  induction messages generalizing registers with
  | nil => rfl
  | cons message rest ih =>
    by_cases hm : isAssistantMessage message = true
    · rw [List.filter_cons_of_pos hm, List.foldlM_cons, List.foldlM_cons]
      exact congrArg _ (funext ih)
    · rw [List.filter_cons_of_neg hm, List.foldlM_cons, readMessage, if_neg hm]
      exact ih registers

def Speaks (js : Runtime) (message : Value) : Prop :=
  messageText js message ≠ some [] ∨ (messageUsage message).isSome = true

theorem readMessage_assistant (h : isAssistantMessage message = true) :
    readMessage js registers message = (messageText js message).map (fun text =>
      { last := lastAfter registers.last text (messageUsage message)
        submitted := (submittedFromMessage js message).or registers.submitted
        error := errorFromMessage message }) := by
  have hlast : lastAssistant [message] = some message := by simp [lastAssistant, h]
  rw [readMessage, if_pos h, lastAssistantText, lastAssistantUsage, hlast]
  rfl

structure Registered (js : Runtime) (messages : List Value) (registers : Registers) : Prop where
  converted : ∀ message ∈ messages, messageText js message ≠ none
  silent : registers.last = none ↔ ∀ message ∈ messages, ¬Speaks js message
  filled : ∀ text usage, registers.last = some (text, usage) → text ≠ [] ∨ usage.isSome = true
  submitted : registers.submitted = messages.reverse.findSome? (submittedFromMessage js)
  error : registers.error = messages.getLast?.bind errorFromMessage

theorem lastAfter_speaks {last : Option (Text × Option Numeral)} (ht : messageText js message = some text)
    (h : Speaks js message) : lastAfter last text (messageUsage message) = some (text, messageUsage message) := by
  unfold lastAfter
  by_cases hne : text ≠ []
  · rw [if_pos hne]
  · rw [not_not] at hne
    subst hne
    have hu : (messageUsage message).isSome = true := h.resolve_left (fun hn => hn ht)
    rw [if_neg (by simp), if_pos hu]

theorem lastAfter_silent (last : Option (Text × Option Numeral)) (ht : messageText js message = some text)
    (h : ¬Speaks js message) : text = [] ∧ messageUsage message = none ∧
      lastAfter last text (messageUsage message) = last := by
  rw [Speaks, not_or, not_not, ht, Option.some.injEq] at h
  obtain ⟨rfl, hu⟩ := h
  have hnone : messageUsage message = none := by simpa using hu
  simp [lastAfter, hnone]

theorem registered_concat {earlier : List Value} (h : Registered js earlier registers)
    (ht : messageText js message = some text) :
    Registered js (earlier ++ [message]) { last := lastAfter registers.last text (messageUsage message)
                                           submitted := (submittedFromMessage js message).or registers.submitted
                                           error := errorFromMessage message } where
  converted := by
    intro other hm
    obtain hm | hm := List.mem_append.mp hm
    · exact h.converted other hm
    · obtain rfl := List.mem_singleton.mp hm
      simp [ht]
  silent := by
    by_cases hs : Speaks js message
    · rw [lastAfter_speaks ht hs]
      refine ⟨fun he => by simp at he, fun hall => ?_⟩
      exact absurd hs (hall message (List.mem_append_right _ (List.mem_singleton_self _)))
    · rw [(lastAfter_silent _ ht hs).2.2, h.silent]
      constructor
      · intro hall other hm
        obtain hm | hm := List.mem_append.mp hm
        · exact hall other hm
        · exact List.mem_singleton.mp hm ▸ hs
      · exact fun hall other hm => hall other (List.mem_append_left _ hm)
  filled := by
    intro said usage hl
    by_cases hs : Speaks js message
    · rw [lastAfter_speaks ht hs] at hl
      simp only [Option.some.injEq, Prod.mk.injEq] at hl
      obtain ⟨rfl, rfl⟩ := hl
      refine hs.imp_left ?_
      rw [ht]
      exact fun hn he => hn (congrArg some he)
    · rw [(lastAfter_silent _ ht hs).2.2] at hl
      exact h.filled said usage hl
  submitted := by
    rw [List.reverse_append, List.reverse_singleton, List.singleton_append, List.findSome?_cons, h.submitted]
    cases submittedFromMessage js message <;> rfl
  error := by simp

theorem foldlM_registered (messages : List Value) (hall : ∀ message ∈ messages, isAssistantMessage message = true) :
    (messages.foldlM (readMessage js) {} = none ∧ ∃ message ∈ messages, messageText js message = none) ∨
      ∃ registers, messages.foldlM (readMessage js) {} = some registers ∧ Registered js messages registers := by
  induction messages using List.reverseRecOn with
  | nil => exact .inr ⟨{}, rfl, by simp, by simp, by simp, rfl, rfl⟩
  | append_singleton earlier message ih =>
    have hm := hall message (List.mem_append_right _ (List.mem_singleton_self _))
    rw [List.foldlM_append]
    obtain ⟨hnone, other, ho, ht⟩ | ⟨registers, hsome, hr⟩ := ih (fun m h => hall m (List.mem_append_left _ h))
    · exact .inl ⟨by rw [hnone]; rfl, other, List.mem_append_left _ ho, ht⟩
    · rw [hsome]
      cases ht : messageText js message with
      | none =>
        refine .inl ⟨?_, message, List.mem_append_right _ (List.mem_singleton_self _), ht⟩
        simp [readMessage_assistant hm, ht]
      | some text =>
        refine .inr ⟨_, ?_, registered_concat hr ht⟩
        simp [readMessage_assistant hm, ht]

theorem lastAssistant_eq (messages : List Value) :
    lastAssistant messages = (messages.filter isAssistantMessage).getLast? := by
  rw [lastAssistant, ← List.head?_filter, List.filter_reverse, List.head?_reverse]

theorem lastSubmittedOutput_eq (messages : List Value) :
    lastSubmittedOutput js messages =
      (messages.filter isAssistantMessage).reverse.findSome? (submittedFromMessage js) := by
  rw [lastSubmittedOutput, ← List.filter_reverse]
  generalize messages.reverse = backwards
  induction backwards with
  | nil => rfl
  | cons message rest ih =>
    by_cases hm : isAssistantMessage message = true
    · rw [List.filter_cons_of_pos hm, List.findSome?_cons, List.findSome?_cons, ih]
    · have hnone : submittedFromMessage js message = none := by
        rw [submittedFromMessage, if_neg hm]
      rw [List.filter_cons_of_neg hm, List.findSome?_cons, hnone]
      exact ih

/-- The last assistant message speaks or no earlier one does, and the texts of the earlier ones can be converted. -/
def LastSpeaks (js : Runtime) (messages : List Value) : Prop :=
  ∀ earlier message, messages.filter isAssistantMessage = earlier ++ [message] → messageText js message ≠ none →
    (∀ other ∈ earlier, messageText js other ≠ none) ∧
      (Speaks js message ∨ ∀ other ∈ earlier, ¬Speaks js other)

end KimchiWorkflows.Host.Transcript
