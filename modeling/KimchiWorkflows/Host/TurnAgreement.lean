import KimchiWorkflows.Host.TurnReading

namespace KimchiWorkflows.Host.Transcript

open Json KimchiWorkflows.Engine.StepRunner

variable {js : Runtime} {registers : Registers} {message : Value} {messages earlier : List Value} {text : Text}
  {registers' : Registers}

theorem turnOf_nil (h : messages.filter isAssistantMessage = []) : turnOf js messages = some (Registers.turn {}) := by
  have hlast : lastAssistant messages = none := by rw [lastAssistant_eq, h]; rfl
  rw [turnOf, lastAssistantText, lastAssistantUsage, lastSubmittedOutput_eq, lastAssistantError, hlast, h]
  rfl

theorem turnOf_concat (h : messages.filter isAssistantMessage = earlier ++ [message]) :
    turnOf js messages = (messageText js message).map (fun text =>
      { text := text
        usage := messageUsage message
        submitted := (earlier ++ [message]).reverse.findSome? (submittedFromMessage js)
        error := errorFromMessage message }) := by
  have hlast : lastAssistant messages = some message := by rw [lastAssistant_eq, h, List.getLast?_concat]
  rw [turnOf, lastAssistantText, lastAssistantUsage, lastSubmittedOutput_eq, lastAssistantError, hlast, h]
  rfl

/-- The registers say what the last message says, unless it is silent and an earlier one was not. -/
theorem turn_eq_iff (h : Registered js earlier registers) (ht : messageText js message = some text)
    (hr : Registered js (earlier ++ [message]) registers')
    (hl : registers'.last = lastAfter registers.last text (messageUsage message)) :
    registers'.turn = { text := text
                        usage := messageUsage message
                        submitted := (earlier ++ [message]).reverse.findSome? (submittedFromMessage js)
                        error := errorFromMessage message } ↔
      Speaks js message ∨ ∀ other ∈ earlier, ¬Speaks js other := by
  have herror : registers'.error = errorFromMessage message := by simpa using hr.error
  simp only [Registers.turn, ReadAssistantTurn.mk.injEq, hr.submitted, herror, and_true]
  by_cases hs : Speaks js message
  · simp [hl, lastAfter_speaks ht hs, hs]
  · obtain ⟨rfl, hnone, hkept⟩ := lastAfter_silent registers.last ht hs
    rw [hl, hkept, hnone]
    simp only [hs, false_or, ← h.silent]
    cases hlast : registers.last with
    | none => simp
    | some said =>
      have := h.filled said.1 said.2 hlast
      simp only [Option.map_some, Option.getD_some, Option.bind_some, reduceCtorEq, iff_false, not_and]
      intro htext
      rw [htext] at this
      simpa [Option.isSome_iff_ne_none] using this

theorem foldlM_eq_turnOf_iff (messages : List Value) :
    (messages.foldlM (readMessage js) {}).map Registers.turn = turnOf js messages ↔ LastSpeaks js messages := by
  rw [foldlM_readMessage]
  have hall : ∀ message ∈ messages.filter isAssistantMessage, isAssistantMessage message = true :=
    fun message hm => (List.mem_filter.mp hm).2
  obtain hnil | ⟨earlier, message, hconcat⟩ := List.eq_nil_or_concat (messages.filter isAssistantMessage)
  · rw [turnOf_nil hnil, hnil]
    refine ⟨fun _ earlier message he => ?_, fun _ => rfl⟩
    rw [hnil] at he
    simp at he
  · rw [List.concat_eq_append] at hconcat
    have hspeaks : LastSpeaks js messages ↔ (messageText js message ≠ none →
        (∀ other ∈ earlier, messageText js other ≠ none) ∧
          (Speaks js message ∨ ∀ other ∈ earlier, ¬Speaks js other)) := by
      unfold LastSpeaks
      constructor
      · exact fun h => h earlier message hconcat
      · intro h earlier' message' he
        obtain ⟨rfl, hlast⟩ := List.append_inj' (hconcat.symm.trans he) rfl
        obtain rfl := (List.cons.inj hlast).1
        exact h
    rw [hspeaks, turnOf_concat hconcat, hconcat, List.foldlM_append]
    rw [hconcat] at hall
    have hm := hall message (List.mem_append_right _ (List.mem_singleton_self _))
    obtain ⟨hnone, other, ho, hother⟩ | ⟨registers, hsome, hr⟩ :=
      @foldlM_registered js earlier (fun m h => hall m (List.mem_append_left _ h))
    · rw [hnone]
      cases ht : messageText js message with
      | none => simp
      | some text =>
        simp only [Option.bind_eq_bind, Option.bind_none, Option.map_none, Option.map_some, reduceCtorEq, false_iff]
        intro h
        exact (h (by simp)).1 other ho hother
    · rw [hsome]
      cases ht : messageText js message with
      | none => simp [readMessage_assistant hm, ht]
      | some text =>
        have hstep := turn_eq_iff hr ht (registered_concat hr ht) rfl
        simp only [Option.bind_eq_bind, Option.bind_some, List.foldlM_cons, List.foldlM_nil, readMessage_assistant hm,
          ht, Option.map_some, Option.pure_def, Option.some.injEq, hstep]
        simp only [ne_eq, reduceCtorEq, not_false_eq_true, forall_const]
        exact (and_iff_right hr.converted).symm

/-- However the output is cut, the reader's turn is that of its lines, and it is the turn of the whole output exactly
if the last assistant message speaks or none before it did. -/
theorem readChunks_eq_readWhole_iff (js : Runtime) (chunks : List Text) :
    readChunks js chunks = readChunks js [chunks.flatten] ∧
      (readChunks js chunks = readWhole js chunks.flatten ↔
        LastSpeaks js (parseNdjsonMessages js chunks.flatten)) := by
  have hread : readChunks js chunks = ((parseNdjsonMessages js chunks.flatten).foldlM (readMessage js) {}).map
      Registers.turn := by
    rw [readChunks_eq, readLines, foldlM_readLine]
    rfl
  constructor
  · rw [readChunks_eq, readChunks_eq]
    simp
  · rw [hread]
    exact foldlM_eq_turnOf_iff _

def plainRuntime : Runtime := { parse := read, numberText := Numeral.text, isZero := fun literal => literal.text = ['0'] }

def draftThenCall : Text :=
  "\x7b\"type\":\"message_end\",\"message\":\x7b\"role\":\"assistant\",\"content\":".toList ++
    "[\x7b\"type\":\"text\",\"text\":\"draft\"\x7d]\x7d\x7d\n".toList ++
    "\x7b\"type\":\"message_end\",\"message\":\x7b\"role\":\"assistant\",\"content\":".toList ++
    "[\x7b\"type\":\"toolCall\",\"name\":\"read\",\"arguments\":\x7b\x7d\x7d]\x7d\x7d\n".toList

/-- A last message that only calls a tool and reports no usage leaves the reader with the text before it. -/
theorem readChunks_keeps_draft :
    (readChunks plainRuntime [draftThenCall]).map ReadAssistantTurn.text = some "draft".toList ∧
      (readWhole plainRuntime draftThenCall).map ReadAssistantTurn.text = some [] := by
  decide +kernel

end KimchiWorkflows.Host.Transcript
