import KimchiWorkflows.Host.AnswerAssembly
import KimchiWorkflows.Host.AnswerCompletion
import KimchiWorkflows.Host.QuestionnaireForm

namespace KimchiWorkflows.Host

open KimchiWorkflows.Flow KimchiWorkflows.Engine

/-- The dialogs of a host, which may keep a state of their own. -/
structure DialogUI (σ : Type) where
  select : String → List String → σ → Option String × σ
  confirm : String → String → σ → Bool × σ
  input : String → String → σ → Option String × σ

/-- A selection is one of the labels that were shown. -/
def DialogUI.Lawful {σ : Type} (ui : DialogUI σ) : Prop :=
  ∀ title labels state picked, (ui.select title labels state).1 = some picked → picked ∈ labels

def questionTitle (question : Question) : String :=
  match question.section_ with
  | some section_ => if section_ = "" then question.question else section_ ++ " — " ++ question.question
  | none => question.question

def optionLabel (option : QuestionOption) : String :=
  option.label ++ (if option.recommended = some true then " (recommended)" else "") ++
    (option.description.elim "" (fun description => if description = "" then "" else " — " ++ description))

def labelsOf (question : Question) : List String :=
  (orderedOptions question).map optionLabel ++ if question.allowOther = some true then [otherLabel] else []

section Dialogs

variable {σ : Type} (ui : DialogUI σ)

def collectSingle (question : Question) (state : σ) : Option RawSelection × σ :=
  match ui.select (questionTitle question) (labelsOf question) state with
  | (none, after) => (none, after)
  | (some picked, after) =>
    if question.allowOther = some true ∧ picked = otherLabel then
      match ui.input (question.header ++ ": other") "type your answer" after with
      | (none, last) => (none, last)
      | (some text, last) => (some { option := some otherValue, text := some text }, last)
    else
      let option := (orderedOptions question)[(labelsOf question).idxOf picked]?
      (some { option := some ((option.map QuestionOption.value).getD picked) }, after)

def collectText (question : Question) (state : σ) : Option RawSelection × σ :=
  match ui.input (questionTitle question) question.header state with
  | (none, after) => (none, after)
  | (some text, after) => (some { text := some text }, after)

def collectChosen (question : Question) : List QuestionOption → σ → List String × σ
  | [], state => ([], state)
  | option :: rest, state =>
    let answer := ui.confirm (questionTitle question) ("Include \"" ++ optionLabel option ++ "\"?") state
    let chosen := collectChosen question rest answer.2
    (if answer.1 then option.value :: chosen.1 else chosen.1, chosen.2)

def collectMulti (question : Question) (state : σ) : Option RawSelection × σ :=
  let chosen := collectChosen ui question (orderedOptions question) state
  (some { options := some chosen.1 }, chosen.2)

def collectOne (question : Question) (state : σ) : Option RawSelection × σ :=
  match question.kind with
  | .single => collectSingle ui question state
  | .multi => collectMulti ui question state
  | .text => collectText ui question state
  | .chat => collectText ui question state

def collectRaw : List Question → RawSelections → σ → Option RawSelections × σ
  | [], raw, state => (some raw, state)
  | question :: rest, raw, state =>
    match collectOne ui question state with
    | (none, after) => (none, after)
    | (some selection, after) => collectRaw rest (Dict.set raw question.key selection) after

def collectViaDialogs (questions : List Question) (state : σ) : Option Record × σ :=
  let collected := collectRaw ui questions [] state
  (collected.1.map (assembleAnswers questions), collected.2)

end Dialogs

/-- No two options of a question show the same label, and none shows that of Other. -/
def LabelsTell (question : Question) : Prop :=
  ((question.options.getD []).map optionLabel).Nodup ∧
    (question.allowOther = some true → otherLabel ∉ (question.options.getD []).map optionLabel)

variable {σ : Type} {ui : DialogUI σ} {question : Question} {selection : RawSelection} {state : σ}

theorem collectChosen_sublist (options : List QuestionOption) (state : σ) :
    (collectChosen ui question options state).1.Sublist (options.map QuestionOption.value) := by
  induction options generalizing state with
  | nil => exact List.Sublist.refl _
  | cons option rest ih =>
    simp only [collectChosen, List.map_cons]
    split_ifs
    · exact (ih _).cons_cons _
    · exact (ih _).cons _

theorem option_at_label {picked : String} (hp : picked ∈ labelsOf question)
    (hn : ¬(question.allowOther = some true ∧ picked = otherLabel)) :
    ∃ option ∈ orderedOptions question,
      (orderedOptions question)[(labelsOf question).idxOf picked]? = some option ∧ optionLabel option = picked := by
  have hm : picked ∈ (orderedOptions question).map optionLabel := by
    obtain hm | hm := List.mem_append.mp hp
    · exact hm
    · split_ifs at hm with ho
      · exact absurd ⟨ho, List.mem_singleton.mp hm⟩ hn
      · cases hm
  have hidx : (labelsOf question).idxOf picked = ((orderedOptions question).map optionLabel).idxOf picked :=
    List.idxOf_append_of_mem hm
  have hlt : ((orderedOptions question).map optionLabel).idxOf picked < (orderedOptions question).length := by
    have := List.idxOf_lt_length_of_mem hm
    simpa using this
  refine ⟨(orderedOptions question)[((orderedOptions question).map optionLabel).idxOf picked], List.getElem_mem _, ?_, ?_⟩
  · rw [hidx]
    exact List.getElem?_eq_getElem hlt
  · have hat := List.getElem_idxOf (List.idxOf_lt_length_of_mem hm)
    rw [List.getElem_map] at hat
    exact hat

theorem offers_of_collectSingle (hl : ui.Lawful) (hk : question.kind = .single)
    (h : (collectSingle ui question state).1 = some selection) : Offers question selection := by
  simp only [Offers, hk]
  unfold collectSingle at h
  split at h
  · cases h
  · rename_i picked after hs
    have hpicked := hl _ _ _ _ (congrArg Prod.fst hs)
    split_ifs at h with hother
    · split at h
      · cases h
      · rename_i text last hi
        cases h
        exact .inr ⟨hother.1, text, rfl⟩
    · obtain ⟨option, hm, hat, -⟩ := option_at_label hpicked hother
      rw [hat] at h
      cases h
      exact .inl ⟨option, hm, rfl⟩

theorem offers_of_collectOne (hl : ui.Lawful) (h : (collectOne ui question state).1 = some selection) :
    Offers question selection := by
  unfold collectOne at h
  split at h
  · rename_i hk
    exact offers_of_collectSingle hl hk h
  · rename_i hk
    cases h
    simp only [Offers, hk]
    exact ⟨_, collectChosen_sublist _ _, rfl⟩
  · rename_i hk
    unfold collectText at h
    split at h
    · cases h
    · rename_i text after hi
      cases h
      simp only [Offers, hk]
      exact ⟨text, rfl⟩
  · rename_i hk
    unfold collectText at h
    split at h
    · cases h
    · rename_i text after hi
      cases h
      simp only [Offers, hk]
      exact ⟨text, rfl⟩

theorem offers_of_collectRaw (hl : ui.Lawful) (questions : List Question) (raw collected : RawSelections) (state : σ)
    (h : (collectRaw ui questions raw state).1 = some collected) :
    ∃ selections, List.Forall₂ Offers questions selections ∧
      collected = (questions.zip selections).foldl (fun raw entry => Dict.set raw entry.1.key entry.2) raw := by
  induction questions generalizing raw state with
  | nil =>
    cases h
    exact ⟨[], .nil, rfl⟩
  | cons question rest ih =>
    rw [collectRaw] at h
    split at h
    · cases h
    · rename_i selection after hone
      obtain ⟨selections, hf, rfl⟩ := ih _ _ h
      exact ⟨selection :: selections, .cons (offers_of_collectOne hl (congrArg Prod.fst hone)) hf, rfl⟩

inductive DialogReply where
  | text (text : String)
  | yes (yes : Bool)

/-- Dialogs that are replied to by a script; what does not fit is dismissed. -/
def scripted : DialogUI (List DialogReply) where
  select _ labels
    | .text text :: rest => (if text ∈ labels then some text else none, rest)
    | replies => (none, replies.tail)
  confirm _ _
    | .yes yes :: rest => (yes, rest)
    | replies => (false, replies.tail)
  input _ _
    | .text text :: rest => (some text, rest)
    | replies => (none, replies.tail)

theorem scripted_lawful : scripted.Lawful := by
  intro title labels state picked h
  simp only [scripted] at h
  split at h
  · split_ifs at h with hm
    · cases h
      exact hm
  · cases h

/-- Dialogs answer a questionnaire with one capture they offer for each question, or with nothing. -/
theorem dialogs_offer (ui : DialogUI σ) (hl : ui.Lawful) (questions : List Question) (state : σ) :
    ∀ answers, (collectViaDialogs ui questions state).1 = some answers →
      ∃ selections, List.Forall₂ Offers questions selections ∧
        answers = assembleAnswers questions (Host.collected questions selections) := by
  intro answers h
  obtain ⟨raw, hraw, rfl⟩ := Option.map_eq_some_iff.mp h
  obtain ⟨selections, hf, rfl⟩ := offers_of_collectRaw hl questions [] raw state hraw
  exact ⟨selections, hf, rfl⟩

def releaseReplies : List DialogReply :=
  [.text otherLabel, .text "canary", .yes false, .yes true, .text "after lunch"]

def releaseAnswers : Record :=
  [("target", .string "canary"), ("checks", .array [.string "tests"]), ("note", .string "after lunch")]

theorem dialogs_offer_releasing :
    scripted.Lawful ∧ (collectViaDialogs scripted releasing.questions releaseReplies).1 = some releaseAnswers ∧
      ∃ selections, List.Forall₂ Offers releasing.questions selections ∧
        releaseAnswers = assembleAnswers releasing.questions (Host.collected releasing.questions selections) := by
  have hc : (collectViaDialogs scripted releasing.questions releaseReplies).1 = some releaseAnswers := by
    simp [releasing, releaseReplies, collectViaDialogs, collectRaw, collectOne, collectSingle, collectMulti, collectText,
      collectChosen, scripted, labelsOf, orderedOptions, List.mergeSort_of_pairwise, optionRank]
    rfl
  exact ⟨scripted_lawful, hc, dialogs_offer scripted scripted_lawful _ releaseReplies _ hc⟩

theorem orderedOptions_labels (question : Question) :
    ((orderedOptions question).map optionLabel).Perm ((question.options.getD []).map optionLabel) :=
  (List.mergeSort_perm _ _).map _

theorem option_at_own_label (hd : LabelsTell question) {option : QuestionOption} (hm : option ∈ orderedOptions question) :
    optionLabel option ∈ labelsOf question ∧ ¬(question.allowOther = some true ∧ optionLabel option = otherLabel) ∧
      (orderedOptions question)[(labelsOf question).idxOf (optionLabel option)]? = some option := by
  have hlabel : optionLabel option ∈ (orderedOptions question).map optionLabel := List.mem_map_of_mem hm
  have hin : optionLabel option ∈ labelsOf question := List.mem_append_left _ hlabel
  have hother : ¬(question.allowOther = some true ∧ optionLabel option = otherLabel) := by
    rintro ⟨ho, he⟩
    exact hd.2 ho (he ▸ (orderedOptions_labels question).subset hlabel)
  obtain ⟨found, hfound, hat, hl⟩ := option_at_label hin hother
  have hnodup := (orderedOptions_labels question).nodup_iff.mpr hd.1
  exact ⟨hin, hother, hat.trans (congrArg some (List.inj_on_of_nodup_map hnodup hfound hm hl))⟩

theorem scripted_single (hd : LabelsTell question) (hk : question.kind = .single) (h : Offers question selection) :
    ∃ replies, ∀ rest, collectSingle scripted question (replies ++ rest) = (some selection, rest) := by
  simp only [Offers, hk] at h
  obtain ⟨option, hm, rfl⟩ | ⟨ho, text, rfl⟩ := h
  · obtain ⟨hin, hother, hat⟩ := option_at_own_label hd hm
    refine ⟨[.text (optionLabel option)], ?_⟩
    intro rest
    have hs : scripted.select (questionTitle question) (labelsOf question)
        ([.text (optionLabel option)] ++ rest) = (some (optionLabel option), rest) := by
      simp [scripted, hin]
    rw [collectSingle, hs]
    simp only [if_neg hother, hat]
    rfl
  · have hin : otherLabel ∈ labelsOf question := by
      rw [labelsOf, if_pos ho]
      exact List.mem_append_right _ (List.mem_singleton_self _)
    refine ⟨[.text otherLabel, .text text], ?_⟩
    intro rest
    have hs : scripted.select (questionTitle question) (labelsOf question)
        ([.text otherLabel, .text text] ++ rest) = (some otherLabel, .text text :: rest) := by
      simp [scripted, hin]
    rw [collectSingle, hs]
    simp [ho, scripted]

theorem scripted_chosen (question : Question) (options : List QuestionOption) (chosen : List String)
    (h : chosen.Sublist (options.map QuestionOption.value)) :
    ∃ replies, ∀ rest, collectChosen scripted question options (replies ++ rest) = (chosen, rest) := by
  induction options generalizing chosen with
  | nil =>
    rw [List.map_nil, List.sublist_nil] at h
    exact ⟨[], fun rest => by rw [h]; rfl⟩
  | cons option rest ih =>
    rw [List.map_cons] at h
    cases h with
    | cons _ hs =>
      obtain ⟨replies, hr⟩ := ih chosen hs
      refine ⟨.yes false :: replies, fun after => ?_⟩
      have hnext : scripted.confirm (questionTitle question) ("Include \"" ++ optionLabel option ++ "\"?")
          (.yes false :: replies ++ after) = (false, replies ++ after) := rfl
      simp only [collectChosen, hnext, hr after]
      rfl
    | cons_cons _ hs =>
      obtain ⟨replies, hr⟩ := ih _ hs
      refine ⟨.yes true :: replies, fun after => ?_⟩
      have hnext : scripted.confirm (questionTitle question) ("Include \"" ++ optionLabel option ++ "\"?")
          (.yes true :: replies ++ after) = (true, replies ++ after) := rfl
      simp only [collectChosen, hnext, hr after]
      rfl

theorem scripted_one (hd : LabelsTell question) (h : Offers question selection) :
    ∃ replies, ∀ rest, collectOne scripted question (replies ++ rest) = (some selection, rest) := by
  have htext : ∀ text, ∃ replies, ∀ rest, collectText scripted question (replies ++ rest) =
      (some { text := some text }, rest) := fun text => ⟨[.text text], fun rest => rfl⟩
  unfold collectOne
  cases hk : question.kind with
  | single => exact scripted_single hd hk h
  | multi =>
    simp only [Offers, hk] at h
    obtain ⟨chosen, hs, rfl⟩ := h
    obtain ⟨replies, hr⟩ := scripted_chosen question (orderedOptions question) chosen hs
    refine ⟨replies, fun rest => ?_⟩
    simp only [collectMulti, hr rest]
  | text =>
    simp only [Offers, hk] at h
    obtain ⟨text, rfl⟩ := h
    exact htext text
  | chat =>
    simp only [Offers, hk] at h
    obtain ⟨text, rfl⟩ := h
    exact htext text

theorem scripted_raw (questions : List Question) (selections : List RawSelection) (raw : RawSelections)
    (hd : ∀ question ∈ questions, LabelsTell question) (h : List.Forall₂ Offers questions selections) :
    ∃ replies, (collectRaw scripted questions raw replies).1 =
      some ((questions.zip selections).foldl (fun raw entry => Dict.set raw entry.1.key entry.2) raw) := by
  induction h generalizing raw with
  | nil => exact ⟨[], rfl⟩
  | @cons question selection rest selections ho _ ih =>
    rw [List.forall_mem_cons] at hd
    obtain ⟨first, hfirst⟩ := scripted_one hd.1 ho
    obtain ⟨replies, hr⟩ := ih (Dict.set raw question.key selection) hd.2
    refine ⟨first ++ replies, ?_⟩
    rw [collectRaw, hfirst replies]
    exact hr

/-- The dialogs can complete a step that derives its questions from its schema exactly if some of the captures they
offer do, as long as no two labels of a question are the same. -/
theorem canComplete_iff_dialogs (validator : Validator) (name : String) (outputSchema : TSchema)
    (hd : ∀ question ∈ (questionnaireFromSchema outputSchema).questions, LabelsTell question) :
    CanComplete validator name outputSchema ↔
      ∃ (σ : Type) (ui : DialogUI σ) (state : σ) (answers : Record), ui.Lawful ∧
        (collectViaDialogs ui (questionnaireFromSchema outputSchema).questions state).1 = some answers ∧
        ∃ output, answerQuestionnaireStep { name := name, outputSchema := outputSchema.schema validator } answers =
          .ok output := by
  constructor
  · rintro ⟨selections, hf, hok⟩
    obtain ⟨replies, hr⟩ := scripted_raw _ selections [] hd hf
    exact ⟨_, scripted, replies, _, scripted_lawful, by rw [collectViaDialogs, hr]; rfl, hok⟩
  · rintro ⟨σ, ui, state, answers, hl, hc, hok⟩
    obtain ⟨raw, hraw, rfl⟩ := Option.map_eq_some_iff.mp hc
    obtain ⟨selections, hf, rfl⟩ := offers_of_collectRaw hl _ [] raw state hraw
    exact ⟨selections, hf, hok⟩

theorem labelsTell_of_allowOther (hn : question.allowOther = none)
    (hd : ((question.options.getD []).map optionLabel).Nodup) : LabelsTell question :=
  ⟨hd, fun ho => by rw [hn] at ho; cases ho⟩

theorem canComplete_iff_dialogs_greeting :
    CanComplete checker "form" greeting ↔
      ∃ (σ : Type) (ui : DialogUI σ) (state : σ) (answers : Record), ui.Lawful ∧
        (collectViaDialogs ui (questionnaireFromSchema greeting).questions state).1 = some answers ∧
        ∃ output, answerQuestionnaireStep { name := "form", outputSchema := greeting.schema checker } answers =
          .ok output :=
  canComplete_iff_dialogs checker "form" greeting (by
    simp only [questionnaireFromSchema, greeting, objectProperties, List.flatMap_cons, List.flatMap_nil, questionsOf,
      Property.field, isObjectSchema, Bool.false_eq_true, if_false, List.cons_append, List.nil_append,
      List.forall_mem_cons]
    refine ⟨labelsTell_of_allowOther rfl List.nodup_nil, labelsTell_of_allowOther rfl ?_, by simp⟩
    decide)

end KimchiWorkflows.Host
