import KimchiWorkflows.Host.AnsweredRecord
import KimchiWorkflows.Host.FormPages
import Mathlib.Logic.Function.Basic

/-!
What the user chose on each page of a form, and the answers the form keeps of it.
-/

namespace KimchiWorkflows.Host

open KimchiWorkflows.Flow

inductive Choice where
  | picked (value : String)
  | typed (text : String)
  | checked (values : List String)
  | written (text : String)
  deriving DecidableEq

def Choice.value : Choice → Value
  | .picked value => .string value
  | .typed text => .string text
  | .checked values => .array (values.map .string)
  | .written text => .string text

def Choice.selection : Choice → RawSelection
  | .picked value => { option := some value }
  | .typed text => { option := some otherValue, text := some text }
  | .checked values => { options := some values }
  | .written text => { text := some text }

def Choice.checkedValues : Choice → List String
  | .checked values => values
  | _ => []

def Offered (question : Question) (value : String) : Prop :=
  value ∈ (question.options.getD []).map QuestionOption.value

def Suits (question : Question) : Choice → Prop
  | .picked value => question.kind = .single ∧ Offered question value
  | .typed _ => hasOther question = true
  | .checked values => question.kind = .multi ∧ values.Nodup ∧ ∀ value ∈ values, Offered question value
  | .written _ => isText question = true

def typedChoice (question : Question) (text : String) : Choice :=
  if question.kind = .single then .typed text else .written text

/-- What a key means on a page with options, where `earlier` was chosen there before. -/
def optionChoice (question : Question) (index : Nat) (earlier : Option Choice) : FormEvent → Option Choice
  | .keySpace =>
    if question.kind = .multi then (optionsOf question)[index]?.map (fun option =>
      .checked (toggle ((earlier.map Choice.checkedValues).getD []) option.value))
    else none
  | .keyEnter =>
    if question.kind = .multi then some (earlier.getD (.checked []))
    else (optionsOf question)[index]?.bind (fun option =>
      if option.isOther then none else some (.picked option.value))
  | _ => none

def choiceOn (state : FormState) (question : Question) (earlier : Option Choice) : FormEvent → Option Choice
  | .navigate _ text => if isMultiPage state then text.map (typedChoice question) else none
  | .editorSubmit value => some (typedChoice question value)
  | event =>
    if state.inputMode || isText question then none else optionChoice question state.optionIndex earlier event

/-- A form and the last choice made on each of its pages. -/
structure Session where
  form : FormState
  choices : Nat → Option Choice

def Session.chosen (session : Session) (event : FormEvent) : Option Choice :=
  (currentFormQuestion session.form).bind (fun question =>
    choiceOn session.form question (session.choices session.form.currentPage) event)

def Session.after (session : Session) (event : FormEvent) : Session where
  form := (reduceForm session.form event).state
  choices := (session.chosen event).elim session.choices (fun choice =>
    Function.update session.choices session.form.currentPage (some choice))

def Session.step (session : Session) (event : FormEvent) : Option Session :=
  if Dispatches session.form event then some (session.after event) else none

def Session.start (questionnaire : Questionnaire) : Session where
  form := initialFormState questionnaire
  choices := fun _ => none

/-- The keys tell the questions apart and name members of a record, and no option looks like Other. -/
structure Distinguishes (questionnaire : Questionnaire) : Prop where
  keys : (questionnaire.questions.map Question.key).Nodup
  prototype : "__proto__" ∉ questionnaire.questions.map Question.key
  options : ∀ question ∈ questionnaire.questions, question.kind = .single → ¬ Offered question otherValue

structure Tracks (session : Session) : Prop where
  placed : Placed session.form
  answers : ∀ page question, session.form.questionnaire.questions[page]? = some question →
    Dict.get session.form.answers question.key = (session.choices page).map Choice.selection
  suits : ∀ page question, session.form.questionnaire.questions[page]? = some question →
    ∀ choice, session.choices page = some choice → Suits question choice

variable {state : FormState} {question : Question} {event : FormEvent} {session next : Session}

theorem typedSelection_eq (question : Question) (text : String) :
    typedSelection question text = (typedChoice question text).selection := by
  unfold typedSelection typedChoice
  split_ifs
  · rfl
  · rfl

theorem checkedValues_eq (choice : Choice) :
    (choice.selection.options).getD [] = choice.checkedValues := by
  cases choice with
  | picked => rfl
  | typed => rfl
  | checked => rfl
  | written => rfl

theorem recordedChoice_eq {earlier : Option Choice}
    (h : Dict.get state.answers question.key = earlier.map Choice.selection) :
    recordedChoice state question event =
      (optionChoice question state.optionIndex earlier event).map Choice.selection := by
  cases event with
  | keySpace =>
    simp only [recordedChoice, optionChoice, h]
    split_ifs
    · have hc : ((earlier.map Choice.selection).bind RawSelection.options).getD [] =
          (earlier.map Choice.checkedValues).getD [] := by
        cases earlier with
        | none => rfl
        | some choice => exact checkedValues_eq choice
      rw [hc, Option.map_map]
      rfl
    · rfl
  | keyEnter =>
    simp only [recordedChoice, optionChoice, h]
    split_ifs
    · cases earlier with
      | none => rfl
      | some choice => rfl
    · cases (optionsOf question)[state.optionIndex]? with
      | none => rfl
      | some option =>
        simp only [Option.bind_some]
        split_ifs
        · rfl
        · rfl
  | keyUp => rfl
  | keyDown => rfl
  | keyEscape => rfl
  | navigate => rfl
  | editorSubmit => rfl

theorem recorded_eq (event : FormEvent) {earlier : Option Choice}
    (h : Dict.get state.answers question.key = earlier.map Choice.selection) :
    recorded state question event = (choiceOn state question earlier event).map Choice.selection := by
  have hkeys : ∀ event, (if state.inputMode || isText question then none
      else recordedChoice state question event) = (if state.inputMode || isText question then none
      else optionChoice question state.optionIndex earlier event).map Choice.selection := by
    intro event
    split_ifs
    · rfl
    · exact recordedChoice_eq h
  cases event with
  | navigate delta text =>
    simp only [recorded, choiceOn]
    split_ifs
    · cases text with
      | none => rfl
      | some text => exact congrArg some (typedSelection_eq question text)
    · rfl
  | editorSubmit value => simp [recorded, choiceOn, typedSelection_eq]
  | keyUp => exact hkeys _
  | keyDown => exact hkeys _
  | keyEnter => exact hkeys _
  | keyEscape => exact hkeys _
  | keySpace => exact hkeys _

theorem isSome_choiceOn (state : FormState) (question : Question) (earlier : Option Choice) (event : FormEvent) :
    (choiceOn state question earlier event).isSome = (recorded state question event).isSome := by
  have hchoice : (optionChoice question state.optionIndex earlier event).isSome =
      (recordedChoice state question event).isSome := by
    cases event with
    | keySpace =>
      simp only [optionChoice, recordedChoice]
      split_ifs
      · simp
      · rfl
    | keyEnter =>
      simp only [optionChoice, recordedChoice]
      split_ifs
      · simp
      · cases (optionsOf question)[state.optionIndex]? with
        | none => rfl
        | some option => cases ho : option.isOther <;> simp [ho]
    | keyUp => rfl
    | keyDown => rfl
    | keyEscape => rfl
    | navigate => rfl
    | editorSubmit => rfl
  by_cases hk : isKey event = true
  · have hc : choiceOn state question earlier event = if state.inputMode || isText question then none
        else optionChoice question state.optionIndex earlier event := by
      cases event with
      | navigate => simp [isKey] at hk
      | editorSubmit => simp [isKey] at hk
      | _ => rfl
    rw [hc, recorded_of_isKey hk]
    split_ifs
    · rfl
    · exact hchoice
  · cases event with
    | navigate delta text =>
      simp only [choiceOn, recorded]
      split_ifs
      · simp
      · rfl
    | editorSubmit value => rfl
    | keyUp => exact absurd rfl hk
    | keyDown => exact absurd rfl hk
    | keyEnter => exact absurd rfl hk
    | keyEscape => exact absurd rfl hk
    | keySpace => exact absurd rfl hk

theorem offered_of_optionsOf {index : Nat} {option : RenderOption} (h : (optionsOf question)[index]? = some option)
    (ho : option.isOther = false) : Offered question option.value := by
  have hm := List.mem_of_getElem? h
  unfold optionsOf at hm
  split_ifs at hm with ht hother
  · simp at hm
  · obtain hm | hm := List.mem_append.mp hm
    · obtain ⟨plain, hp, rfl⟩ := List.mem_map.mp hm
      exact List.mem_map_of_mem (List.mem_mergeSort.mp hp)
    · rw [List.mem_singleton.mp hm] at ho
      simp at ho
  · rw [List.append_nil] at hm
    obtain ⟨plain, hp, rfl⟩ := List.mem_map.mp hm
    exact List.mem_map_of_mem (List.mem_mergeSort.mp hp)

theorem isOther_eq_false_of_multi (hk : question.kind = .multi) {index : Nat} {option : RenderOption}
    (h : (optionsOf question)[index]? = some option) : option.isOther = false := by
  by_contra ho
  have := hasOther_of_isOther h (by simpa using ho)
  simp [hasOther, hk] at this

theorem toggle_nodup {values : List String} (h : values.Nodup) (value : String) : (toggle values value).Nodup := by
  unfold toggle
  split_ifs with hm
  · exact h.filter _
  · refine List.nodup_append.mpr ⟨h, by simp, ?_⟩
    intro a ha b hb
    rw [List.mem_singleton.mp hb]
    rintro rfl
    exact hm ha

theorem mem_toggle {values : List String} {value other : String} (h : other ∈ toggle values value) :
    other ∈ values ∨ other = value := by
  unfold toggle at h
  split_ifs at h with hm
  · exact .inl (List.mem_of_mem_filter h)
  · simpa using h

theorem suits_typedChoice (h : editable question = true) (text : String) :
    Suits question (typedChoice question text) := by
  unfold typedChoice
  split_ifs with hk
  · change hasOther question = true
    simpa [editable, isText, hk] using h
  · have ht : hasOther question = false := by simp [hasOther, hk]
    change isText question = true
    simpa [editable, ht] using h

theorem suits_optionChoice {index : Nat} {earlier : Option Choice} {choice : Choice}
    (ht : isText question = false) (he : ∀ choice, earlier = some choice → Suits question choice)
    (h : optionChoice question index earlier event = some choice) : Suits question choice := by
  cases event with
  | keySpace =>
    simp only [optionChoice] at h
    split_ifs at h with hk
    · obtain ⟨option, ho, rfl⟩ := Option.map_eq_some_iff.mp h
      have hoffered := offered_of_optionsOf ho (isOther_eq_false_of_multi hk ho)
      have hearlier : ((earlier.map Choice.checkedValues).getD []).Nodup ∧
          ∀ value ∈ (earlier.map Choice.checkedValues).getD [], Offered question value := by
        cases earlier with
        | none => simp
        | some choice =>
          have hs := he choice rfl
          cases choice with
          | checked values => exact hs.2
          | picked => simp [Choice.checkedValues]
          | typed => simp [Choice.checkedValues]
          | written => simp [Choice.checkedValues]
      refine ⟨hk, toggle_nodup hearlier.1 _, ?_⟩
      intro value hv
      obtain hv | rfl := mem_toggle hv
      · exact hearlier.2 value hv
      · exact hoffered
  | keyEnter =>
    simp only [optionChoice] at h
    split_ifs at h with hk
    · cases earlier with
      | none =>
        rw [Option.getD_none, Option.some_inj] at h
        subst h
        exact ⟨hk, List.nodup_nil, by simp⟩
      | some earlier =>
        rw [Option.getD_some, Option.some_inj] at h
        subst h
        exact he earlier rfl
    · obtain ⟨option, ho, h⟩ := Option.bind_eq_some_iff.mp h
      split_ifs at h with hother
      rw [Option.some_inj] at h
      subst h
      refine ⟨?_, offered_of_optionsOf ho (by simpa using hother)⟩
      cases hkind : question.kind with
      | single => rfl
      | multi => exact absurd hkind hk
      | text => simp [isText, hkind] at ht
      | chat => simp [isText, hkind] at ht
  | keyUp => simp [optionChoice] at h
  | keyDown => simp [optionChoice] at h
  | keyEscape => simp [optionChoice] at h
  | navigate => simp [optionChoice] at h
  | editorSubmit => simp [optionChoice] at h

theorem suits_choiceOn {earlier : Option Choice} {choice : Choice} (hp : Placed state)
    (hd : Dispatches state event = true) (hq : currentFormQuestion state = some question)
    (he : ∀ choice, earlier = some choice → Suits question choice)
    (h : choiceOn state question earlier event = some choice) : Suits question choice := by
  have hedit : state.inputMode = true → editable question = true := by
    intro hmode
    obtain ⟨other, ho, he⟩ := hp.editing hmode
    rw [hq, Option.some_inj] at ho
    exact ho ▸ he
  have hkeys : ∀ event, (if state.inputMode || isText question then none
      else optionChoice question state.optionIndex earlier event) = some choice → Suits question choice := by
    intro event h
    split_ifs at h with hmode
    simp only [Bool.or_eq_true, not_or, Bool.not_eq_true] at hmode
    exact suits_optionChoice hmode.2 he h
  cases event with
  | navigate delta text =>
    simp only [choiceOn] at h
    split_ifs at h with hm
    obtain ⟨text, rfl, rfl⟩ := Option.map_eq_some_iff.mp h
    have hmode : state.inputMode = true := by
      by_contra hmode
      simp [Dispatches, hmode] at hd
    exact suits_typedChoice (hedit hmode) text
  | editorSubmit value =>
    rw [choiceOn, Option.some_inj] at h
    subst h
    exact suits_typedChoice (hedit hd) value
  | keyUp => exact hkeys _ h
  | keyDown => exact hkeys _ h
  | keyEnter => exact hkeys _ h
  | keyEscape => exact hkeys _ h
  | keySpace => exact hkeys _ h

theorem session_step_eq_some (h : session.step event = some next) :
    Dispatches session.form event = true ∧ next = session.after event := by
  unfold Session.step at h
  split_ifs at h with hd
  exact ⟨hd, (Option.some.inj h).symm⟩

theorem chosen_eq (hq : currentFormQuestion session.form = some question) : session.chosen event =
    choiceOn session.form question (session.choices session.form.currentPage) event := by
  simp [Session.chosen, hq]

theorem after_choices_of_ne {page : Nat} (h : page ≠ session.form.currentPage) :
    (session.after event).choices page = session.choices page := by
  simp only [Session.after]
  cases session.chosen event with
  | none => rfl
  | some choice => exact Function.update_of_ne h _ _

theorem after_choices_self : (session.after event).choices session.form.currentPage =
    (session.chosen event).or (session.choices session.form.currentPage) := by
  simp only [Session.after]
  cases session.chosen event with
  | none => rfl
  | some choice => exact Function.update_self _ _ _

theorem after_questionnaire (hp : Placed session.form) (hd : Dispatches session.form event = true) :
    (session.after event).form.questionnaire = session.form.questionnaire :=
  (reduceForm_turns hp hd).questionnaire

theorem after_answers (hp : Placed session.form) (hd : Dispatches session.form event = true) :
    (session.after event).form.answers = recordedAnswers session.form event :=
  (reduceForm_turns hp hd).answers

theorem key_ne_of_page_ne {questions : List Question} (h : (questions.map Question.key).Nodup) {page other : Nat}
    {question otherQuestion : Question} (hq : questions[page]? = some question)
    (ho : questions[other]? = some otherQuestion) (hne : page ≠ other) : question.key ≠ otherQuestion.key := by
  intro hkey
  have hlt := (List.getElem?_eq_some_iff.mp hq).1
  apply hne
  have hlt' : page < (questions.map Question.key).length := by simpa using hlt
  refine (List.getElem?_inj hlt' h).mp ?_
  simp [hq, ho, hkey]

theorem tracks_after (h : Tracks session) (hk : (session.form.questionnaire.questions.map Question.key).Nodup)
    (hd : Dispatches session.form event = true) : Tracks (session.after event) := by
  have hturns := reduceForm_turns h.placed hd
  have hquestions := after_questionnaire h.placed hd
  refine ⟨hturns.placed (placed_noted h.placed event), ?_, ?_⟩
  · intro page question hq
    rw [hquestions] at hq
    rw [after_answers h.placed hd]
    have hold := h.answers page question hq
    cases hcurrent : currentFormQuestion session.form with
    | none =>
      have hchoices : (session.after event).choices = session.choices := by
        simp [Session.after, Session.chosen, hcurrent]
      rw [hchoices, recordedAnswers_of_none (by simp [hcurrent])]
      exact hold
    | some current =>
      have hrecorded := recorded_eq event (h.answers session.form.currentPage current hcurrent)
      rw [← chosen_eq hcurrent] at hrecorded
      simp only [recordedAnswers, hcurrent, Option.bind_some, hrecorded, Option.map_map]
      by_cases hpage : page = session.form.currentPage
      · subst hpage
        obtain rfl : current = question := by
          rw [currentFormQuestion, hq, Option.some_inj] at hcurrent
          exact hcurrent.symm
        rw [after_choices_self]
        cases session.chosen event with
        | none => simpa using hold
        | some choice => simp
      · rw [after_choices_of_ne hpage]
        have hne := key_ne_of_page_ne hk hq hcurrent hpage
        cases session.chosen event with
        | none => simpa using hold
        | some choice => simpa [Dict.get_set_of_ne hne] using hold
  · intro page question hq choice hc
    rw [hquestions] at hq
    by_cases hpage : page = session.form.currentPage
    · subst hpage
      rw [after_choices_self] at hc
      obtain hc | ⟨-, hc⟩ := Option.or_eq_some_iff.mp hc
      · rw [chosen_eq hq] at hc
        exact suits_choiceOn h.placed hd hq (h.suits _ _ hq) hc
      · exact h.suits _ _ hq choice hc
    · rw [after_choices_of_ne hpage] at hc
      exact h.suits page question hq choice hc

theorem tracks_start (questionnaire : Questionnaire) (h : questionnaire.questions ≠ []) :
    Tracks (Session.start questionnaire) where
  placed := placed_initialFormState questionnaire h
  answers := by intros; rfl
  suits := by
    intro page question _ choice hc
    exact absurd hc (by simp [Session.start])

theorem last_of_mem {entries : List (String × Value)} (hd : (entries.map Prod.fst).Nodup) {key : String}
    {value : Value} (h : (key, value) ∈ entries) : Dict.last entries key = some value := by
  obtain ⟨other, ho⟩ := Dict.last_isSome_of_mem h
  have hget := Dict.get_of_mem hd (Dict.mem_of_last ho)
  rw [Dict.get_of_mem hd h] at hget
  rw [ho, hget]

theorem assembleOne_selection {choice : Choice} (hs : Suits question choice)
    (ho : question.kind = .single → ¬ Offered question otherValue) :
    assembleOne question choice.selection = choice.value := by
  cases choice with
  | picked value =>
    have hne : value ≠ otherValue := by
      rintro rfl
      exact ho hs.1 hs.2
    simp [assembleOne, Choice.selection, Choice.value, hs.1, hne]
  | typed text =>
    have hk : question.kind = .single := by
      have ho : hasOther question = true := hs
      simp only [hasOther, Bool.and_eq_true, decide_eq_true_eq] at ho
      exact ho.1
    simp [assembleOne, Choice.selection, Choice.value, hk]
  | checked values => simp [assembleOne, Choice.selection, Choice.value, hs.1]
  | written text =>
    have ht : isText question = true := hs
    cases hk : question.kind with
    | text => simp [assembleOne, Choice.selection, Choice.value, hk]
    | chat => simp [assembleOne, Choice.selection, Choice.value, hk]
    | single => simp [isText, hk] at ht
    | multi => simp [isText, hk] at ht

theorem get_formAnswers (h : Tracks session)
    (hk : (session.form.questionnaire.questions.map Question.key).Nodup) (hproto : question.key ≠ "__proto__")
    {page : Nat} (hq : session.form.questionnaire.questions[page]? = some question) {choice : Choice}
    (hc : session.choices page = some choice) :
    Dict.get (formAnswers session.form) question.key = some (assembleOne question choice.selection) := by
  have hselection : Dict.get session.form.answers question.key = some choice.selection := by
    rw [h.answers page question hq, hc, Option.map_some]
  rw [formAnswers, assembleAnswers, get_foldl_assign _ _ _ _ hproto, Dict.get_nil, Option.or_none]
  refine last_of_mem ?_ ?_
  · rw [List.map_map]
    exact hk
  · refine List.mem_map.mpr ⟨question, List.mem_of_getElem? hq, ?_⟩
    rw [hselection, Option.getD_some]

end KimchiWorkflows.Host
