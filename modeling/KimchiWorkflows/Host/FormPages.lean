import KimchiWorkflows.Host.QuestionnaireForm

namespace KimchiWorkflows.Host

open KimchiWorkflows.Flow

def editable (question : Question) : Bool := isText question || hasOther question

structure Placed (state : FormState) : Prop where
  page : state.currentPage < state.questionnaire.questions.length ∨ isSubmitPage state = true
  focus : state.optionIndex ≤ (currentFormOptions state).length - 1
  editing : state.inputMode = true → ∃ question, currentFormQuestion state = some question ∧ editable question = true

def recordedChoice (state : FormState) (question : Question) : FormEvent → Option RawSelection
  | .keySpace =>
    if question.kind = .multi then (optionsOf question)[state.optionIndex]?.map (fun option =>
      { options := some (toggle
          (((Dict.get state.answers question.key).bind RawSelection.options).getD []) option.value) })
    else none
  | .keyEnter =>
    if question.kind = .multi then some ((Dict.get state.answers question.key).getD { options := some [] })
    else (optionsOf question)[state.optionIndex]?.bind (fun option =>
      if option.isOther then none else some { option := some option.value })
  | _ => none

def recorded (state : FormState) (question : Question) : FormEvent → Option RawSelection
  | .navigate _ text => if isMultiPage state then text.map (typedSelection question) else none
  | .editorSubmit value => some (typedSelection question value)
  | event => if state.inputMode || isText question then none else recordedChoice state question event

def recordedAnswers (state : FormState) (event : FormEvent) : RawSelections :=
  ((currentFormQuestion state).bind (fun question =>
    (recorded state question event).map (Dict.set state.answers question.key))).getD state.answers

def noted (state : FormState) (event : FormEvent) : FormState :=
  { state with answers := recordedAnswers state event }

def PageOf (state : FormState) (page : Nat) : Prop :=
  page < state.questionnaire.questions.length ∨
    (isMultiPage state = true ∧ page = state.questionnaire.questions.length)

/-- The form is left on its page, with the focus or the editor changed, or another page is entered. -/
inductive Turns (state : FormState) : FormState → Prop where
  | stays (index : Nat) (mode : Bool) (hindex : index ≤ (currentFormOptions state).length - 1)
      (hmode : mode = true → ∃ question, currentFormQuestion state = some question ∧ editable question = true) :
      Turns state { state with optionIndex := index, inputMode := mode }
  | enters (page : Nat) (hpage : PageOf state page) : Turns state (enterPage state page).state

variable {state next : FormState} {question : Question} {event : FormEvent}

theorem currentPage_lt (h : currentFormQuestion state = some question) :
    state.currentPage < state.questionnaire.questions.length :=
  (List.getElem?_eq_some_iff.mp h).1

theorem isSubmitPage_eq_false (h : state.currentPage < state.questionnaire.questions.length) :
    isSubmitPage state = false := by
  have hne : state.currentPage ≠ state.questionnaire.questions.length := by omega
  simp [isSubmitPage, hne]

theorem currentFormQuestion_eq_none (h : isSubmitPage state = true) : currentFormQuestion state = none := by
  apply List.getElem?_eq_none
  simp only [isSubmitPage, Bool.and_eq_true, decide_eq_true_eq] at h
  omega

theorem Placed.pageOf (h : Placed state) : PageOf state state.currentPage := by
  refine h.page.imp_right ?_
  intro hs
  simpa [isSubmitPage] using hs

theorem editable_of_isTextQuestion (h : isTextQuestion (some question) = true) : editable question = true := by
  have ht : isText question = true := h
  simp [editable, ht]

theorem Turns.placed (h : Turns state next) (hp : Placed state) : Placed next := by
  cases h with
  | stays index mode hindex hmode => exact ⟨hp.page, hindex, hmode⟩
  | enters page hpage =>
    refine ⟨?_, Nat.zero_le _, ?_⟩
    · refine hpage.imp_right ?_
      rintro ⟨hm, rfl⟩
      have hm' : isMultiPage (enterPage state state.questionnaire.questions.length).state = true := hm
      simp only [isSubmitPage, hm', Bool.true_and, decide_eq_true_eq]
      rfl
    · intro hmode
      obtain ⟨question, hq, ht⟩ := (Option.any_eq_true _ _).mp hmode
      exact ⟨question, hq, editable_of_isTextQuestion ht⟩

theorem Turns.answers (h : Turns state next) : next.answers = state.answers := by
  cases h with
  | stays => rfl
  | enters => rfl

theorem Turns.questionnaire (h : Turns state next) : next.questionnaire = state.questionnaire := by
  cases h with
  | stays => rfl
  | enters => rfl

theorem Placed.turns (h : Placed state) : Turns state state :=
  .stays state.optionIndex state.inputMode h.focus h.editing

theorem placed_noted (h : Placed state) (event : FormEvent) : Placed (noted state event) :=
  ⟨h.page, h.focus, h.editing⟩

theorem noted_eq (h : recordedAnswers state event = state.answers) : noted state event = state := by
  rw [noted, h]

theorem withAnswer_eq_noted {selection : RawSelection} (hq : currentFormQuestion state = some question)
    (hr : recorded state question event = some selection) :
    withAnswer state question.key selection = noted state event := by
  simp [withAnswer, noted, recordedAnswers, hq, hr]

theorem recordedAnswers_of_none (h : ∀ question, currentFormQuestion state = some question →
    recorded state question event = none) : recordedAnswers state event = state.answers := by
  unfold recordedAnswers
  cases hq : currentFormQuestion state with
  | none => rfl
  | some question => simp [h question hq]

theorem navigate_turns (h : Placed state) (hm : isMultiPage state = true) (delta : Delta) :
    Turns state (navigate state delta).state := by
  simp only [navigate]
  split_ifs with hpage
  · exact h.turns
  · apply Turns.enters
    have hle := Nat.min_le_left state.questionnaire.questions.length (delta.moved state.currentPage)
    obtain hlt | heq := Nat.lt_or_eq_of_le hle
    · exact .inl hlt
    · exact .inr ⟨hm, heq⟩

theorem advanceAfterAnswer_turns (h : Placed state) (effects : List FormEffect) :
    Turns state (advanceAfterAnswer state effects).state := by
  simp only [advanceAfterAnswer]
  split_ifs with hm hpage
  · exact .enters _ (.inl (by omega))
  · exact .enters _ (.inr ⟨hm, rfl⟩)
  · exact h.turns

theorem enterTextMode_turns (h : Placed state) (hq : currentFormQuestion state = some question)
    (he : editable question = true) : Turns state (enterTextMode state question).state :=
  .stays state.optionIndex true h.focus (fun _ => ⟨question, hq, he⟩)

@[simp] theorem isMultiPage_keepText (state : FormState) (text : String) :
    isMultiPage (keepText state text) = isMultiPage state := by
  unfold keepText
  cases currentFormQuestion state
  · rfl
  · rfl

theorem submit_turns (h : Placed state) (effects : List FormEffect) :
    Turns state (advanceAfterAnswer { state with inputMode := false } effects).state := by
  simp only [advanceAfterAnswer]
  split_ifs with hm hpage
  · exact .enters _ (.inl (by omega))
  · exact .enters _ (.inr ⟨hm, rfl⟩)
  · exact .stays _ false h.focus (by simp)

theorem keepText_eq_noted (state : FormState) (event : FormEvent) {text : String}
    (hr : ∀ question, recorded state question event = some (typedSelection question text)) :
    keepText state text = noted state event := by
  unfold keepText
  cases hq : currentFormQuestion state with
  | none =>
    refine (noted_eq (recordedAnswers_of_none ?_)).symm
    simp [hq]
  | some question => exact withAnswer_eq_noted hq (hr question)

theorem hasOther_of_isOther {index : Nat} {option : RenderOption} (h : (optionsOf question)[index]? = some option)
    (ho : option.isOther = true) : hasOther question = true := by
  have hm := List.mem_of_getElem? h
  unfold optionsOf at hm
  split_ifs at hm with ht hother
  · simp at hm
  · exact hother
  · simp only [List.append_nil, List.mem_map] at hm
    obtain ⟨plain, -, rfl⟩ := hm
    simp at ho

theorem reduceChoice_turns (h : Placed state) (hq : currentFormQuestion state = some question)
    (hr : recorded state question event = recordedChoice state question event) :
    Turns (noted state event) (reduceChoice state question event).state := by
  have hoptions : currentFormOptions state = optionsOf question := by simp [currentFormOptions, hq]
  have hn : recordedChoice state question event = none → noted state event = state := by
    intro hnone
    refine noted_eq (recordedAnswers_of_none ?_)
    intro other ho
    rw [hq, Option.some_inj] at ho
    subst ho
    rw [hr, hnone]
  have hw : ∀ selection, recordedChoice state question event = some selection →
      withAnswer state question.key selection = noted state event :=
    fun selection hs => withAnswer_eq_noted hq (hr.trans hs)
  have hp := placed_noted h event
  cases event with
  | keyUp =>
    rw [hn rfl]
    refine .stays (state.optionIndex - 1) state.inputMode ?_ h.editing
    have := h.focus
    omega
  | keyDown =>
    rw [hn rfl]
    refine .stays (min ((optionsOf question).length - 1) (state.optionIndex + 1)) state.inputMode ?_ h.editing
    rw [hoptions]
    exact Nat.min_le_left _ _
  | keySpace =>
    simp only [reduceChoice]
    split_ifs with hk
    · cases ho : (optionsOf question)[state.optionIndex]? with
      | none =>
        rw [hn (by simp [recordedChoice, hk, ho])]
        exact h.turns
      | some option =>
        have := hw _ (by simp [recordedChoice, hk, ho]; rfl)
        simp only [Option.elim_some, toggleOption, this]
        exact hp.turns
    · rw [hn (by simp [recordedChoice, hk])]
      exact h.turns
  | keyEnter =>
    simp only [reduceChoice]
    split_ifs with hk
    · rw [confirmMulti, hw _ (by simp [recordedChoice, hk])]
      exact advanceAfterAnswer_turns hp _
    · cases ho : (optionsOf question)[state.optionIndex]? with
      | none =>
        rw [hn (by simp [recordedChoice, hk, ho])]
        exact h.turns
      | some option =>
        simp only [Option.elim_some, chooseOption]
        split_ifs with hother
        · rw [hn (by simp [recordedChoice, hk, ho, hother])]
          refine enterTextMode_turns h hq ?_
          simp [editable, hasOther_of_isOther ho hother]
        · rw [hw _ (by simp [recordedChoice, hk, ho, hother])]
          exact advanceAfterAnswer_turns hp _
  | keyEscape => rw [hn rfl]; exact h.turns
  | navigate => rw [hn rfl]; exact h.turns
  | editorSubmit => rw [hn rfl]; exact h.turns

def isKey : FormEvent → Bool
  | .navigate _ _ => false
  | .editorSubmit _ => false
  | _ => true

theorem reduceForm_of_isKey (h : isKey event = true) : reduceForm state event = reduceKey state event := by
  cases event with
  | navigate => simp [isKey] at h
  | editorSubmit => simp [isKey] at h
  | keyUp => rfl
  | keyDown => rfl
  | keyEnter => rfl
  | keyEscape => rfl
  | keySpace => rfl

theorem recorded_of_isKey (h : isKey event = true) : recorded state question event =
    if state.inputMode || isText question then none else recordedChoice state question event := by
  cases event with
  | navigate => simp [isKey] at h
  | editorSubmit => simp [isKey] at h
  | keyUp => rfl
  | keyDown => rfl
  | keyEnter => rfl
  | keyEscape => rfl
  | keySpace => rfl

theorem reduceEditor_turns (h : Placed state) (event : FormEvent) :
    Turns state (reduceEditor state event).state := by
  cases event with
  | keyEscape => exact .stays state.optionIndex false h.focus (by simp)
  | keyUp => exact h.turns
  | keyDown => exact h.turns
  | keyEnter => exact h.turns
  | keySpace => exact h.turns
  | navigate => exact h.turns
  | editorSubmit => exact h.turns

theorem reduceText_turns (h : Placed state) (hq : currentFormQuestion state = some question)
    (ht : isText question = true) (event : FormEvent) : Turns state (reduceText state question event).state := by
  cases event with
  | keyEnter => exact enterTextMode_turns h hq (by simp [editable, ht])
  | keyEscape => exact h.turns
  | keyUp => exact h.turns
  | keyDown => exact h.turns
  | keySpace => exact h.turns
  | navigate => exact h.turns
  | editorSubmit => exact h.turns

theorem reduceSubmitPage_state (state : FormState) (event : FormEvent) :
    (reduceSubmitPage state event).state = state := by
  cases event with
  | _ => rfl

theorem reduceKey_turns (h : Placed state) (hk : isKey event = true) :
    Turns (noted state event) (reduceKey state event).state := by
  have hnone : (∀ question, currentFormQuestion state = some question →
      state.inputMode = true ∨ isText question = true) → noted state event = state := by
    intro hall
    refine noted_eq (recordedAnswers_of_none ?_)
    intro question hq
    rw [recorded_of_isKey hk, if_pos]
    simpa using hall question hq
  simp only [reduceKey]
  split_ifs with hmode hsubmit
  · rw [hnone (fun _ _ => .inl hmode)]
    exact reduceEditor_turns h event
  · rw [hnone (by simp [currentFormQuestion_eq_none hsubmit]), reduceSubmitPage_state]
    exact h.turns
  · cases hq : currentFormQuestion state with
    | none =>
      rw [hnone (by simp [hq])]
      exact h.turns
    | some question =>
      simp only [Option.elim_some]
      split_ifs with ht
      · rw [hnone (by simp [hq, ht])]
        exact reduceText_turns h hq ht event
      · have hmode' : state.inputMode = false := by simpa using hmode
        have ht' : isText question = false := by simpa using ht
        refine reduceChoice_turns h hq ?_
        simp [recorded_of_isKey hk, hmode', ht']

theorem reduceForm_turns (h : Placed state) (hd : Dispatches state event = true) :
    Turns (noted state event) (reduceForm state event).state := by
  by_cases hk : isKey event = true
  · rw [reduceForm_of_isKey hk]
    exact reduceKey_turns h hk
  · cases event with
    | navigate delta text =>
      simp only [reduceForm]
      split_ifs with hm
      · have hn : text.elim state (keepText state) = noted state (.navigate delta text) := by
          cases text with
          | none => exact (noted_eq (recordedAnswers_of_none (by simp [recorded, hm]))).symm
          | some text => exact keepText_eq_noted state _ (by simp [recorded, hm])
        rw [hn]
        exact navigate_turns (placed_noted h _) hm delta
      · rw [noted_eq (recordedAnswers_of_none (by simp [recorded, hm]))]
        exact h.turns
    | editorSubmit value =>
      obtain ⟨question, hq, -⟩ := h.editing hd
      simp only [reduceForm, hq, Option.isSome_some, if_true]
      rw [keepText_eq_noted state (.editorSubmit value) (by simp [recorded])]
      exact submit_turns (placed_noted h _) _
    | keyUp => exact absurd rfl hk
    | keyDown => exact absurd rfl hk
    | keyEnter => exact absurd rfl hk
    | keyEscape => exact absurd rfl hk
    | keySpace => exact absurd rfl hk

theorem dispatch_of_dispatches (h : Dispatches state event = true) :
    dispatch state event = some (reduceForm state event).state := by
  simp [dispatch, h]

theorem dispatch_eq_some (h : dispatch state event = some next) :
    Dispatches state event = true ∧ next = (reduceForm state event).state := by
  unfold dispatch at h
  split_ifs at h with hd
  exact ⟨hd, (Option.some.inj h).symm⟩

theorem placed_initialFormState (questionnaire : Questionnaire) (h : questionnaire.questions ≠ []) :
    Placed (initialFormState questionnaire) := by
  have hlt : 0 < questionnaire.questions.length := List.length_pos_of_ne_nil h
  refine ⟨.inl hlt, Nat.zero_le _, ?_⟩
  intro hmode
  obtain ⟨question, hq, ht⟩ := (Option.any_eq_true _ _).mp hmode
  exact ⟨question, hq, editable_of_isTextQuestion ht⟩

theorem placed_dispatch (hp : Placed state) (h : dispatch state event = some next) : Placed next := by
  obtain ⟨hd, rfl⟩ := dispatch_eq_some h
  exact (reduceForm_turns hp hd).placed (placed_noted hp event)

theorem questionnaire_dispatch (hp : Placed state) (h : dispatch state event = some next) :
    next.questionnaire = state.questionnaire := by
  obtain ⟨hd, rfl⟩ := dispatch_eq_some h
  exact (reduceForm_turns hp hd).questionnaire

theorem answers_dispatch (hp : Placed state) (h : dispatch state event = some next) :
    next.answers = recordedAnswers state event := by
  obtain ⟨hd, rfl⟩ := dispatch_eq_some h
  exact (reduceForm_turns hp hd).answers

theorem done_notMem_enterPage (state : FormState) (page : Nat) (cancelled : Bool) :
    .done cancelled ∉ (enterPage state page).effects := by
  simp only [enterPage, List.mem_append, List.mem_singleton, reduceCtorEq, or_false]
  cases state.questionnaire.questions[page]?.filter isText with
  | none => simp
  | some question => simp

theorem done_notMem_navigate (state : FormState) (delta : Delta) (cancelled : Bool) :
    .done cancelled ∉ (navigate state delta).effects := by
  simp only [navigate]
  split_ifs with h
  · simp
  · exact done_notMem_enterPage state _ cancelled

theorem done_mem_advanceAfterAnswer {effects : List FormEffect} {cancelled : Bool}
    (h : .done cancelled ∈ (advanceAfterAnswer state effects).effects) (he : .done cancelled ∉ effects) :
    isMultiPage state = false ∧ cancelled = false := by
  simp only [advanceAfterAnswer] at h
  split_ifs at h with hm hpage
  · obtain h | h := List.mem_append.mp h
    · exact absurd h he
    · exact absurd h (done_notMem_enterPage _ _ _)
  · obtain h | h := List.mem_append.mp h
    · exact absurd h he
    · exact absurd h (done_notMem_enterPage _ _ _)
  · obtain h | h := List.mem_append.mp h
    · exact absurd h he
    · exact ⟨by simpa using hm, by simpa using h⟩

theorem finishes_reduceChoice (h : .done false ∈ (reduceChoice state question event).effects) :
    isMultiPage state = false ∧ ∃ selection, recordedChoice state question event = some selection := by
  cases event with
  | keyEnter =>
    simp only [reduceChoice] at h
    split_ifs at h with hk
    · have hm := done_mem_advanceAfterAnswer h (by simp)
      exact ⟨hm.1, _, by simp [recordedChoice, hk]; rfl⟩
    · cases ho : (optionsOf question)[state.optionIndex]? with
      | none => simp [ho] at h
      | some option =>
        simp only [ho, Option.elim_some, chooseOption] at h
        split_ifs at h with hother
        · simp [enterTextMode] at h
        · have hm := done_mem_advanceAfterAnswer h (by simp)
          exact ⟨hm.1, _, by simp [recordedChoice, hk, ho, hother]; rfl⟩
  | keySpace =>
    simp only [reduceChoice] at h
    split_ifs at h with hk
    · cases ho : (optionsOf question)[state.optionIndex]? with
      | none => simp [ho] at h
      | some option => simp [ho, toggleOption] at h
    · simp at h
  | keyUp => simp [reduceChoice] at h
  | keyDown => simp [reduceChoice] at h
  | keyEscape => simp [reduceChoice] at h
  | navigate => simp [reduceChoice] at h
  | editorSubmit => simp [reduceChoice] at h

theorem finishes_reduceKey (hk : isKey event = true) (h : .done false ∈ (reduceKey state event).effects) :
    (isSubmitPage state = true ∧ allQuestionsAnswered state = true ∧
        (reduceForm state event).state = state) ∨
      (isMultiPage state = false ∧ ∃ question selection, currentFormQuestion state = some question ∧
        recorded state question event = some selection) := by
  simp only [reduceKey] at h
  split_ifs at h with hmode hsubmit
  · exact absurd h (by cases event <;> simp [reduceEditor])
  · refine .inl ⟨hsubmit, ?_, ?_⟩
    · cases event with
      | keyEnter =>
        simp only [reduceSubmitPage] at h
        split_ifs at h with ha
        · exact ha
        · simp at h
      | keyEscape => simp [reduceSubmitPage] at h
      | keyUp => simp [reduceSubmitPage] at h
      | keyDown => simp [reduceSubmitPage] at h
      | keySpace => simp [reduceSubmitPage] at h
      | navigate => simp [reduceSubmitPage] at h
      | editorSubmit => simp [reduceSubmitPage] at h
    · rw [reduceForm_of_isKey hk]
      simp only [reduceKey, hmode, hsubmit, if_true]
      exact reduceSubmitPage_state state event
  · refine .inr ?_
    cases hq : currentFormQuestion state with
    | none => simp [hq] at h
    | some question =>
      simp only [hq, Option.elim_some] at h
      split_ifs at h with ht
      · exact absurd h (by cases event <;> simp [reduceText, enterTextMode])
      · obtain ⟨hm, selection, hs⟩ := finishes_reduceChoice h
        exact ⟨hm, question, selection, rfl, by simp [recorded_of_isKey hk, hmode, ht, hs]⟩

theorem finishes_cases (hp : Placed state) (h : Finishes state event) :
    (isSubmitPage state = true ∧ allQuestionsAnswered state = true ∧
        (reduceForm state event).state = state) ∨
      (isMultiPage state = false ∧ ∃ question selection, currentFormQuestion state = some question ∧
        recorded state question event = some selection) := by
  obtain ⟨hd, h⟩ := h
  by_cases hk : isKey event = true
  · rw [reduceForm_of_isKey hk] at h
    exact finishes_reduceKey hk h
  · cases event with
    | navigate delta text =>
      simp only [reduceForm] at h
      split_ifs at h with hm
      · exact absurd h (done_notMem_navigate _ _ _)
      · simp at h
    | editorSubmit value =>
      obtain ⟨question, hq, -⟩ := hp.editing hd
      simp only [reduceForm, hq, Option.isSome_some, if_true] at h
      have hm := (done_mem_advanceAfterAnswer h (by simp)).1
      refine .inr ⟨?_, question, _, hq, rfl⟩
      rw [← isMultiPage_keepText state value]
      exact hm
    | keyUp => exact absurd rfl hk
    | keyDown => exact absurd rfl hk
    | keyEnter => exact absurd rfl hk
    | keyEscape => exact absurd rfl hk
    | keySpace => exact absurd rfl hk

theorem recorded_answerable (hp : Placed state) (hd : Dispatches state event = true)
    (hq : currentFormQuestion state = some question) {selection : RawSelection}
    (hr : recorded state question event = some selection) : answerable question = true := by
  have hedit : editable question = true → answerable question = true := by
    intro he
    cases hk : question.kind with
    | single => simp [editable, isText, hasOther, hk] at he; simp [answerable, he]
    | multi => simp [answerable, hk]
    | text => simp [answerable, hk]
    | chat => simp [answerable, hk]
  by_cases hmode : state.inputMode = true
  · obtain ⟨other, ho, he⟩ := hp.editing hmode
    rw [hq, Option.some_inj] at ho
    subst ho
    exact hedit he
  · by_contra hno
    have hkind : question.kind = .single := by
      by_contra hk
      simp [answerable, hk] at hno
    have hnone : optionsOf question = [] := by
      simp only [answerable, hkind, ne_eq, not_true_eq_false, decide_false, Bool.false_or, Bool.or_eq_true,
        Bool.not_eq_true', decide_eq_true_eq, not_or, Bool.not_eq_false] at hno
      simp [optionsOf, isText, hasOther, hkind, orderedOptions, List.isEmpty_iff.mp hno.1, hno.2]
    cases event with
    | navigate delta text => simp_all [Dispatches, recorded]
    | editorSubmit value => simp_all [Dispatches]
    | keyEnter => simp [recorded, recordedChoice, hkind, hnone] at hr
    | keySpace => simp [recorded, recordedChoice, hkind] at hr
    | keyUp => simp [recorded, recordedChoice] at hr
    | keyDown => simp [recorded, recordedChoice] at hr
    | keyEscape => simp [recorded, recordedChoice] at hr

end KimchiWorkflows.Host
