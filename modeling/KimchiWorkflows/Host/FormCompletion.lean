import KimchiWorkflows.Host.FormChoices

namespace KimchiWorkflows.Host

open KimchiWorkflows.Flow Stepping

def Still (session : Session) (event : FormEvent) : Prop := Open session.form event

def Leads (session next : Session) : Prop := ∃ events, Run Session.step Still session events next

structure Wanders (session next : Session) : Prop where
  leads : Leads session next
  questionnaire : next.form.questionnaire = session.form.questionnaire
  answers : next.form.answers = session.form.answers
  choices : next.choices = session.choices

variable {session next last : Session} {event : FormEvent} {question : Question}

theorem Leads.refl (session : Session) : Leads session session := ⟨[], .nil⟩

theorem Leads.trans (h : Leads session next) (h' : Leads next last) : Leads session last := by
  obtain ⟨before, hb⟩ := h
  obtain ⟨after, ha⟩ := h'
  exact ⟨before ++ after, hb.trans ha⟩

theorem leads_after (hd : Dispatches session.form event = true) (ho : Open session.form event) :
    Leads session (session.after event) :=
  ⟨[event], .single (by simp [Session.step, hd]) ho⟩

theorem placed_after (hp : Placed session.form) (hd : Dispatches session.form event = true) :
    Placed (session.after event).form :=
  (reduceForm_turns hp hd).placed (placed_noted hp event)

theorem Leads.placed (h : Leads session next) (hp : Placed session.form) : Placed next.form := by
  obtain ⟨events, h⟩ := h
  induction h with
  | nil => exact hp
  | snoc _ hs _ ih =>
    obtain ⟨hd, rfl⟩ := session_step_eq_some hs
    exact placed_after ih hd

theorem Leads.questionnaire (h : Leads session next) (hp : Placed session.form) :
    next.form.questionnaire = session.form.questionnaire := by
  obtain ⟨events, h⟩ := h
  induction h with
  | nil => rfl
  | snoc hrun hs _ ih =>
    obtain ⟨hd, rfl⟩ := session_step_eq_some hs
    exact (after_questionnaire (Leads.placed ⟨_, hrun⟩ hp) hd).trans ih

theorem Wanders.refl (session : Session) : Wanders session session := ⟨.refl session, rfl, rfl, rfl⟩

theorem Wanders.trans (h : Wanders session next) (h' : Wanders next last) : Wanders session last where
  leads := h.leads.trans h'.leads
  questionnaire := h'.questionnaire.trans h.questionnaire
  answers := h'.answers.trans h.answers
  choices := h'.choices.trans h.choices

theorem isMultiPage_congr {state other : FormState} (h : state.questionnaire = other.questionnaire) :
    isMultiPage state = isMultiPage other := by
  unfold isMultiPage
  rw [h]

theorem wanders_after (hp : Placed session.form) (hd : Dispatches session.form event = true)
    (ho : Open session.form event) (hr : ∀ question, currentFormQuestion session.form = some question →
      recorded session.form question event = none) :
    Wanders session (session.after event) where
  leads := leads_after hd ho
  questionnaire := after_questionnaire hp hd
  answers := (after_answers hp hd).trans (recordedAnswers_of_none hr)
  choices := by
    have hnone : session.chosen event = none := by
      unfold Session.chosen
      cases hq : currentFormQuestion session.form with
      | none => rfl
      | some question =>
        have hsome := isSome_choiceOn session.form question (session.choices session.form.currentPage) event
        rw [hr question hq, Option.isSome_none, Option.isSome_eq_false_iff, Option.isNone_iff_eq_none] at hsome
        exact hsome
    simp [Session.after, hnone]

theorem leave_editor (hp : Placed session.form) : ∃ next, Wanders session next ∧
    next.form.inputMode = false ∧ next.form.currentPage = session.form.currentPage := by
  by_cases hmode : session.form.inputMode = true
  · have hreduce : reduceForm session.form .keyEscape =
        { state := { session.form with inputMode := false }, effects := [.editorSetText "", .render] } := by
      simp [reduceForm, reduceKey, hmode, reduceEditor]
    refine ⟨session.after .keyEscape, wanders_after hp rfl ?_ ?_, ?_, ?_⟩
    · intro cancelled
      simp [hreduce]
    · intro question _
      simp [recorded, hmode]
    · simp [Session.after, hreduce]
    · simp [Session.after, hreduce]
  · exact ⟨session, .refl session, by simpa using hmode, rfl⟩

theorem turn_page (hp : Placed session.form) (hmode : session.form.inputMode = false)
    (hm : isMultiPage session.form = true) (delta : Delta)
    (hle : delta.moved session.form.currentPage ≤ session.form.questionnaire.questions.length) :
    ∃ next, Wanders session next ∧ next.form.inputMode = false ∧
      next.form.currentPage = delta.moved session.form.currentPage := by
  have hreduce : reduceForm session.form (.navigate delta none) = navigate session.form delta := by
    simp [reduceForm, hm]
  have hw : Wanders session (session.after (.navigate delta none)) := by
    refine wanders_after hp (by simp [Dispatches, hmode]) ?_ ?_
    · intro cancelled
      rw [hreduce]
      exact done_notMem_navigate _ _ _
    · intro question _
      simp [recorded]
  have hpage : (session.after (.navigate delta none)).form.currentPage = delta.moved session.form.currentPage := by
    simp only [Session.after, hreduce, navigate, Nat.min_eq_right hle]
    split_ifs with h
    · exact h.symm
    · rfl
  obtain ⟨next, hn, hmode, hcurrent⟩ := leave_editor (hw.leads.placed hp)
  exact ⟨next, hw.trans hn, hmode, hcurrent.trans hpage⟩

theorem goto_page (hp : Placed session.form) (hm : isMultiPage session.form = true) {page : Nat}
    (hpage : page ≤ session.form.questionnaire.questions.length) :
    ∃ next, Wanders session next ∧ next.form.inputMode = false ∧ next.form.currentPage = page := by
  obtain ⟨next, hw, hmode, -⟩ := leave_editor hp
  -- every page turned brings the form one page closer
  induction hdistance : (next.form.currentPage - page) + (page - next.form.currentPage) generalizing next with
  | zero => exact ⟨next, hw, hmode, by omega⟩
  | succ distance ih =>
    have hplaced := hw.leads.placed hp
    have hmulti := (isMultiPage_congr hw.questionnaire).trans hm
    rw [← hw.questionnaire] at hpage
    have hcurrent : next.form.currentPage ≤ next.form.questionnaire.questions.length := by
      obtain hlt | ⟨-, heq⟩ := hplaced.pageOf
      · exact hlt.le
      · exact heq.le
    by_cases hlt : next.form.currentPage < page
    · obtain ⟨further, hf, hmode', hturned⟩ := turn_page hplaced hmode hmulti .forward
        (by simp only [Delta.moved]; omega)
      simp only [Delta.moved] at hturned
      refine ih further (hw.trans hf) hmode' ?_
      omega
    · obtain ⟨further, hf, hmode', hturned⟩ := turn_page hplaced hmode hmulti .backward
        (by simp only [Delta.moved]; omega)
      simp only [Delta.moved] at hturned
      refine ih further (hw.trans hf) hmode' ?_
      omega

theorem reduceForm_on_question {state : FormState} (hq : currentFormQuestion state = some question)
    (hmode : state.inputMode = false) (hk : isKey event = true) : reduceForm state event =
      if isText question then reduceText state question event else reduceChoice state question event := by
  rw [reduceForm_of_isKey hk]
  simp [reduceKey, hmode, hq, isSubmitPage_eq_false (currentPage_lt hq)]

theorem shift_focus (hp : Placed session.form) (hmode : session.form.inputMode = false)
    (hq : currentFormQuestion session.form = some question) (ht : isText question = false) (event : FormEvent)
    (index : Nat) (hk : isKey event = true) (hnone : recordedChoice session.form question event = none)
    (hreduce : reduceChoice session.form question event =
      { state := { session.form with optionIndex := index }, effects := [.render] }) :
    ∃ next, Wanders session next ∧ next.form = { session.form with optionIndex := index } := by
  have hform : reduceForm session.form event =
      { state := { session.form with optionIndex := index }, effects := [.render] } := by
    rw [reduceForm_on_question hq hmode hk, ← hreduce]
    simp [ht]
  refine ⟨session.after event, wanders_after hp ?_ ?_ ?_, ?_⟩
  · cases event with
    | navigate => simp [isKey] at hk
    | editorSubmit => simp [isKey] at hk
    | keyEscape => rfl
    | _ => simp [Dispatches, hmode]
  · intro cancelled
    simp [hform]
  · intro other ho
    rw [hq, Option.some_inj] at ho
    subst ho
    simp [recorded_of_isKey hk, hmode, ht, hnone]
  · simp [Session.after, hform]

theorem move_focus (hp : Placed session.form) (hmode : session.form.inputMode = false)
    (hq : currentFormQuestion session.form = some question) (ht : isText question = false) {index : Nat}
    (hindex : index < (optionsOf question).length) :
    ∃ next, Wanders session next ∧ next.form.inputMode = false ∧
      next.form.currentPage = session.form.currentPage ∧ next.form.optionIndex = index := by
  induction hdistance : (session.form.optionIndex - index) + (index - session.form.optionIndex)
    generalizing session with
  | zero => exact ⟨session, .refl session, hmode, rfl, by omega⟩
  | succ distance ih =>
    by_cases hlt : session.form.optionIndex < index
    · have hdown : min ((optionsOf question).length - 1) (session.form.optionIndex + 1) =
          session.form.optionIndex + 1 := by omega
      obtain ⟨next, hw, hform⟩ := shift_focus hp hmode hq ht .keyDown (session.form.optionIndex + 1)
        rfl rfl (by simp only [reduceChoice, hdown])
      obtain ⟨last, hl, hmode', hpage, hfocus⟩ := ih (hw.leads.placed hp)
        (by rw [hform]; exact hmode) (by rw [hform]; exact hq) (by rw [hform]; simp only; omega)
      exact ⟨last, hw.trans hl, hmode', by rw [hpage, hform], hfocus⟩
    · obtain ⟨next, hw, hform⟩ := shift_focus hp hmode hq ht .keyUp (session.form.optionIndex - 1)
        rfl rfl rfl
      obtain ⟨last, hl, hmode', hpage, hfocus⟩ := ih (hw.leads.placed hp)
        (by rw [hform]; exact hmode) (by rw [hform]; exact hq) (by rw [hform]; simp only; omega)
      exact ⟨last, hw.trans hl, hmode', by rw [hpage, hform], hfocus⟩

/-- The form stands before an event that records the answer of its page and moves on. -/
structure Recording (session : Session) (event : FormEvent) (question : Question) (choice : Choice) : Prop where
  current : currentFormQuestion session.form = some question
  dispatches : Dispatches session.form event = true
  chosen : session.chosen event = some choice
  goesOn : isMultiPage session.form = true → Open session.form event
  finishes : isMultiPage session.form = false → .done false ∈ (reduceForm session.form event).effects

theorem open_advance (state : FormState) (effects : List FormEffect) (hm : isMultiPage state = true)
    (he : ∀ cancelled, .done cancelled ∉ effects) (cancelled : Bool) :
    .done cancelled ∉ (advanceAfterAnswer state effects).effects := by
  intro h
  have := (done_mem_advanceAfterAnswer h (he cancelled)).1
  simp [hm] at this

theorem done_mem_advance (state : FormState) (effects : List FormEffect) (hm : isMultiPage state = false) :
    .done false ∈ (advanceAfterAnswer state effects).effects := by
  simp [advanceAfterAnswer, hm]

theorem answers_of_editor (hmode : session.form.inputMode = true)
    (hq : currentFormQuestion session.form = some question) (text : String) :
    Recording session (.editorSubmit text) question (typedChoice question text) where
  current := hq
  dispatches := hmode
  chosen := by simp [chosen_eq hq, choiceOn]
  goesOn := by
    intro hm cancelled
    simp only [reduceForm, hq, Option.isSome_some, if_true]
    exact open_advance { keepText session.form text with inputMode := false } _
      ((isMultiPage_keepText session.form text).trans hm) (by simp) cancelled
  finishes := by
    intro hm
    simp only [reduceForm, hq, Option.isSome_some, if_true]
    exact done_mem_advance { keepText session.form text with inputMode := false } _
      ((isMultiPage_keepText session.form text).trans hm)

theorem open_editor (hp : Placed session.form) (hmode : session.form.inputMode = false)
    (hq : currentFormQuestion session.form = some question)
    (hreduce : reduceForm session.form .keyEnter = enterTextMode session.form question)
    (hr : recorded session.form question .keyEnter = none) :
    ∃ next, Wanders session next ∧ next.form.inputMode = true ∧
      next.form.currentPage = session.form.currentPage := by
  refine ⟨session.after .keyEnter, wanders_after hp (by simp [Dispatches, hmode]) ?_ ?_, ?_, ?_⟩
  · intro cancelled
    simp [hreduce, enterTextMode]
  · intro other ho
    rw [hq, Option.some_inj] at ho
    exact ho ▸ hr
  · simp [Session.after, hreduce, enterTextMode]
  · simp [Session.after, hreduce, enterTextMode]

theorem recording_confirm (hmode : session.form.inputMode = false)
    (hq : currentFormQuestion session.form = some question) (hk : question.kind = .multi) :
    ∃ choice, Recording session .keyEnter question choice := by
  have ht : isText question = false := by simp [isText, hk]
  have hreduce : reduceForm session.form .keyEnter = confirmMulti session.form question := by
    rw [reduceForm_on_question hq hmode rfl]
    simp [ht, reduceChoice, hk]
  refine ⟨(session.choices session.form.currentPage).getD (.checked []), hq, by simp [Dispatches, hmode], ?_, ?_,
    ?_⟩
  · simp [chosen_eq hq, choiceOn, hmode, ht, optionChoice, hk]
  · intro hm cancelled
    rw [hreduce, confirmMulti]
    exact open_advance (withAnswer _ _ _) _ hm (by simp) cancelled
  · intro hm
    rw [hreduce, confirmMulti]
    exact done_mem_advance (withAnswer _ _ _) _ hm

theorem recording_option (hmode : session.form.inputMode = false)
    (hq : currentFormQuestion session.form = some question) (hk : question.kind = .single) {option : RenderOption}
    (ho : (optionsOf question)[session.form.optionIndex]? = some option) (hother : option.isOther = false) :
    Recording session .keyEnter question (.picked option.value) := by
  have ht : isText question = false := by simp [isText, hk]
  have hreduce : reduceForm session.form .keyEnter = chooseOption session.form question option := by
    rw [reduceForm_on_question hq hmode rfl]
    simp [ht, reduceChoice, hk, ho]
  refine ⟨hq, by simp [Dispatches, hmode], ?_, ?_, ?_⟩
  · simp [chosen_eq hq, choiceOn, hmode, ht, optionChoice, hk, ho, hother]
  · intro hm cancelled
    rw [hreduce, chooseOption, if_neg (by simp [hother])]
    exact open_advance (withAnswer _ _ _) _ hm (by simp) cancelled
  · intro hm
    rw [hreduce, chooseOption, if_neg (by simp [hother])]
    exact done_mem_advance (withAnswer _ _ _) _ hm

theorem pick_option (hp : Placed session.form) (hmode : session.form.inputMode = false)
    (hq : currentFormQuestion session.form = some question) (hk : question.kind = .single) {value : String}
    (ho : Offered question value) :
    ∃ next, Wanders session next ∧ next.form.currentPage = session.form.currentPage ∧
      Recording next .keyEnter question (.picked value) := by
  have ht : isText question = false := by simp [isText, hk]
  obtain ⟨plain, hplain, rfl⟩ := List.mem_map.mp ho
  have hmem : ({ toQuestionOption := plain } : RenderOption) ∈ optionsOf question := by
    have hordered : plain ∈ orderedOptions question := List.mem_mergeSort.mpr hplain
    simp only [optionsOf, ht, Bool.false_eq_true, if_false]
    exact List.mem_append_left _ (List.mem_map_of_mem hordered)
  obtain ⟨index, hindex⟩ := List.mem_iff_getElem?.mp hmem
  obtain ⟨next, hw, hmode', hpage, hfocus⟩ := move_focus hp hmode hq ht (List.getElem?_eq_some_iff.mp hindex).1
  have hq' : currentFormQuestion next.form = some question := by
    rw [currentFormQuestion, hpage, hw.questionnaire]
    exact hq
  exact ⟨next, hw, hpage, recording_option hmode' hq' hk (hfocus ▸ hindex) rfl⟩

theorem answer_here (hp : Placed session.form) (hmode : session.form.inputMode = false)
    (hq : currentFormQuestion session.form = some question) (ha : answerable question = true) :
    ∃ next event choice, Wanders session next ∧ next.form.currentPage = session.form.currentPage ∧
      Recording next event question choice := by
  have hedit : reduceForm session.form .keyEnter = enterTextMode session.form question →
      recorded session.form question .keyEnter = none → ∃ next event choice, Wanders session next ∧
        next.form.currentPage = session.form.currentPage ∧ Recording next event question choice := by
    intro hreduce hr
    obtain ⟨next, hw, hmode', hpage⟩ := open_editor hp hmode hq hreduce hr
    have hq' : currentFormQuestion next.form = some question := by
      rw [currentFormQuestion, hpage, hw.questionnaire]
      exact hq
    exact ⟨next, _, _, hw, hpage, answers_of_editor hmode' hq' ""⟩
  by_cases ht : isText question = true
  · refine hedit ?_ ?_
    · rw [reduceForm_on_question hq hmode rfl, if_pos ht]
      rfl
    · simp [recorded, ht]
  · cases hk : question.kind with
    | text => simp [isText, hk] at ht
    | chat => simp [isText, hk] at ht
    | multi =>
      obtain ⟨choice, hc⟩ := recording_confirm hmode hq hk
      exact ⟨session, .keyEnter, choice, .refl session, rfl, hc⟩
    | single =>
      by_cases hsome : question.options.getD [] = []
      · have hother : hasOther question = true := by
          simpa [answerable, hk, hsome, hasOther] using ha
        have hoptions : optionsOf question = [{ value := otherValue, label := otherLabel, isOther := true }] := by
          simp [optionsOf, ht, hother, orderedOptions, hsome]
        have hindex : session.form.optionIndex = 0 := by
          have := hp.focus
          simp only [currentFormOptions, hq, Option.elim_some, hoptions, List.length_singleton] at this
          omega
        refine hedit ?_ ?_
        · rw [reduceForm_on_question hq hmode rfl]
          simp [ht, reduceChoice, hk, hoptions, hindex, chooseOption]
        · simp [recorded, hmode, ht, recordedChoice, hk, hoptions, hindex]
      · obtain ⟨option, hm⟩ := List.exists_mem_of_ne_nil _ hsome
        obtain ⟨next, hw, hpage, hr⟩ := pick_option hp hmode hq hk (List.mem_map_of_mem hm)
        exact ⟨next, .keyEnter, _, hw, hpage, hr⟩

theorem has_set {answers : RawSelections} {key other : String} {selection : RawSelection} :
    Dict.has (Dict.set answers key selection) other = true ↔ other = key ∨ Dict.has answers other = true := by
  simp only [Dict.has, Dict.get_set]
  split_ifs with h
  · simp [h]
  · simp [h]

theorem Recording.has_after {choice : Choice} (h : Recording session event question choice)
    (hp : Placed session.form) (key : String) : Dict.has (session.after event).form.answers key = true ↔
      key = question.key ∨ Dict.has session.form.answers key = true := by
  have hsome := isSome_choiceOn session.form question (session.choices session.form.currentPage) event
  rw [← chosen_eq h.current, h.chosen, Option.isSome_some] at hsome
  obtain ⟨selection, hs⟩ := Option.isSome_iff_exists.mp hsome.symm
  rw [after_answers hp h.dispatches, recordedAnswers, h.current, Option.bind_some, hs]
  exact has_set

theorem Recording.choices_after {choice : Choice} (h : Recording session event question choice) :
    (session.after event).choices =
      Function.update session.choices session.form.currentPage (some choice) := by
  simp [Session.after, h.chosen]

theorem record_page {choice : Choice} (hw : Wanders session next) (hp : Placed session.form)
    (hm : isMultiPage session.form = true) (h : Recording next event question choice) :
    ∃ last, Leads session last ∧
      last.choices = Function.update session.choices next.form.currentPage (some choice) ∧
      ∀ key, Dict.has last.form.answers key = true ↔ key = question.key ∨ Dict.has session.form.answers key = true := by
  have hm' := (isMultiPage_congr hw.questionnaire).trans hm
  refine ⟨next.after event, hw.leads.trans (leads_after h.dispatches (h.goesOn hm')), ?_, ?_⟩
  · rw [h.choices_after, hw.choices]
  · intro key
    rw [h.has_after (hw.leads.placed hp), hw.answers]

theorem answer_page (hp : Placed session.form) (hm : isMultiPage session.form = true) {page : Nat}
    (hq : session.form.questionnaire.questions[page]? = some question) (ha : answerable question = true) :
    ∃ last choice, Leads session last ∧ last.choices = Function.update session.choices page (some choice) ∧
      ∀ key, Dict.has last.form.answers key = true ↔ key = question.key ∨ Dict.has session.form.answers key = true := by
  obtain ⟨there, hw, hmode, rfl⟩ := goto_page hp hm (List.getElem?_eq_some_iff.mp hq).1.le
  have hq' : currentFormQuestion there.form = some question := by
    rw [currentFormQuestion, hw.questionnaire]
    exact hq
  obtain ⟨next, event, choice, hn, hpage, hr⟩ := answer_here (hw.leads.placed hp) hmode hq' ha
  obtain ⟨last, hl, hc, hkeys⟩ := record_page (hw.trans hn) hp hm hr
  exact ⟨last, choice, hl, hpage ▸ hc, hkeys⟩

theorem answer_pages (pages : List Nat) (hp : Placed session.form) (hm : isMultiPage session.form = true)
    (hpages : ∀ page ∈ pages, ∃ question, session.form.questionnaire.questions[page]? = some question ∧
      answerable question = true) :
    ∃ last, Leads session last ∧ (∀ page, page ∉ pages → last.choices page = session.choices page) ∧
      (∀ key, Dict.has session.form.answers key = true → Dict.has last.form.answers key = true) ∧
      ∀ page ∈ pages, ∀ question, session.form.questionnaire.questions[page]? = some question →
        Dict.has last.form.answers question.key = true := by
  induction pages generalizing session with
  | nil => exact ⟨session, .refl session, fun _ _ => rfl, fun _ h => h, by simp⟩
  | cons page rest ih =>
    obtain ⟨question, hq, ha⟩ := hpages page (by simp)
    obtain ⟨next, choice, hl, hc, hkeys⟩ := answer_page hp hm hq ha
    have hquestions := hl.questionnaire hp
    obtain ⟨last, hl', hc', hkept, hrest⟩ := ih (hl.placed hp) ((isMultiPage_congr hquestions).trans hm) (by
      intro other ho
      rw [hquestions]
      exact hpages other (List.mem_cons_of_mem _ ho))
    rw [hquestions] at hrest
    refine ⟨last, hl.trans hl', ?_, ?_, ?_⟩
    · intro other ho
      rw [List.mem_cons, not_or] at ho
      rw [hc' other ho.2, hc, Function.update_of_ne ho.1]
    · intro key hkey
      exact hkept key ((hkeys key).mpr (.inr hkey))
    · intro other ho q hq'
      obtain rfl | ho := List.mem_cons.mp ho
      · rw [hq, Option.some_inj] at hq'
        subst hq'
        exact hkept _ ((hkeys _).mpr (.inl rfl))
      · exact hrest other ho q hq'

theorem submit (hp : Placed session.form) (hm : isMultiPage session.form = true)
    (hall : allQuestionsAnswered session.form = true) :
    ∃ next, Wanders session next ∧ Finishes next.form .keyEnter ∧ next.after .keyEnter = next := by
  obtain ⟨next, hw, hmode, hpage⟩ := goto_page hp hm (Nat.le_refl _)
  have hsubmit : isSubmitPage next.form = true := by
    simp [isSubmitPage, (isMultiPage_congr hw.questionnaire).trans hm, hpage, hw.questionnaire]
  have hall' : allQuestionsAnswered next.form = true := by
    rw [allQuestionsAnswered, hw.questionnaire, hw.answers]
    exact hall
  have hreduce : reduceForm next.form .keyEnter = { state := next.form, effects := [.done false] } := by
    simp [reduceForm, reduceKey, hmode, hsubmit, reduceSubmitPage, hall']
  have hchosen : next.chosen .keyEnter = none := by
    simp [Session.chosen, currentFormQuestion_eq_none hsubmit]
  refine ⟨next, hw, ⟨by simp [Dispatches, hmode], by simp [hreduce]⟩, ?_⟩
  simp [Session.after, hreduce, hchosen]

theorem answered_of_pages {pages : List Nat} {questionnaire : Questionnaire} {answers : RawSelections}
    (hcover : ∀ question ∈ questionnaire.questions, ∃ page ∈ pages, ∃ other,
      questionnaire.questions[page]? = some other ∧ other.key = question.key)
    (hpages : ∀ page ∈ pages, ∀ question, questionnaire.questions[page]? = some question →
      Dict.has answers question.key = true) :
    questionnaire.questions.all (fun question => Dict.has answers question.key) = true := by
  rw [List.all_eq_true]
  intro question hm
  obtain ⟨page, hpage, other, ho, hkey⟩ := hcover question hm
  exact hkey ▸ hpages page hpage other ho

end KimchiWorkflows.Host
