import KimchiWorkflows.Host.FormCompletion

namespace KimchiWorkflows.Host

open KimchiWorkflows.Flow Stepping

structure InRange (state : FormState) : Prop where
  page : PageOf state state.currentPage
  focus : state.optionIndex < (currentFormOptions state).length ∨
    (currentFormOptions state = [] ∧ state.optionIndex = 0)

/-- An event leaves the form with an answer for each question, which is the last choice on its page. -/
def ReturnsChoices (session : Session) (event : FormEvent) : Prop :=
  ∀ page question, session.form.questionnaire.questions[page]? = some question →
    ∃ choice, (session.after event).choices page = some choice ∧ Suits question choice ∧
      Dict.get (formAnswers (session.after event).form) question.key = some choice.value

def ReturnsWhatWasChosen (questionnaire : Questionnaire) : Prop :=
  ∀ events session, Run Session.step Unconditional (Session.start questionnaire) events session →
    InRange session.form ∧ ∀ event, Finishes session.form event →
      (isMultiPage session.form = true → isSubmitPage session.form = true) ∧ ReturnsChoices session event

variable {questionnaire : Questionnaire} {state next : FormState} {session : Session} {event : FormEvent}
  {question : Question}

def answerablePages (questionnaire : Questionnaire) (skipped : Option Nat) : List Nat :=
  (List.range questionnaire.questions.length).filter (fun page =>
    questionnaire.questions[page]?.any answerable && skipped ≠ some page)

theorem mem_answerablePages {skipped : Option Nat} {page : Nat} : page ∈ answerablePages questionnaire skipped ↔
    skipped ≠ some page ∧ ∃ question, questionnaire.questions[page]? = some question ∧
      answerable question = true := by
  simp only [answerablePages, List.mem_filter, List.mem_range, Bool.and_eq_true, Option.any_eq_true,
    decide_eq_true_eq]
  constructor
  · rintro ⟨-, ha, hs⟩
    exact ⟨hs, ha⟩
  · rintro ⟨hs, question, hq, ha⟩
    exact ⟨(List.getElem?_eq_some_iff.mp hq).1, ⟨question, hq, ha⟩, hs⟩

theorem complete_pages (hp : Placed session.form) (hm : isMultiPage session.form = true) (skipped : Option Nat)
    (hcover : ∀ question ∈ session.form.questionnaire.questions,
      ∃ page ∈ answerablePages session.form.questionnaire skipped, ∃ other,
        session.form.questionnaire.questions[page]? = some other ∧ other.key = question.key) :
    ∃ last, Leads session last ∧ allQuestionsAnswered last.form = true ∧
      ∀ page, skipped = some page → last.choices page = session.choices page := by
  obtain ⟨last, hl, hkept, -, hanswered⟩ := answer_pages (answerablePages session.form.questionnaire skipped) hp hm
    (fun page hpage => (mem_answerablePages.mp hpage).2)
  refine ⟨last, hl, ?_, ?_⟩
  · rw [allQuestionsAnswered, hl.questionnaire hp]
    exact answered_of_pages hcover hanswered
  · intro page hskip
    apply hkept
    intro hmem
    exact (mem_answerablePages.mp hmem).1 hskip

theorem covered (hc : Completable questionnaire) : ∀ question ∈ questionnaire.questions,
    ∃ page ∈ answerablePages questionnaire none, ∃ other,
      questionnaire.questions[page]? = some other ∧ other.key = question.key := by
  intro question hm
  obtain ⟨other, ho, hkey, ha⟩ := hc question hm
  obtain ⟨page, hpage⟩ := List.mem_iff_getElem?.mp ho
  exact ⟨page, mem_answerablePages.mpr ⟨by simp, other, hpage, ha⟩, other, hpage, hkey⟩

theorem only_page (hp : Placed state) (hm : isMultiPage state = false) : state.currentPage = 0 ∧
    ∃ question, state.questionnaire.questions = [question] ∧
      currentFormQuestion state = some question := by
  have hle : state.questionnaire.questions.length ≤ 1 := by
    simpa [isMultiPage] using hm
  obtain hlt | ⟨hm', -⟩ := hp.pageOf
  · have hpage : state.currentPage = 0 := by omega
    obtain ⟨question, hq⟩ := List.length_eq_one_iff.mp (show state.questionnaire.questions.length = 1 by omega)
    exact ⟨hpage, question, hq, by simp [currentFormQuestion, hpage, hq]⟩
  · rw [hm] at hm'
    exact absurd hm' (by simp)

theorem completes (session : Session) (hp : Placed session.form) (hc : Completable session.form.questionnaire) :
    ∃ last event, Leads session last ∧ Finishes last.form event := by
  cases hm : isMultiPage session.form with
  | true =>
    obtain ⟨ready, hl, hall, -⟩ := complete_pages hp hm none (covered hc)
    have hm' := (isMultiPage_congr (hl.questionnaire hp)).trans hm
    obtain ⟨last, hw, hf, -⟩ := submit (hl.placed hp) hm' hall
    exact ⟨last, .keyEnter, hl.trans hw.leads, hf⟩
  | false =>
    obtain ⟨closed, hw, hmode, -⟩ := leave_editor hp
    have hp' := hw.leads.placed hp
    have hm' := (isMultiPage_congr hw.questionnaire).trans hm
    obtain ⟨-, question, hquestions, hq⟩ := only_page hp' hm'
    have ha : answerable question = true := by
      rw [← hw.questionnaire] at hc
      obtain ⟨other, ho, -, ha⟩ := hc question (by simp [hquestions])
      rw [hquestions, List.mem_singleton] at ho
      exact ho ▸ ha
    obtain ⟨last, event, choice, hn, -, hr⟩ := answer_here hp' hmode hq ha
    have hm'' := (isMultiPage_congr hn.questionnaire).trans hm'
    exact ⟨last, event, hw.leads.trans hn.leads, hr.dispatches, hr.finishes hm''⟩

theorem run_dispatch {events : List FormEvent} {next : Session} (h : Run Session.step Still session events next) :
    Run dispatch Open session.form events next.form := by
  induction h with
  | nil => exact .nil
  | snoc _ hs hm ih =>
    obtain ⟨hd, rfl⟩ := session_step_eq_some hs
    exact .snoc ih (dispatch_of_dispatches hd) hm

structure Dispatched (questionnaire : Questionnaire) (state : FormState) : Prop where
  placed : Placed state
  batch : state.questionnaire = questionnaire
  keys : ∀ key, Dict.has state.answers key = true →
    ∃ question ∈ questionnaire.questions, question.key = key ∧ answerable question = true

theorem dispatched_after (h : Dispatched questionnaire state) (hs : dispatch state event = some next) :
    Dispatched questionnaire next := by
  have hd := (dispatch_eq_some hs).1
  refine ⟨placed_dispatch h.placed hs, (questionnaire_dispatch h.placed hs).trans h.batch, ?_⟩
  intro key hkey
  rw [answers_dispatch h.placed hs] at hkey
  unfold recordedAnswers at hkey
  cases hq : currentFormQuestion state with
  | none =>
    rw [hq] at hkey
    exact h.keys key hkey
  | some question =>
    rw [hq, Option.bind_some] at hkey
    cases hr : recorded state question event with
    | none =>
      rw [hr] at hkey
      exact h.keys key hkey
    | some selection =>
      rw [hr, Option.map_some, Option.getD_some] at hkey
      obtain rfl | hkey := has_set.mp hkey
      · have hm : question ∈ state.questionnaire.questions := List.mem_of_getElem? hq
        exact ⟨question, h.batch ▸ hm, rfl, recorded_answerable h.placed hd hq hr⟩
      · exact h.keys key hkey

theorem dispatched_initial (h : questionnaire.questions ≠ []) :
    Dispatched questionnaire (initialFormState questionnaire) :=
  ⟨placed_initialFormState questionnaire h, rfl, by simp [initialFormState, Dict.has]⟩

theorem dispatched_run {Meets : FormState → FormEvent → Prop} {events : List FormEvent}
    (h : Run dispatch Meets state events next) (hs : Dispatched questionnaire state) :
    Dispatched questionnaire next :=
  h.keeps hs (fun _ _ _ hs _ hstep => dispatched_after hs hstep)

theorem answered_of_finishes (hp : Placed state) (h : Finishes state event) :
    ∀ question ∈ state.questionnaire.questions,
      Dict.has (reduceForm state event).state.answers question.key = true := by
  intro question hm
  obtain ⟨-, hall, hstate⟩ | ⟨hmulti, current, selection, hq, hr⟩ := finishes_cases hp h
  · rw [hstate]
    exact List.all_eq_true.mp hall question hm
  · obtain ⟨-, only, hquestions, hcurrent⟩ := only_page hp hmulti
    rw [hq, Option.some_inj] at hcurrent
    rw [hquestions, List.mem_singleton] at hm
    obtain rfl : current = question := hcurrent.trans hm.symm
    rw [(reduceForm_turns hp h.1).answers]
    simp [noted, recordedAnswers, hq, hr, Dict.has]

theorem completable_of_finishes (hs : Dispatched questionnaire state) (h : Finishes state event) :
    Completable questionnaire := by
  intro question hm
  have hafter := dispatched_after hs (dispatch_of_dispatches h.1)
  have hhas := answered_of_finishes hs.placed h question (by rw [hs.batch]; exact hm)
  exact hafter.keys _ hhas

/-- A form can be brought to its end from wherever it stands exactly if each key has a page to answer it on. -/
theorem finishes_from_everywhere_iff (questionnaire : Questionnaire) (h : questionnaire.questions ≠ []) :
    (∀ events state, Run dispatch Unconditional (initialFormState questionnaire) events state →
      ∃ more last event, Run dispatch Open state more last ∧ Finishes last event) ↔
        Completable questionnaire := by
  constructor
  · intro hall
    obtain ⟨more, last, event, hrun, hf⟩ := hall [] _ .nil
    exact completable_of_finishes (dispatched_run hrun (dispatched_initial h)) hf
  · intro hc events state hrun
    have hs := dispatched_run hrun (dispatched_initial h)
    rw [← hs.batch] at hc
    obtain ⟨last, event, ⟨more, hm⟩, hf⟩ := completes ⟨state, fun _ => none⟩ hs.placed hc
    exact ⟨more, last.form, event, run_dispatch hm, hf⟩

def oneQuestion (question : Question) : Questionnaire where
  title := none
  questions := [question]

theorem completable_releasing : Completable releasing := by
  intro question hm
  refine ⟨question, hm, rfl, ?_⟩
  simp only [releasing, List.mem_cons, List.not_mem_nil, or_false] at hm
  obtain rfl | rfl | rfl := hm
  · rfl
  · rfl
  · rfl

theorem finishes_from_everywhere_releasing : releasing.questions ≠ [] ∧
    ∀ events state, Run dispatch Unconditional (initialFormState releasing) events state →
      ∃ more last event, Run dispatch Open state more last ∧ Finishes last event := by
  have hne : releasing.questions ≠ [] := List.cons_ne_nil _ _
  exact ⟨hne, (finishes_from_everywhere_iff releasing hne).mpr completable_releasing⟩

/-- A choice between no options cannot be made, and the form cannot be submitted without it. -/
theorem no_options_no_end : ¬ ∀ questionnaire : Questionnaire, questionnaire.questions ≠ [] →
    ∀ events state, Run dispatch Unconditional (initialFormState questionnaire) events state →
      ∃ more last event, Run dispatch Open state more last ∧ Finishes last event := by
  intro hall
  have hne : (oneQuestion { key := "target", header := "Target", question := "Which?", kind := .single }).questions ≠ [] := by simp [oneQuestion]
  obtain ⟨more, last, event, hrun, hf⟩ := hall _ hne [] _ .nil
  have hc := completable_of_finishes (dispatched_run hrun (dispatched_initial hne)) hf
  obtain ⟨other, ho, -, ha⟩ := hc _ (List.mem_singleton.mpr rfl)
  rw [oneQuestion, List.mem_singleton] at ho
  subst ho
  simp [answerable] at ha

theorem inRange_of_placed (h : Placed state) : InRange state where
  page := h.pageOf
  focus := by
    have hfocus := h.focus
    cases hoptions : currentFormOptions state with
    | nil =>
      rw [hoptions, List.length_nil] at hfocus
      exact .inr ⟨rfl, by omega⟩
    | cons option rest =>
      rw [hoptions, List.length_cons] at hfocus
      exact .inl (by rw [List.length_cons]; omega)

structure Started (questionnaire : Questionnaire) (session : Session) : Prop where
  form : Dispatched questionnaire session.form
  tracks : (questionnaire.questions.map Question.key).Nodup → Tracks session

theorem started_run {Meets : Session → FormEvent → Prop} {events : List FormEvent} {next : Session}
    (h : Run Session.step Meets session events next) (hs : Started questionnaire session) :
    Started questionnaire next := by
  refine h.keeps hs ?_
  intro session event next hs _ hstep
  obtain ⟨hd, rfl⟩ := session_step_eq_some hstep
  refine ⟨dispatched_after hs.form (dispatch_of_dispatches hd), ?_⟩
  intro hk
  refine tracks_after (hs.tracks hk) ?_ hd
  rw [hs.form.batch]
  exact hk

theorem started_start (h : questionnaire.questions ≠ []) : Started questionnaire (Session.start questionnaire) :=
  ⟨dispatched_initial h, fun _ => tracks_start questionnaire h⟩

theorem exists_choice_of_finishes (hs : Started questionnaire session)
    (hk : (questionnaire.questions.map Question.key).Nodup) (h : Finishes session.form event) {page : Nat}
    (hq : questionnaire.questions[page]? = some question) : ∃ choice, Tracks (session.after event) ∧
      (session.after event).form.questionnaire = questionnaire ∧
      (session.after event).choices page = some choice ∧ Suits question choice := by
  have hbatch := (after_questionnaire hs.form.placed h.1).trans hs.form.batch
  have htracks := tracks_after (hs.tracks hk) (by rw [hs.form.batch]; exact hk) h.1
  have hhas := answered_of_finishes hs.form.placed h question (by
    rw [hs.form.batch]
    exact List.mem_of_getElem? hq)
  have hq' := hq
  rw [← hbatch] at hq'
  change Dict.has (session.after event).form.answers question.key = true at hhas
  rw [Dict.has, htracks.answers page question hq', Option.isSome_map] at hhas
  obtain ⟨choice, hc⟩ := Option.isSome_iff_exists.mp hhas
  exact ⟨choice, htracks, hbatch, hc, htracks.suits page question hq' choice hc⟩

theorem returns_of_distinguishes (hs : Started questionnaire session) (hd : Distinguishes questionnaire)
    (h : Finishes session.form event) : ReturnsChoices session event := by
  intro page question hq
  rw [hs.form.batch] at hq
  have hm := List.mem_of_getElem? hq
  obtain ⟨choice, htracks, hbatch, hc, hsuits⟩ := exists_choice_of_finishes hs hd.keys h hq
  have hproto : question.key ≠ "__proto__" := by
    intro he
    exact hd.prototype (he ▸ List.mem_map_of_mem hm)
  refine ⟨choice, hc, hsuits, ?_⟩
  rw [get_formAnswers htracks (by rw [hbatch]; exact hd.keys) hproto (by rw [hbatch]; exact hq) hc,
    assembleOne_selection hsuits (hd.options question hm)]

theorem get_assembleAnswers_proto (questions : List Question) (raw : RawSelections) :
    Dict.get (assembleAnswers questions raw) "__proto__" = none := by
  have hkeeps : ∀ record : Record, Dict.get record "__proto__" = none →
      Dict.get (questions.foldl (fun answers question => assign answers question.key
        (assembleOne question ((Dict.get raw question.key).getD {}))) record) "__proto__" = none := by
    induction questions with
    | nil => exact fun _ h => h
    | cons question rest ih =>
      intro record h
      refine ih _ ?_
      rw [get_assign, if_neg (by simp +contextual [eq_comm]), h]
  exact hkeeps [] rfl

theorem keys_of_returns (h : questionnaire.questions ≠ []) (hc : Completable questionnaire)
    (hr : ReturnsWhatWasChosen questionnaire) : (questionnaire.questions.map Question.key).Nodup := by
  rw [List.nodup_iff_getElem?_ne_getElem?]
  intro i j hij hj hkeys
  rw [List.length_map] at hj
  obtain ⟨first, hi'⟩ : ∃ first, questionnaire.questions[i]? = some first :=
    ⟨_, List.getElem?_eq_getElem (hij.trans hj)⟩
  obtain ⟨second, hj'⟩ : ∃ second, questionnaire.questions[j]? = some second := ⟨_, List.getElem?_eq_getElem hj⟩
  simp only [List.getElem?_map, hi', hj', Option.map_some, Option.some_inj] at hkeys
  obtain ⟨other, ho, hkey, ha⟩ := hc first (List.mem_of_getElem? hi')
  obtain ⟨page, hpage⟩ := List.mem_iff_getElem?.mp ho
  -- one of the two pages is not the one their key is answered on
  obtain ⟨left, hne, skipped, hleft, hskipped⟩ : ∃ left, left ≠ page ∧ ∃ skipped,
      questionnaire.questions[left]? = some skipped ∧ skipped.key = first.key := by
    by_cases hi : i = page
    · exact ⟨j, by omega, second, hj', hkeys.symm⟩
    · exact ⟨i, hi, first, hi', rfl⟩
  have hs := started_start h
  have hm : isMultiPage (Session.start questionnaire).form = true := by
    have : 1 < questionnaire.questions.length := by omega
    exact decide_eq_true this
  obtain ⟨ready, hl, hall, hkept⟩ := complete_pages hs.form.placed hm (some left) (by
    intro question hq
    obtain ⟨covering, hcovers, answered, hanswered, hcovered⟩ := covered hc question hq
    by_cases hcovering : covering = left
    · subst hcovering
      rw [hleft, Option.some_inj] at hanswered
      subst hanswered
      refine ⟨page, mem_answerablePages.mpr ⟨by simpa using hne, other, hpage, ha⟩, other, hpage, ?_⟩
      rw [hkey, ← hskipped, hcovered]
    · have hanswerable := (mem_answerablePages.mp hcovers).2
      exact ⟨covering, mem_answerablePages.mpr ⟨by simpa using Ne.symm hcovering, hanswerable⟩, answered, hanswered,
        hcovered⟩)
  obtain ⟨last, hw, hf, hafter⟩ := submit (hl.placed hs.form.placed)
    ((isMultiPage_congr (hl.questionnaire hs.form.placed)).trans hm) hall
  obtain ⟨events, hrun⟩ := hl.trans hw.leads
  obtain ⟨choice, hchoice, -⟩ := ((hr events last (hrun.mono (fun _ _ _ => trivial))).2 _ hf).2 left skipped (by
    rw [(started_run hrun hs).form.batch]
    exact hleft)
  rw [hafter, hw.choices, hkept left rfl] at hchoice
  simp [Session.start] at hchoice

theorem prototype_of_returns (h : questionnaire.questions ≠ []) (hc : Completable questionnaire)
    (hr : ReturnsWhatWasChosen questionnaire) : "__proto__" ∉ questionnaire.questions.map Question.key := by
  intro hm
  obtain ⟨question, hq, hkey⟩ := List.mem_map.mp hm
  obtain ⟨page, hpage⟩ := List.mem_iff_getElem?.mp hq
  have hs := started_start h
  obtain ⟨last, event, ⟨events, hrun⟩, hf⟩ := completes _ hs.form.placed hc
  obtain ⟨choice, -, -, hget⟩ := ((hr events last (hrun.mono (fun _ _ _ => trivial))).2 _ hf).2 page question (by
    rw [(started_run hrun hs).form.batch]
    exact hpage)
  rw [hkey, formAnswers, get_assembleAnswers_proto] at hget
  simp at hget

/-- Any option of a choice between several can be the one a form ends with. -/
theorem ends_with_option (h : questionnaire.questions ≠ []) (hc : Completable questionnaire) {page : Nat}
    (hq : questionnaire.questions[page]? = some question) (hk : question.kind = .single) {value : String}
    (ho : Offered question value) : ∃ last event, Leads (Session.start questionnaire) last ∧
      Finishes last.form event ∧ (last.after event).choices page = some (.picked value) := by
  have hs := started_start h
  have hp := hs.form.placed
  cases hm : isMultiPage (Session.start questionnaire).form with
  | true =>
    obtain ⟨ready, hl, hall, -⟩ := complete_pages hp hm none (covered hc)
    have hbatch := hl.questionnaire hp
    have hp' := hl.placed hp
    have hm' := (isMultiPage_congr hbatch).trans hm
    have hle : page ≤ ready.form.questionnaire.questions.length := by
      rw [hbatch]
      exact (List.getElem?_eq_some_iff.mp hq).1.le
    obtain ⟨there, hw, hmode, rfl⟩ := goto_page hp' hm' hle
    have hq' : currentFormQuestion there.form = some question := by
      rw [currentFormQuestion, hw.questionnaire, hbatch]
      exact hq
    obtain ⟨focused, hf, hpage, hr⟩ := pick_option (hw.leads.placed hp') hmode hq' hk ho
    obtain ⟨recorded, hl', hchoices, hkeys⟩ := record_page (hw.trans hf) hp' hm' hr
    have hall' : allQuestionsAnswered recorded.form = true := by
      rw [allQuestionsAnswered, hl'.questionnaire hp', List.all_eq_true]
      intro other hother
      exact (hkeys other.key).mpr (.inr (List.all_eq_true.mp hall other hother))
    obtain ⟨last, hw', hfinishes, hafter⟩ := submit (hl'.placed hp')
      ((isMultiPage_congr (hl'.questionnaire hp')).trans hm') hall'
    refine ⟨last, .keyEnter, (hl.trans hl').trans hw'.leads, hfinishes, ?_⟩
    rw [hafter, hw'.choices, hchoices, hpage, Function.update_self]
  | false =>
    obtain ⟨closed, hw, hmode, hpage⟩ := leave_editor hp
    have hm' := (isMultiPage_congr hw.questionnaire).trans hm
    obtain ⟨hzero, only, hquestions, hcurrent⟩ := only_page (hw.leads.placed hp) hm'
    rw [hw.questionnaire] at hquestions
    change questionnaire.questions = [only] at hquestions
    obtain ⟨rfl, rfl⟩ : page = 0 ∧ only = question := by
      rw [hquestions] at hq
      have hlt := (List.getElem?_eq_some_iff.mp hq).1
      obtain rfl : page = 0 := by simpa using hlt
      exact ⟨rfl, by simpa using hq⟩
    obtain ⟨focused, hf, hpage', hr⟩ := pick_option (hw.leads.placed hp) hmode hcurrent hk ho
    refine ⟨focused, .keyEnter, hw.leads.trans hf.leads, ⟨hr.dispatches, ?_⟩, ?_⟩
    · exact hr.finishes ((isMultiPage_congr hf.questionnaire).trans hm')
    · rw [hr.choices_after, hpage', hzero, Function.update_self]

theorem options_of_returns (h : questionnaire.questions ≠ []) (hc : Completable questionnaire)
    (hr : ReturnsWhatWasChosen questionnaire) (hnodup : (questionnaire.questions.map Question.key).Nodup)
    (hm : question ∈ questionnaire.questions) (hk : question.kind = .single) : ¬ Offered question otherValue := by
  intro ho
  obtain ⟨page, hpage⟩ := List.mem_iff_getElem?.mp hm
  obtain ⟨last, event, ⟨events, hrun⟩, hf, hpicked⟩ := ends_with_option h hc hpage hk ho
  have hs := started_run hrun (started_start h)
  obtain ⟨choice, htracks, hbatch, hchoice, -⟩ := exists_choice_of_finishes hs hnodup hf hpage
  obtain ⟨returned, hreturned, -, hget⟩ := ((hr events last (hrun.mono (fun _ _ _ => trivial))).2 _ hf).2
    page question (by rw [hs.form.batch]; exact hpage)
  rw [hpicked, Option.some_inj] at hreturned
  have hproto : question.key ≠ "__proto__" := by
    intro he
    exact prototype_of_returns h hc hr (he ▸ List.mem_map_of_mem hm)
  rw [get_formAnswers htracks (by rw [hbatch]; exact hnodup) hproto (by rw [hbatch]; exact hpage) hpicked,
    ← hreturned] at hget
  simp [assembleOne, hk, Choice.selection, Choice.value, otherValue] at hget

/-- What a form hands over is what was chosen on its pages, exactly if its questions can be told apart. -/
theorem returns_what_was_chosen_iff (questionnaire : Questionnaire) (h : questionnaire.questions ≠ []) :
    ReturnsWhatWasChosen questionnaire ↔ (Completable questionnaire → Distinguishes questionnaire) := by
  constructor
  · intro hr hc
    have hnodup := keys_of_returns h hc hr
    exact ⟨hnodup, prototype_of_returns h hc hr, fun question hm hk => options_of_returns h hc hr hnodup hm hk⟩
  · intro hd events session hrun
    have hs := started_run hrun (started_start h)
    refine ⟨inRange_of_placed hs.form.placed, ?_⟩
    intro event hf
    constructor
    · intro hm
      obtain ⟨hsubmit, -⟩ | ⟨hsingle, -⟩ := finishes_cases hs.form.placed hf
      · exact hsubmit
      · rw [hm] at hsingle
        exact absurd hsingle (by simp)
    · exact returns_of_distinguishes hs (hd (completable_of_finishes hs.form hf)) hf

theorem distinguishes_releasing : Distinguishes releasing := by
  refine ⟨by decide, by decide, ?_⟩
  intro question hm hk
  simp only [releasing, List.mem_cons, List.not_mem_nil, or_false] at hm
  obtain rfl | rfl | rfl := hm
  · simp [Offered, otherValue]
  · cases hk
  · cases hk

theorem returns_what_was_chosen_releasing : releasing.questions ≠ [] ∧ Completable releasing ∧
    ReturnsWhatWasChosen releasing := by
  have hne : releasing.questions ≠ [] := List.cons_ne_nil _ _
  exact ⟨hne, completable_releasing, (returns_what_was_chosen_iff releasing hne).mpr (fun _ => distinguishes_releasing)⟩

def twoNames : Questionnaire where
  questions := [{ key := "name", header := "First", question := "First name?", kind := .text },
    { key := "name", header := "Last", question := "Last name?", kind := .text }]

/-- Two questions under one key: the form hands over the last name for both. -/
theorem same_key_returns_other : ¬ ∀ questionnaire : Questionnaire, questionnaire.questions ≠ [] →
    ReturnsWhatWasChosen questionnaire := by
  intro hall
  have hr := hall twoNames (by simp [twoNames])
  have hc : Completable twoNames := by
    intro question hm
    refine ⟨question, hm, rfl, ?_⟩
    simp only [twoNames, List.mem_cons, List.not_mem_nil, or_false] at hm
    obtain rfl | rfl := hm
    · rfl
    · rfl
  have := keys_of_returns (by simp [twoNames]) hc hr
  simp [twoNames] at this

end KimchiWorkflows.Host
