import KimchiWorkflows.Host.AnswerAcceptance

namespace KimchiWorkflows.Host

open KimchiWorkflows.Flow KimchiWorkflows.Engine

theorem answered_ok_iff {validator : Validator} {name : String} {schema : TSchema} {answers : Record} :
    (∃ output, answerQuestionnaireStep { name := name, outputSchema := schema.schema validator } answers = .ok output) ↔
      validator.check schema (.object (answersToOutput schema answers)) = true := by
  simp only [answerQuestionnaireStep, TSchema.schema, describeSchemaViolations]
  cases hc : validator.check schema (.object (answersToOutput schema answers)) with
  | true => simp
  | false => cases (validator.errors schema (.object (answersToOutput schema answers))).take 5 <;> simp

def valueUnder (entries : List Entry) (key : String) : Value := ((lastEntry entries key).map Entry.value).getD .null

theorem value_ne_undefined (entry : Entry) : entry.value ≠ .undefined := by
  unfold Entry.value assembleOne
  split
  · split <;> simp
  all_goals simp

theorem holds_of_filled {entries : List Entry} (hf : Filled entries) :
    Holds (entries.map Entry.field) (assembleAnswers (entries.map Entry.question)
      (collected (entries.map Entry.question) (entries.map Entry.selection))) (valueUnder entries) := by
  intro f hm hk
  obtain ⟨entry, he, rfl⟩ := List.mem_map.mp hm
  obtain ⟨other, hl⟩ := lastEntry_of_mem he
  rw [get_assembleAnswers hf hk]
  have hne := value_ne_undefined other
  simpa [valueUnder, hl] using hne

section Completion

variable {validator : Validator} (hv : Lawful validator)

include hv

theorem completes_iff (name : String) {schema : TSchema} (hd : DistinctNames schema) {entries : List Entry}
    (hf : Filled entries) (hfields : entries.map Entry.field = askedFields schema) :
    (∃ output, answerQuestionnaireStep { name := name, outputSchema := schema.schema validator }
      (assembleAnswers (entries.map Entry.question)
        (collected (entries.map Entry.question) (entries.map Entry.selection))) = .ok output) ↔
    isObjectSchema schema = true ∧
      (∀ p ∈ objectProperties schema, p.name = "__proto__" → p.isOptional = true) ∧
      (∀ p ∈ objectProperties schema, p.name ≠ "__proto__" →
        ∀ sub ∈ objectProperties p.field, sub.name = "__proto__" → sub.isOptional = true) ∧
      ∀ f ∈ askedFields schema, f.lost = true ∨ validator.check f.schema (valueUnder entries f.key) = true := by
  rw [answered_ok_iff]
  exact check_output_iff hv hd (hfields ▸ holds_of_filled hf)

theorem fillable_of_canComplete {name : String} {schema : TSchema} (hd : DistinctNames schema)
    (h : CanComplete validator name schema) : Fillable schema := by
  obtain ⟨selections, hoffers, hok⟩ := h
  obtain ⟨entries, hq, hfields, rfl, hf⟩ := entries_of_answers (asks_questionnaireFromSchema schema) hoffers
  rw [← hq, completes_iff hv name hd hf hfields] at hok
  obtain ⟨hobj, hopt, hsub, hall⟩ := hok
  refine ⟨hobj, hopt, hsub, fun f hm => ?_⟩
  rw [← hfields] at hm
  obtain ⟨entry, he, rfl⟩ := List.mem_map.mp hm
  obtain ⟨answer, hg, _⟩ := gives_of_offers (hf entry he).1 (hf entry he).2
  obtain ⟨other, hl⟩ := lastEntry_of_mem he
  obtain ⟨hin, _⟩ := mem_of_lastEntry hl
  obtain ⟨final, hgives, hvalue⟩ := gives_of_offers (hf other hin).1 (hf other hin).2
  refine ⟨⟨answer, hg⟩, final, ?_, ?_⟩
  · intro field hlast
    rw [← hfields, last_schema, hl, Option.map_some, Option.some.injEq] at hlast
    exact hlast ▸ hgives
  · intro f hm hk
    obtain hlost | hc := hall f hm
    · exact .inl hlost
    · refine .inr ((check_answer_iff hv _ _).mp ?_)
      rw [hvalue]
      simpa [valueUnder, hk, hl, Entry.value] using hc

theorem canComplete_of_fillable {name : String} {schema : TSchema} (hd : DistinctNames schema)
    (h : Fillable schema) : CanComplete validator name schema := by
  obtain ⟨hobj, hopt, hsub, hall⟩ := h
  -- the last question under a key takes the common answer, the others any answer at all
  obtain ⟨entries, hq, hfields, hf, hchoice⟩ := entries_of_fields
    (fun field selection question =>
      Dict.last ((askedFields schema).map (fun f => (f.key, f.schema))) field.key = some field.schema →
        ∀ f ∈ askedFields schema, f.key = field.key → f.lost = true ∨
          validator.check f.schema (assembleOne question selection) = true)
    (asks_questionnaireFromSchema schema) (by
      intro field hm question ha
      obtain ⟨⟨answer, hg⟩, final, hgives, hadmits⟩ := hall field hm
      by_cases hlast : Dict.last ((askedFields schema).map (fun f => (f.key, f.schema))) field.key =
          some field.schema
      · obtain ⟨selection, other, ho, halike, hvalue⟩ := offers_of_gives ha (hgives _ hlast)
        refine ⟨selection, ho, fun _ f hin hk => (hadmits f hin hk).imp_right (fun had => ?_)⟩
        rw [← hvalue, check_answer_iff hv]
        exact (halike _).mp had
      · obtain ⟨selection, _, ho, _⟩ := offers_of_gives ha hg
        exact ⟨selection, ho, fun h => absurd h hlast⟩)
  refine ⟨entries.map Entry.selection, hq ▸ offers_of_filled hf, ?_⟩
  rw [← hq, completes_iff hv name hd hf hfields]
  refine ⟨hobj, hopt, hsub, fun f hm => ?_⟩
  have hin := hfields ▸ hm
  obtain ⟨entry, he, rfl⟩ := List.mem_map.mp hin
  obtain ⟨last, hl⟩ := lastEntry_of_mem he
  obtain ⟨hlast, hk⟩ := mem_of_lastEntry hl
  have hvalue : valueUnder entries entry.field.key = assembleOne last.question last.selection := by
    simp [valueUnder, hl, Entry.value]
  rw [hvalue]
  refine hchoice last hlast ?_ _ hm hk.symm
  rw [← hfields, last_schema, hk, hl]
  rfl

end Completion

mutual

def accepts : TSchema → Value → Bool
  | .string _ test, .string s => test s
  | .number _ test, .number n => test n
  | .integer _ test, .number n => n.den = 1 && test n
  | .boolean _, .bool _ => true
  | .literal _ c, v => decide (v = c.value)
  | .union _ members, v => members.any (fun m => decide (v = m.const.value))
  | .enum _ values, v => values.any (fun c => decide (v = c.value))
  | .array _ items least most unique, .array vs =>
    decide (least ≤ vs.length) && (most.all (fun n => decide (vs.length ≤ n)) && ((!unique || decide vs.Nodup) &&
      vs.all (accepts items)))
  | .object _ properties closed, .object fields =>
    acceptsAll properties fields &&
      (!closed || fields.all (fun f => decide (f.1 ∈ properties.map Property.name)))
  | _, _ => false

def acceptsAll : List Property → Record → Bool
  | [], _ => true
  | .mk name isOptional field :: rest, fields =>
    ((Dict.get fields name).elim isOptional (accepts field)) && acceptsAll rest fields

end

def checker : Validator where
  check := accepts
  errors := fun _ _ => []

theorem acceptsAll_iff (properties : List Property) (fields : Record) : acceptsAll properties fields = true ↔
    ∀ p ∈ properties, (Dict.get fields p.name).elim p.isOptional (accepts p.field) = true := by
  induction properties with
  | nil => simp [acceptsAll]
  | cons p rest ih =>
    obtain ⟨name, isOptional, field⟩ := p
    simp [acceptsAll, ih, Property.name, Property.isOptional, Property.field]

theorem checker_lawful : Lawful checker where
  string a test v := by cases v <;> simp [checker, accepts]
  number a test v := by cases v <;> simp [checker, accepts]
  integer a test v := by cases v <;> simp [checker, accepts]
  boolean a v := by cases v <;> simp [checker, accepts]
  literal a c v := by simp [checker, accepts]
  union a members v := by simp [checker, accepts]
  enum a values v := by simp [checker, accepts]
  array a items least most unique v := by
    cases v <;> simp [checker, accepts]
    cases most <;> cases unique <;> simp
  object a properties closed fields _ := by
    simp only [checker, accepts, Bool.and_eq_true, acceptsAll_iff]
    refine and_congr (forall_congr' (fun p => forall_congr' (fun _ => ?_))) ?_
    · cases Dict.get fields p.name <;> simp
    · cases closed <;> simp
  notObject a properties closed v h := by
    cases v <;> simp [checker, accepts] at h
    exact ⟨_, rfl⟩

def greeting : TSchema :=
  .object {} [.mk "name" false (.string {} (fun s => decide (s ≠ ""))),
    .mk "mood" true (.union {} [{ const := .string "warm" }, { const := .string "brisk", recommended := true }])] true

def consent : TSchema := .object {} [.mk "proceed" false (.boolean {})] true

/-- A step that derives its questions can be completed exactly when its schema can be filled in with texts. -/
theorem canComplete_iff {validator : Validator} (hv : Lawful validator) (name : String) {schema : TSchema}
    (hd : DistinctNames schema) : CanComplete validator name schema ↔ Fillable schema :=
  ⟨fillable_of_canComplete hv hd, canComplete_of_fillable hv hd⟩

theorem greeting_canComplete : CanComplete checker "form" greeting := by
  have hd : DistinctNames greeting := by
    simp [DistinctNames, greeting, objectProperties, Property.name, Property.field]
  refine (canComplete_iff checker_lawful "form" hd).mpr ⟨rfl, ?_, ?_, ?_⟩
  · simp [greeting, objectProperties, Property.name]
  · simp [greeting, objectProperties, Property.name, Property.field]
  · simp only [askedFields, greeting, objectProperties, List.flatMap_cons, List.flatMap_nil, fieldsOf, isObjectSchema,
      Property.field, Property.name, isLost, KeyAnswerable]
    simp only [Bool.false_eq_true, if_false, List.cons_append, List.nil_append, List.forall_mem_cons, List.map_cons,
      List.map_nil, Dict.last]
    refine ⟨⟨⟨.text "Ada", trivial⟩, .text "Ada", ?_⟩, ⟨⟨.text "warm", ?_⟩, .text "warm", ?_⟩, by simp⟩
    · simp [Gives, optionTexts, choiceTexts, Admits, AdmitsText]
    · simp [Gives, optionTexts, Literal.text, otherValue]
    · simp [Gives, optionTexts, Literal.text, otherValue, Admits, AdmitsText]

theorem consent_not_canComplete : Lawful checker ∧ DistinctNames consent ∧
    checker.check consent (.object [("proceed", .bool true)]) = true ∧ ¬CanComplete checker "form" consent := by
  have hd : DistinctNames consent := by simp [DistinctNames, consent, objectProperties, Property.name, Property.field]
  refine ⟨checker_lawful, hd, by decide, ?_⟩
  intro h
  obtain ⟨_, _, _, hall⟩ := fillable_of_canComplete checker_lawful hd h
  have hm : ⟨"proceed", .boolean {}, false⟩ ∈ askedFields consent := List.mem_singleton.mpr rfl
  obtain ⟨_, answer, _, hadmits⟩ := hall _ hm
  have h := hadmits _ hm rfl
  cases answer <;> simp [Admits, AdmitsText] at h

end KimchiWorkflows.Host
