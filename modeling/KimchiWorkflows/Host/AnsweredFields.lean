import KimchiWorkflows.Host.Answerability

/-!
One question against the field it asks for, and the record that the answers to all of them make.
-/

namespace KimchiWorkflows.Host

open KimchiWorkflows.Flow KimchiWorkflows.Engine

def Asks (question : Question) (field : AskedField) : Prop :=
  ∃ name section_, question = { buildQuestion name field.schema section_ with key := field.key }

theorem asks_key {question : Question} {field : AskedField} (h : Asks question field) : question.key = field.key := by
  obtain ⟨name, section_, rfl⟩ := h
  rfl

theorem asks_questionsOf (property : Property) : List.Forall₂ Asks (questionsOf property) (fieldsOf property) := by
  unfold questionsOf fieldsOf
  by_cases ho : isObjectSchema property.field = true
  · simp only [ho, if_true]
    generalize objectProperties property.field = subs
    induction subs with
    | nil => exact List.Forall₂.nil
    | cons sub rest ih => exact List.Forall₂.cons ⟨_, _, rfl⟩ ih
  · simp only [ho]
    refine List.Forall₂.cons ⟨property.name, none, ?_⟩ List.Forall₂.nil
    unfold buildQuestion
    cases literalOptions property.field <;> cases itemOptions property.field <;>
      cases property.field.annotations.chat <;> rfl

theorem asks_questionnaireFromSchema (outputSchema : TSchema) :
    List.Forall₂ Asks (questionnaireFromSchema outputSchema).questions (askedFields outputSchema) := by
  unfold questionnaireFromSchema askedFields
  generalize objectProperties outputSchema = properties
  induction properties with
  | nil => exact List.Forall₂.nil
  | cons property rest ih =>
    simp only [List.flatMap_cons]
    exact List.rel_append (asks_questionsOf property) ih

theorem literalOptions_values (field : TSchema) :
    (literalOptions field).map (List.map QuestionOption.value) = optionTexts field := by
  cases field <;> simp only [literalOptions, optionTexts, Option.map_none]
  case union members =>
    split
    · rfl
    · simp [optionFromConstMember]
  case enum values => simp

theorem itemOptions_values (field : TSchema) :
    (itemOptions field).map (List.map QuestionOption.value) = choiceTexts field := by
  cases field <;> simp only [itemOptions, choiceTexts, Option.map_none]
  exact literalOptions_values _

theorem markDefault_values (options : List QuestionOption) (target : Option String) :
    (markDefault options target).map QuestionOption.value = options.map QuestionOption.value := by
  cases target with
  | none => rfl
  | some text =>
    simp only [markDefault, List.map_map]
    apply List.map_congr_left
    intro option _
    by_cases h : option.value = text <;> simp [h]

theorem orderedOptions_perm (question : Question) : (orderedOptions question).Perm (question.options.getD []) :=
  List.mergeSort_perm _ _

def Alike (answer other : Answer) : Prop := ∀ field, Admits field answer ↔ Admits field other

theorem alike_perm {values others : List String} (h : values.Perm others) :
    Alike (.chosen values) (.chosen others) := by
  intro field
  cases field <;> simp only [Admits]
  rw [h.length_eq, h.nodup_iff]
  simp only [h.mem_iff]

section Question

variable {question : Question} {field : AskedField}

theorem asks_single {texts : List String} (h : Asks question field) (ht : optionTexts field.schema = some texts) :
    question.kind = .single ∧ (question.options.getD []).map QuestionOption.value = texts ∧
      (question.allowOther = some true ↔ field.schema.annotations.allowOther = true) := by
  obtain ⟨name, section_, rfl⟩ := h
  rw [← literalOptions_values] at ht
  obtain ⟨options, ho, rfl⟩ := Option.map_eq_some_iff.mp ht
  have hvalues := markDefault_values options field.schema.annotations.defaultText
  simp only [buildQuestion, ho, Option.getD_some]
  refine ⟨trivial, hvalues, ?_⟩
  split <;> simp_all

theorem asks_multi {texts : List String} (h : Asks question field) (hn : optionTexts field.schema = none)
    (ht : choiceTexts field.schema = some texts) :
    question.kind = .multi ∧ (question.options.getD []).map QuestionOption.value = texts := by
  obtain ⟨name, section_, rfl⟩ := h
  rw [← literalOptions_values, Option.map_eq_none_iff] at hn
  rw [← itemOptions_values] at ht
  obtain ⟨options, ho, rfl⟩ := Option.map_eq_some_iff.mp ht
  simp [buildQuestion, ho, hn]

theorem asks_text (h : Asks question field) (hn : optionTexts field.schema = none)
    (ht : choiceTexts field.schema = none) : question.kind = .text ∨ question.kind = .chat := by
  obtain ⟨name, section_, rfl⟩ := h
  rw [← literalOptions_values, Option.map_eq_none_iff] at hn
  rw [← itemOptions_values, Option.map_eq_none_iff] at ht
  simp only [buildQuestion, ht, hn]
  split
  · exact .inr rfl
  · exact .inl rfl

theorem mem_orderedOptions {texts : List String} (h : (question.options.getD []).map QuestionOption.value = texts)
    (s : String) : s ∈ texts ↔ ∃ option ∈ orderedOptions question, option.value = s := by
  rw [← h, List.mem_map]
  simp only [(orderedOptions_perm question).mem_iff]

theorem gives_of_offers {selection : RawSelection} (h : Asks question field) (ho : Offers question selection) :
    ∃ answer, Gives field.schema answer ∧ answer.value = assembleOne question selection := by
  cases ht : optionTexts field.schema with
  | some texts =>
    obtain ⟨hk, hv, hallow⟩ := asks_single h ht
    simp only [Offers, hk] at ho
    simp only [assembleOne, hk]
    obtain ⟨option, hm, rfl⟩ | ⟨ha, text, rfl⟩ := ho
    · have hin : option.value ∈ texts := (mem_orderedOptions hv _).mpr ⟨option, hm, rfl⟩
      by_cases hother : option.value = otherValue
      · refine ⟨.text "", ?_, by simp [hother, Answer.value]⟩
        simp only [Gives, ht]
        exact .inr (.inl ⟨trivial, hother ▸ hin⟩)
      · refine ⟨.text option.value, ?_, by simp [hother, Answer.value]⟩
        simp only [Gives, ht]
        exact .inl ⟨hin, hother⟩
    · refine ⟨.text text, ?_, by simp [Answer.value]⟩
      simp only [Gives, ht]
      exact .inr (.inr (hallow.mp ha))
  | none =>
    cases hc : choiceTexts field.schema with
    | some texts =>
      obtain ⟨hk, hv⟩ := asks_multi h ht hc
      simp only [Offers, hk] at ho
      obtain ⟨chosen, hsub, rfl⟩ := ho
      refine ⟨.chosen chosen, ?_, by simp [assembleOne, hk, Answer.value]⟩
      simp only [Gives, ht, hc]
      rw [← hv]
      exact hsub.subperm.trans ((orderedOptions_perm question).map _).subperm
    | none =>
      have hg : ∀ s, Gives field.schema (.text s) := by
        intro s
        simp [Gives, ht, hc]
      obtain hk | hk := asks_text h ht hc <;>
      · simp only [Offers, hk] at ho
        obtain ⟨text, rfl⟩ := ho
        exact ⟨.text text, hg text, by simp [assembleOne, hk, Answer.value]⟩

theorem offers_of_gives {answer : Answer} (h : Asks question field) (hg : Gives field.schema answer) :
    ∃ selection other, Offers question selection ∧ Alike answer other ∧
      other.value = assembleOne question selection := by
  cases ht : optionTexts field.schema with
  | some texts =>
    obtain ⟨hk, hv, hallow⟩ := asks_single h ht
    cases answer with
    | chosen values => simp [Gives, ht] at hg
    | text s =>
      simp only [Gives, ht] at hg
      simp only [Offers, assembleOne, hk]
      obtain ⟨hin, hne⟩ | ⟨rfl, hin⟩ | ha := hg
      · obtain ⟨option, hm, rfl⟩ := (mem_orderedOptions hv _).mp hin
        refine ⟨{ option := some option.value }, .text option.value, .inl ⟨option, hm, rfl⟩, fun _ => Iff.rfl, ?_⟩
        simp [hne, Answer.value]
      · obtain ⟨option, hm, he⟩ := (mem_orderedOptions hv _).mp hin
        refine ⟨{ option := some option.value }, .text "", .inl ⟨option, hm, rfl⟩, fun _ => Iff.rfl, ?_⟩
        simp [he, Answer.value]
      · refine ⟨{ option := some otherValue, text := some s }, .text s, .inr ⟨hallow.mpr ha, s, rfl⟩,
          fun _ => Iff.rfl, ?_⟩
        simp [Answer.value]
  | none =>
    cases hc : choiceTexts field.schema with
    | some texts =>
      obtain ⟨hk, hv⟩ := asks_multi h ht hc
      cases answer with
      | text s => simp [Gives, ht, hc] at hg
      | chosen values =>
        simp only [Gives, ht, hc, ← hv] at hg
        obtain ⟨chosen, hp, hsub⟩ := hg.trans ((orderedOptions_perm question).map _).symm.subperm
        refine ⟨{ options := some chosen }, .chosen chosen, ?_, alike_perm hp.symm, ?_⟩
        · simp only [Offers, hk]
          exact ⟨chosen, hsub, rfl⟩
        · simp [assembleOne, hk, Answer.value]
    | none =>
      cases answer with
      | chosen values => simp [Gives, ht, hc] at hg
      | text s =>
        obtain hk | hk := asks_text h ht hc <;>
        · refine ⟨{ text := some s }, .text s, ?_, fun _ => Iff.rfl, by simp [assembleOne, hk, Answer.value]⟩
          simp only [Offers, hk]
          exact ⟨s, rfl⟩

end Question

end KimchiWorkflows.Host
