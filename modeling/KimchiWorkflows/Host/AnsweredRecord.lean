import KimchiWorkflows.Host.AnsweredFields

/-!
What the record assembled from a batch holds under each key, and the output built from a record.
-/

namespace KimchiWorkflows.Host

open KimchiWorkflows.Flow KimchiWorkflows.Engine

/-- A field, the question asked for it and what was captured for that question. -/
structure Entry where
  field : AskedField
  question : Question
  selection : RawSelection

def Entry.value (entry : Entry) : Value := assembleOne entry.question entry.selection

/-- Every question of the entries asks for its field and can be answered with its selection. -/
def Filled (entries : List Entry) : Prop :=
  ∀ entry ∈ entries, Asks entry.question entry.field ∧ Offers entry.question entry.selection

def lastEntry (entries : List Entry) (key : String) : Option Entry :=
  Dict.last (entries.map (fun entry => (entry.field.key, entry))) key

theorem entries_of_answers {questions : List Question} {fields : List AskedField} {selections : List RawSelection}
    (ha : List.Forall₂ Asks questions fields) (ho : List.Forall₂ Offers questions selections) :
    ∃ entries, entries.map Entry.question = questions ∧ entries.map Entry.field = fields ∧
      entries.map Entry.selection = selections ∧ Filled entries := by
  induction ha generalizing selections with
  | nil =>
    cases ho
    exact ⟨[], rfl, rfl, rfl, by simp [Filled]⟩
  | @cons question field questions fields hd _ ih =>
    cases ho with
    | @cons _ selection _ selections hs hrest =>
      obtain ⟨entries, rfl, rfl, rfl, hf⟩ := ih hrest
      refine ⟨⟨field, question, selection⟩ :: entries, rfl, rfl, rfl, ?_⟩
      intro entry he
      obtain rfl | he := List.mem_cons.mp he
      · exact ⟨hd, hs⟩
      · exact hf entry he

theorem entries_of_fields {questions : List Question} {fields : List AskedField}
    (choice : AskedField → RawSelection → Question → Prop) (ha : List.Forall₂ Asks questions fields)
    (hc : ∀ field ∈ fields, ∀ question, Asks question field →
      ∃ selection, Offers question selection ∧ choice field selection question) :
    ∃ entries, entries.map Entry.question = questions ∧ entries.map Entry.field = fields ∧ Filled entries ∧
      ∀ entry ∈ entries, choice entry.field entry.selection entry.question := by
  induction ha with
  | nil => exact ⟨[], rfl, rfl, by simp [Filled], by simp⟩
  | @cons question field questions fields hd _ ih =>
    obtain ⟨entries, rfl, rfl, hf, hall⟩ := ih (fun f hm => hc f (List.mem_cons_of_mem _ hm))
    obtain ⟨selection, hs, hchoice⟩ := hc field (by simp) question hd
    refine ⟨⟨field, question, selection⟩ :: entries, rfl, rfl, ?_, ?_⟩
    · intro entry he
      obtain rfl | he := List.mem_cons.mp he
      · exact ⟨hd, hs⟩
      · exact hf entry he
    · intro entry he
      obtain rfl | he := List.mem_cons.mp he
      · exact hchoice
      · exact hall entry he

theorem offers_of_filled {entries : List Entry} (hf : Filled entries) :
    List.Forall₂ Offers (entries.map Entry.question) (entries.map Entry.selection) := by
  induction entries with
  | nil => exact List.Forall₂.nil
  | cons entry rest ih =>
    refine List.Forall₂.cons (hf entry (by simp)).2 (ih ?_)
    intro other hm
    exact hf other (List.mem_cons_of_mem _ hm)

theorem mem_of_lastEntry {entries : List Entry} {key : String} {entry : Entry}
    (h : lastEntry entries key = some entry) : entry ∈ entries ∧ entry.field.key = key := by
  have hm := Dict.mem_of_last h
  obtain ⟨other, hin, he⟩ := List.mem_map.mp hm
  obtain ⟨hk, rfl⟩ := Prod.mk.inj he
  exact ⟨hin, hk⟩

theorem lastEntry_of_mem {entries : List Entry} {entry : Entry} (h : entry ∈ entries) :
    ∃ other, lastEntry entries entry.field.key = some other := by
  have hm : (entry.field.key, entry) ∈ entries.map (fun entry => (entry.field.key, entry)) :=
    List.mem_map.mpr ⟨entry, h, rfl⟩
  exact Dict.last_isSome_of_mem hm

theorem last_schema (entries : List Entry) (key : String) :
    Dict.last ((entries.map Entry.field).map (fun f => (f.key, f.schema))) key =
      (lastEntry entries key).map (fun entry => entry.field.schema) := by
  rw [List.map_map]
  exact Dict.last_map (fun entry : Entry => entry.field.schema) (fun entry : Entry => entry.field.key) id _ entries key
    (fun _ _ _ => rfl)

theorem keyed_by_question {entries : List Entry} (hf : Filled entries) {ν : Type} (value : Entry → ν) :
    entries.map (fun entry => (entry.question.key, value entry)) =
      entries.map (fun entry => (entry.field.key, value entry)) := by
  apply List.map_congr_left
  intro entry he
  rw [asks_key (hf entry he).1]

theorem get_collected {entries : List Entry} (hf : Filled entries) (key : String) :
    Dict.get (collected (entries.map Entry.question) (entries.map Entry.selection)) key =
      (lastEntry entries key).map Entry.selection := by
  rw [collected, List.zip_map', Dict.get_foldl_set, List.map_map, Dict.get_nil, Option.or_none]
  refine (congrArg (Dict.last · key) (keyed_by_question hf Entry.selection)).trans ?_
  exact Dict.last_map Entry.selection (fun entry => entry.field.key) id Entry.selection entries key (fun _ _ _ => rfl)

theorem get_foldl_assign {α : Type} (name : α → String) (value : α → Value) (l : List α) (record : Record)
    {key : String} (hk : key ≠ "__proto__") :
    Dict.get (l.foldl (fun record a => assign record (name a) (value a)) record) key =
      (Dict.last (l.map (fun a => (name a, value a))) key).or (Dict.get record key) := by
  induction l generalizing record with
  | nil => simp [Dict.last]
  | cons a rest ih =>
    rw [List.foldl_cons, ih, get_assign]
    by_cases hn : name a = key
    · simp [Dict.last, hn, hk]
    · simp [Dict.last, hn, Ne.symm hn]

theorem get_assembleAnswers {entries : List Entry} (hf : Filled entries) {key : String} (hk : key ≠ "__proto__") :
    Dict.get (assembleAnswers (entries.map Entry.question)
        (collected (entries.map Entry.question) (entries.map Entry.selection))) key =
      (lastEntry entries key).map Entry.value := by
  rw [assembleAnswers, get_foldl_assign _ _ _ _ hk, List.map_map, Dict.get_nil, Option.or_none]
  refine (congrArg (Dict.last · key) (keyed_by_question hf _)).trans ?_
  refine (Dict.last_map _ (fun entry : Entry => entry.field.key) id _ entries key (fun _ _ _ => rfl)).trans ?_
  change (lastEntry entries key).map _ = _
  cases hl : lastEntry entries key with
  | none => rfl
  | some entry =>
    -- only the last question under a key is assembled from its own selection
    obtain ⟨hm, rfl⟩ := mem_of_lastEntry hl
    simp [asks_key (hf entry hm).1, get_collected hf, hl, Entry.value]

def place (value : Property → Option Value) (record : Record) (property : Property) : Record :=
  (value property).elim record (assign record property.name)

theorem takeAnswer_eq (answers record : Record) (name key : String) :
    takeAnswer answers record name key = (memberIn answers key).elim record (assign record name) := by
  unfold takeAnswer
  cases memberIn answers key <;> rfl

theorem memberIn_of_get {answers : Record} {key : String} {value : Value} (h : Dict.get answers key = some value) :
    memberIn answers key = some value := by
  rw [memberIn, h, Option.some_or]

theorem sectionOutput_eq (answers : Record) (property : Property) :
    sectionOutput answers property = (objectProperties property.field).foldl
      (place (fun sub => memberIn answers (property.name ++ "." ++ sub.name))) [] := by
  unfold sectionOutput place
  simp only [takeAnswer_eq]

def propertyValue (answers : Record) (property : Property) : Option Value :=
  if isObjectSchema property.field then some (.object (sectionOutput answers property))
  else memberIn answers property.name

theorem answersToOutput_eq (outputSchema : TSchema) (answers : Record) :
    answersToOutput outputSchema answers =
      (objectProperties outputSchema).foldl (place (propertyValue answers)) [] := by
  unfold answersToOutput
  congr 1
  funext record property
  unfold place propertyValue
  by_cases ho : isObjectSchema property.field = true
  · simp [ho]
  · simp [ho, takeAnswer_eq]

section Placing

variable {value : Property → Option Value} {properties : List Property}

theorem get_place_of_ne {record : Record} {property : Property} {name : String} (h : name ≠ property.name) :
    Dict.get (place value record property) name = Dict.get record name := by
  unfold place
  cases value property with
  | none => rfl
  | some v => simp [get_assign, h]

theorem get_foldl_place_of_not_mem {record : Record} {name : String} (h : name ∉ properties.map Property.name) :
    Dict.get (properties.foldl (place value) record) name = Dict.get record name := by
  induction properties generalizing record with
  | nil => rfl
  | cons property rest ih =>
    simp only [List.map_cons, List.mem_cons, not_or] at h
    rw [List.foldl_cons, ih h.2, get_place_of_ne h.1]

theorem get_foldl_place {record : Record} (hd : (properties.map Property.name).Nodup) {property : Property}
    (hm : property ∈ properties) (hr : Dict.get record property.name = none) :
    Dict.get (properties.foldl (place value) record) property.name =
      if property.name = "__proto__" then none else value property := by
  induction properties generalizing record with
  | nil => simp at hm
  | cons head rest ih =>
    obtain ⟨hn, hd⟩ := List.nodup_cons.mp hd
    rw [List.foldl_cons]
    obtain rfl | hm := List.mem_cons.mp hm
    · rw [get_foldl_place_of_not_mem hn]
      unfold place
      cases value property with
      | none => simp [hr]
      | some v =>
        simp only [Option.elim_some, get_assign, hr]
        by_cases hp : property.name = "__proto__" <;> simp [hp]
    · apply ih hd hm
      rw [get_place_of_ne, hr]
      rintro he
      exact hn (he ▸ List.mem_map_of_mem hm)

theorem mem_foldl_place {record : Record} {entry : String × Value}
    (h : entry ∈ properties.foldl (place value) record) :
    entry ∈ record ∨ ∃ property ∈ properties, property.name ≠ "__proto__" ∧ entry.1 = property.name ∧
      value property = some entry.2 := by
  induction properties generalizing record with
  | nil => exact .inl h
  | cons property rest ih =>
    obtain h | ⟨other, hm, hrest⟩ := ih h
    · unfold place at h
      cases hv : value property with
      | none => exact .inl (by simpa [hv] using h)
      | some v =>
        by_cases hp : property.name = "__proto__"
        · exact .inl (by simpa [hv, assign, hp] using h)
        · simp only [hv, Option.elim_some, assign, hp, if_false] at h
          obtain rfl | h := Dict.mem_set h
          · exact .inr ⟨property, by simp, hp, rfl, hv⟩
          · exact .inl h
    · exact .inr ⟨other, List.mem_cons_of_mem _ hm, hrest⟩

end Placing

end KimchiWorkflows.Host
