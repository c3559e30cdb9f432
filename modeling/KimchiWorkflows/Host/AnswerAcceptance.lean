import KimchiWorkflows.Host.AnsweredRecord

namespace KimchiWorkflows.Host

open KimchiWorkflows.Flow KimchiWorkflows.Engine

def DistinctNames (outputSchema : TSchema) : Prop :=
  ((objectProperties outputSchema).map Property.name).Nodup ∧
    ∀ property ∈ objectProperties outputSchema, ((objectProperties property.field).map Property.name).Nodup

/-- Every one of the fields that the output can hold has its value in the answers. -/
def Holds (fields : List AskedField) (answers : Record) (value : String → Value) : Prop :=
  ∀ f ∈ fields, f.key ≠ "__proto__" → Dict.get answers f.key = some (value f.key) ∧ value f.key ≠ .undefined

theorem dotted_ne (name sub : String) : name ++ "." ++ sub ≠ "__proto__" := by
  intro h
  have hm : '.' ∈ (name ++ "." ++ sub).toList := by simp
  rw [h] at hm
  exact absurd hm (by decide)

theorem object_of_isObjectSchema {schema : TSchema} (h : isObjectSchema schema = true) :
    ∃ a properties closed, schema = .object a properties closed := by
  cases schema <;> simp [isObjectSchema] at h
  exact ⟨_, _, _, rfl⟩

theorem objectProperties_of_plain {schema : TSchema} (h : ¬isObjectSchema schema = true) :
    objectProperties schema = [] := by
  cases schema <;> simp [isObjectSchema] at h <;> rfl

theorem mem_fieldsOf_plain {p : Property} (h : ¬isObjectSchema p.field = true) :
    ⟨p.name, p.field, isLost p.name⟩ ∈ fieldsOf p := by
  simp [fieldsOf, h]

theorem mem_fieldsOf_section {p sub : Property} (h : isObjectSchema p.field = true)
    (hm : sub ∈ objectProperties p.field) :
    ⟨p.name ++ "." ++ sub.name, sub.field, isLost p.name || isLost sub.name⟩ ∈ fieldsOf p := by
  simp only [fieldsOf, h, if_true]
  exact List.mem_map_of_mem hm

theorem forall_section_iff {p : Property} (h : isObjectSchema p.field = true) {P : AskedField → Prop} :
    (∀ f ∈ fieldsOf p, P f) ↔ ∀ sub ∈ objectProperties p.field,
      P ⟨p.name ++ "." ++ sub.name, sub.field, isLost p.name || isLost sub.name⟩ := by
  simp only [fieldsOf, h, if_true, List.forall_mem_map]

theorem lost_of_name {p : Property} (h : p.name = "__proto__") {f : AskedField} (hf : f ∈ fieldsOf p) :
    f.lost = true := by
  unfold fieldsOf at hf
  split at hf
  · obtain ⟨sub, _, rfl⟩ := List.mem_map.mp hf
    simp [isLost, h]
  · rw [List.mem_singleton.mp hf]
    simp [isLost, h]

section Acceptance

inductive TextOrList : Value → Prop where
  | string (s : String) : TextOrList (.string s)
  | array (items : List Value) : TextOrList (.array items)

/-- No schema of a number, a boolean or a record accepts the value. -/
structure Unlike (validator : Validator) (v : Value) : Prop where
  number : ∀ a accepts, validator.check (.number a accepts) v = false
  integer : ∀ a accepts, validator.check (.integer a accepts) v = false
  boolean : ∀ a, validator.check (.boolean a) v = false
  object : ∀ a properties closed, validator.check (.object a properties closed) v = false

variable {validator : Validator} (hv : Lawful validator)

include hv

theorem unlike_text {v : Value} (h : TextOrList v) : Unlike validator v where
  number a accepts := by
    by_contra hc
    obtain ⟨n, rfl⟩ := hv.number a accepts _ ((Bool.not_eq_false _).mp hc)
    cases h
  integer a accepts := by
    by_contra hc
    obtain ⟨n, rfl⟩ := hv.integer a accepts _ ((Bool.not_eq_false _).mp hc)
    cases h
  boolean a := by
    by_contra hc
    obtain ⟨b, rfl⟩ := hv.boolean a _ ((Bool.not_eq_false _).mp hc)
    cases h
  object a properties closed := by
    by_contra hc
    obtain ⟨fields, rfl⟩ := hv.notObject a properties closed _ ((Bool.not_eq_false _).mp hc)
    cases h

theorem check_text_iff (field : TSchema) (s : String) :
    validator.check field (.string s) = true ↔ AdmitsText field s := by
  cases field with
  | string a accepts => simp [hv.string, AdmitsText]
  | number a accepts => simp [(unlike_text hv (.string s)).number, AdmitsText]
  | integer a accepts => simp [(unlike_text hv (.string s)).integer, AdmitsText]
  | boolean a => simp [(unlike_text hv (.string s)).boolean, AdmitsText]
  | literal a c =>
    rw [hv.literal]
    cases c <;> simp [Literal.value, AdmitsText, eq_comm]
  | union a members =>
    rw [hv.union]
    refine exists_congr (fun m => and_congr_right (fun _ => ?_))
    cases m.const <;> simp [Literal.value, eq_comm]
  | enum a values =>
    rw [hv.enum]
    refine ⟨?_, fun h => ⟨_, h, rfl⟩⟩
    rintro ⟨c, hm, hc⟩
    cases c <;> simp [Literal.value] at hc
    exact hc ▸ hm
  | array a items least most unique => simp [hv.array, AdmitsText]
  | object a properties closed => simp [(unlike_text hv (.string s)).object, AdmitsText]

theorem check_answer_iff (field : TSchema) (answer : Answer) :
    validator.check field answer.value = true ↔ Admits field answer := by
  cases answer with
  | text s =>
    simp only [Answer.value, Admits]
    exact check_text_iff hv field s
  | chosen values =>
    have hunlike := unlike_text hv (.array (values.map Value.string))
    cases field with
    | array a items least most unique =>
      have hinj : Function.Injective Value.string := fun s t h => by simpa using h
      simp only [hv.array, Answer.value, Value.array.injEq, exists_eq_left', List.length_map,
        List.nodup_map_iff hinj, Admits, List.forall_mem_map, check_text_iff hv]
    | string a accepts => simp [hv.string, Answer.value, Admits]
    | literal a c =>
      rw [hv.literal]
      cases c <;> simp [Literal.value, Answer.value, Admits]
    | union a members =>
      simp only [hv.union, Admits, Answer.value, iff_false]
      rintro ⟨m, _, hm⟩
      cases hc : m.const <;> simp [hc, Literal.value] at hm
    | enum a values =>
      simp only [hv.enum, Admits, Answer.value, iff_false]
      rintro ⟨c, _, hc⟩
      cases c <;> simp [Literal.value] at hc
    | number a accepts => simp [hunlike.number, Answer.value, Admits]
    | integer a accepts => simp [hunlike.integer, Answer.value, Admits]
    | boolean a => simp [hunlike.boolean, Answer.value, Admits]
    | object a properties closed => simp [hunlike.object, Answer.value, Admits]

theorem check_placed_iff {a : Annotations} {properties : List Property} {closed : Bool}
    {value : Property → Option Value} (hd : (properties.map Property.name).Nodup)
    (hvalue : ∀ p ∈ properties, p.name ≠ "__proto__" → ∃ v, value p = some v ∧ v ≠ .undefined) :
    validator.check (.object a properties closed) (.object (properties.foldl (place value) [])) = true ↔
      ∀ p ∈ properties, (p.name = "__proto__" → p.isOptional = true) ∧
        (p.name ≠ "__proto__" → ∀ v, value p = some v → validator.check p.field v = true) := by
  rw [hv.object]
  · constructor
    · rintro ⟨hall, _⟩ p hm
      have hp := hall p hm
      rw [get_foldl_place hd hm rfl] at hp
      refine ⟨fun hname => by simpa [hname] using hp, fun hname v hval => ?_⟩
      simpa [hname, hval] using hp
    · intro hall
      refine ⟨fun p hm => ?_, fun _ f hf => ?_⟩
      · obtain ⟨hopt, hcheck⟩ := hall p hm
        rw [get_foldl_place hd hm rfl]
        by_cases hname : p.name = "__proto__"
        · simpa [hname] using hopt hname
        · obtain ⟨v, hval, _⟩ := hvalue p hm hname
          simpa [hname, hval] using hcheck hname v hval
      · obtain hf | ⟨p, hm, _, hname, _⟩ := mem_foldl_place hf
        · simp at hf
        · exact List.mem_map.mpr ⟨p, hm, hname.symm⟩
  · intro f hf
    obtain hf | ⟨p, hm, hname, _, hval⟩ := mem_foldl_place hf
    · simp at hf
    · obtain ⟨v, hv', hne⟩ := hvalue p hm hname
      rw [hval, Option.some.injEq] at hv'
      exact hv' ▸ hne

theorem isObjectSchema_of_check {schema : TSchema} {fields : Record}
    (h : validator.check schema (.object fields) = true) : isObjectSchema schema = true := by
  cases schema with
  | object a properties closed => rfl
  | string a accepts => simp [hv.string] at h
  | number a accepts => simpa using hv.number a accepts _ h
  | integer a accepts => simpa using hv.integer a accepts _ h
  | boolean a => simpa using hv.boolean a _ h
  | literal a c =>
    rw [hv.literal] at h
    cases c <;> simp [Literal.value] at h
  | union a members =>
    rw [hv.union] at h
    obtain ⟨m, _, hm⟩ := h
    cases hc : m.const <;> simp [hc, Literal.value] at hm
  | enum a values =>
    rw [hv.enum] at h
    obtain ⟨c, _, hc⟩ := h
    cases c <;> simp [Literal.value] at hc
  | array a items least most unique => simp [hv.array] at h

theorem check_section_iff {answers : Record} {value : String → Value} {p : Property}
    (ho : isObjectSchema p.field = true) (hname : p.name ≠ "__proto__")
    (hd : ((objectProperties p.field).map Property.name).Nodup) (hold : Holds (fieldsOf p) answers value) :
    validator.check p.field (.object (sectionOutput answers p)) = true ↔
      (∀ sub ∈ objectProperties p.field, sub.name = "__proto__" → sub.isOptional = true) ∧
        ∀ f ∈ fieldsOf p, f.lost = true ∨ validator.check f.schema (value f.key) = true := by
  have hget : ∀ sub ∈ objectProperties p.field, memberIn answers (p.name ++ "." ++ sub.name) =
      some (value (p.name ++ "." ++ sub.name)) ∧ value (p.name ++ "." ++ sub.name) ≠ .undefined := by
    intro sub hm
    obtain ⟨hget, hne⟩ := hold _ (mem_fieldsOf_section ho hm) (dotted_ne p.name sub.name)
    exact ⟨memberIn_of_get hget, hne⟩
  rw [sectionOutput_eq]
  obtain ⟨a, subs, closed, hp⟩ := object_of_isObjectSchema ho
  have hs : objectProperties p.field = subs := by rw [hp]; rfl
  rw [hs] at hget hd ⊢
  rw [hp, check_placed_iff hv hd (fun sub hm _ => ⟨_, hget sub hm⟩), forall_section_iff ho, hs]
  constructor
  · intro hall
    refine ⟨fun sub hm => (hall sub hm).1, fun sub hm => ?_⟩
    by_cases hsub : sub.name = "__proto__"
    · exact .inl (by simp [isLost, hsub])
    · exact .inr ((hall sub hm).2 hsub _ (hget sub hm).1)
  · rintro ⟨hopt, hall⟩ sub hm
    refine ⟨hopt sub hm, fun hsub v hval => ?_⟩
    rw [(hget sub hm).1, Option.some.injEq] at hval
    obtain hl | hc := hall sub hm
    · simp [isLost, hname, hsub] at hl
    · exact hval ▸ hc

theorem check_output_iff {schema : TSchema} {answers : Record} {value : String → Value} (hd : DistinctNames schema)
    (hold : Holds (askedFields schema) answers value) :
    validator.check schema (.object (answersToOutput schema answers)) = true ↔ isObjectSchema schema = true ∧
      (∀ p ∈ objectProperties schema, p.name = "__proto__" → p.isOptional = true) ∧
      (∀ p ∈ objectProperties schema, p.name ≠ "__proto__" →
        ∀ sub ∈ objectProperties p.field, sub.name = "__proto__" → sub.isOptional = true) ∧
      ∀ f ∈ askedFields schema, f.lost = true ∨ validator.check f.schema (value f.key) = true := by
  by_cases ho : isObjectSchema schema = true
  swap
  · exact iff_of_false (fun h => ho (isObjectSchema_of_check hv h)) (fun h => ho h.1)
  have hfields : ∀ p ∈ objectProperties schema, Holds (fieldsOf p) answers value := by
    intro p hm f hf
    exact hold f (List.mem_flatMap.mpr ⟨p, hm, hf⟩)
  have hvalue : ∀ p ∈ objectProperties schema, p.name ≠ "__proto__" →
      ∃ v, propertyValue answers p = some v ∧ v ≠ .undefined := by
    intro p hm hname
    by_cases hs : isObjectSchema p.field = true
    · exact ⟨_, by simp [propertyValue, hs]; rfl, by simp⟩
    · refine ⟨_, ?_, (hfields p hm _ (mem_fieldsOf_plain hs) hname).2⟩
      simp [propertyValue, hs, memberIn_of_get (hfields p hm _ (mem_fieldsOf_plain hs) hname).1]
  have hprop : ∀ p ∈ objectProperties schema, p.name ≠ "__proto__" →
      ((∀ v, propertyValue answers p = some v → validator.check p.field v = true) ↔
        (∀ sub ∈ objectProperties p.field, sub.name = "__proto__" → sub.isOptional = true) ∧
          ∀ f ∈ fieldsOf p, f.lost = true ∨ validator.check f.schema (value f.key) = true) := by
    intro p hm hname
    by_cases hs : isObjectSchema p.field = true
    · rw [← check_section_iff hv hs hname (hd.2 p hm) (hfields p hm)]
      simp [propertyValue, hs]
    · have hget := memberIn_of_get (hfields p hm _ (mem_fieldsOf_plain hs) hname).1
      simp [propertyValue, hs, hget, fieldsOf, isLost, hname, objectProperties_of_plain hs]
  obtain ⟨a, properties, closed, rfl⟩ := object_of_isObjectSchema ho
  rw [answersToOutput_eq]
  refine (check_placed_iff hv hd.1 hvalue).trans ?_
  simp only [ho, true_and]
  constructor
  · intro hall
    refine ⟨fun p hm => (hall p hm).1, fun p hm hname => ((hprop p hm hname).mp ((hall p hm).2 hname)).1, ?_⟩
    intro f hf
    obtain ⟨p, hm, hf⟩ := List.mem_flatMap.mp hf
    by_cases hname : p.name = "__proto__"
    · exact .inl (lost_of_name hname hf)
    · exact ((hprop p hm hname).mp ((hall p hm).2 hname)).2 f hf
  · rintro ⟨hopt, hsub, hall⟩ p hm
    refine ⟨hopt p hm, fun hname => (hprop p hm hname).mpr ⟨hsub p hm hname, fun f hf => ?_⟩⟩
    exact hall f (List.mem_flatMap.mpr ⟨p, hm, hf⟩)

end Acceptance

end KimchiWorkflows.Host
