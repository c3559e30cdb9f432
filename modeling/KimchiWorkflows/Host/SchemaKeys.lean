import KimchiWorkflows.Host.AnswerAcceptance
import Mathlib.Data.List.Nodup
import Mathlib.Data.List.Pairwise

namespace KimchiWorkflows.Host

open KimchiWorkflows.Flow

def questionKeys (outputSchema : TSchema) : List String :=
  (questionnaireFromSchema outputSchema).questions.map Question.key

def propertyKeys (property : Property) : List String :=
  if isObjectSchema property.field then
    (objectProperties property.field).map (fun sub => property.name ++ "." ++ sub.name)
  else [property.name]

structure Unambiguous (outputSchema : TSchema) : Prop where
  leaves : ∀ p ∈ objectProperties outputSchema, ∀ q ∈ objectProperties outputSchema,
    isObjectSchema p.field = false → isObjectSchema q.field = true →
      ∀ sub ∈ objectProperties q.field, p.name ≠ q.name ++ "." ++ sub.name
  sections : ∀ p ∈ objectProperties outputSchema, ∀ q ∈ objectProperties outputSchema,
    isObjectSchema p.field = true → isObjectSchema q.field = true → ∀ part, q.name = p.name ++ "." ++ part →
      ∀ sub ∈ objectProperties p.field, ∀ other ∈ objectProperties q.field,
        sub.name ≠ part ++ "." ++ other.name

variable {outputSchema : TSchema} {p q : Property}

theorem buildQuestion_key (key : String) (field : TSchema) (section_ : Option String) :
    (buildQuestion key field section_).key = key := by
  unfold buildQuestion
  cases literalOptions field with
  | some options => rfl
  | none =>
    cases itemOptions field with
    | some options => rfl
    | none =>
      cases field.annotations.chat with
      | true => rfl
      | false => rfl

theorem questionsOf_keys (property : Property) : (questionsOf property).map Question.key = propertyKeys property := by
  unfold questionsOf propertyKeys
  split_ifs
  · rw [List.map_map]
    rfl
  · simp [buildQuestion_key]

theorem questionKeys_eq (outputSchema : TSchema) :
    questionKeys outputSchema = (objectProperties outputSchema).flatMap propertyKeys := by
  simp only [questionKeys, questionnaireFromSchema, List.map_flatMap, questionsOf_keys]

theorem mem_propertyKeys_leaf (h : isObjectSchema p.field = false) {key : String} :
    key ∈ propertyKeys p ↔ key = p.name := by
  simp [propertyKeys, h]

theorem mem_propertyKeys_section (h : isObjectSchema p.field = true) {key : String} :
    key ∈ propertyKeys p ↔ ∃ sub ∈ objectProperties p.field, p.name ++ "." ++ sub.name = key := by
  simp [propertyKeys, h]

theorem append_left_inj_string {a b c : String} (h : a ++ b = a ++ c) : b = c := by
  apply String.toList_inj.mp
  have := congrArg String.toList h
  simpa using this

/-- Two paths that read the same are the same, or the name of one section continues the other's. -/
theorem path_eq_path {a b c d : String} (h : a ++ "." ++ b = c ++ "." ++ d) :
    (a = c ∧ b = d) ∨ (∃ part, c = a ++ "." ++ part ∧ b = part ++ "." ++ d) ∨
      ∃ part, a = c ++ "." ++ part ∧ d = part ++ "." ++ b := by
  have hlist : a.toList ++ ('.' :: b.toList) = c.toList ++ ('.' :: d.toList) := by
    have := congrArg String.toList h
    simpa using this
  have hpart : ∀ {x y z w : String} {rest : List Char}, x.toList = z.toList ++ rest →
      '.' :: w.toList = rest ++ '.' :: y.toList →
      (x = z ∧ y = w) ∨ ∃ part, x = z ++ "." ++ part ∧ w = part ++ "." ++ y := by
    intro x y z w rest hx hw
    cases rest with
    | nil =>
      refine .inl ⟨?_, ?_⟩
      · exact String.toList_inj.mp (by simpa using hx)
      · exact String.toList_inj.mp (by simpa using hw.symm)
    | cons first rest =>
      obtain ⟨rfl, hw⟩ := List.cons.inj hw
      refine .inr ⟨String.ofList rest, ?_, ?_⟩
      · apply String.toList_inj.mp
        simpa using hx
      · apply String.toList_inj.mp
        simpa using hw
  obtain ⟨rest, hc, hb⟩ | ⟨rest, ha, hd⟩ := List.append_eq_append_iff.mp hlist
  · obtain ⟨rfl, rfl⟩ | hdeep := hpart hc hb
    · exact .inl ⟨rfl, rfl⟩
    · exact .inr (.inl hdeep)
  · obtain ⟨rfl, rfl⟩ | hdeep := hpart ha hd
    · exact .inl ⟨rfl, rfl⟩
    · exact .inr (.inr hdeep)

theorem section_ne (p : Property) (part : String) {q : Property} (h : q.name = p.name ++ "." ++ part) : p ≠ q := by
  rintro rfl
  have := congrArg String.length h
  simp only [String.length_append] at this
  have hdot : ".".length = 1 := rfl
  omega

theorem propertyKeys_nodup (h : ((objectProperties p.field).map Property.name).Nodup) : (propertyKeys p).Nodup := by
  unfold propertyKeys
  split_ifs
  · have hinj : Function.Injective (fun name => p.name ++ "." ++ name) :=
      fun a b hab => append_left_inj_string hab
    simpa [Function.comp_def] using h.map hinj
  · exact List.nodup_singleton _

theorem disjoint_of_unambiguous (h : Unambiguous outputSchema) (hp : p ∈ objectProperties outputSchema)
    (hq : q ∈ objectProperties outputSchema) (hne : p.name ≠ q.name) :
    (propertyKeys p).Disjoint (propertyKeys q) := by
  intro key hkp hkq
  cases hop : isObjectSchema p.field with
  | false =>
    rw [mem_propertyKeys_leaf hop] at hkp
    subst hkp
    cases hoq : isObjectSchema q.field with
    | false => exact hne ((mem_propertyKeys_leaf hoq).mp hkq)
    | true =>
      obtain ⟨sub, hs, he⟩ := (mem_propertyKeys_section hoq).mp hkq
      exact h.leaves p hp q hq hop hoq sub hs he.symm
  | true =>
    obtain ⟨sub, hs, rfl⟩ := (mem_propertyKeys_section hop).mp hkp
    cases hoq : isObjectSchema q.field with
    | false => exact h.leaves q hq p hp hoq hop sub hs ((mem_propertyKeys_leaf hoq).mp hkq).symm
    | true =>
      obtain ⟨other, ho, he⟩ := (mem_propertyKeys_section hoq).mp hkq
      obtain ⟨hname, -⟩ | ⟨part, hname, hsub⟩ | ⟨part, hname, hsub⟩ := path_eq_path he
      · exact hne hname.symm
      · exact h.sections q hq p hp hoq hop part hname other ho sub hs hsub
      · exact h.sections p hp q hq hop hoq part hname sub hs other ho hsub

theorem questionKeys_nodup_iff (hd : DistinctNames outputSchema) :
    (questionKeys outputSchema).Nodup ↔ Unambiguous outputSchema := by
  rw [questionKeys_eq, List.nodup_flatMap]
  constructor
  · rintro ⟨-, hpairs⟩
    have hsymm : Std.Symm (Function.onFun List.Disjoint propertyKeys) := ⟨fun _ _ h _ hb ha => h ha hb⟩
    have hdisjoint : ∀ p ∈ objectProperties outputSchema, ∀ q ∈ objectProperties outputSchema, p ≠ q →
        (propertyKeys p).Disjoint (propertyKeys q) :=
      fun p hp q hq hne => hpairs.forall hp hq hne
    constructor
    · intro p hp q hq hop hoq sub hs he
      have hne : p ≠ q := by
        rintro rfl
        rw [hop] at hoq
        exact absurd hoq (by simp)
      exact hdisjoint p hp q hq hne ((mem_propertyKeys_leaf hop).mpr rfl)
        ((mem_propertyKeys_section hoq).mpr ⟨sub, hs, he.symm⟩)
    · intro p hp q hq hop hoq part hname sub hs other ho he
      refine hdisjoint p hp q hq (section_ne p part hname) ((mem_propertyKeys_section hop).mpr ⟨sub, hs, rfl⟩)
        ((mem_propertyKeys_section hoq).mpr ⟨other, ho, ?_⟩)
      rw [hname, he]
      simp only [String.append_assoc]
  · intro h
    refine ⟨fun p hp => propertyKeys_nodup (hd.2 p hp), ?_⟩
    have hnames : (objectProperties outputSchema).Pairwise (fun p q => p.name ≠ q.name) :=
      List.pairwise_map.mp hd.1
    exact hnames.imp_of_mem (fun hp hq hne => disjoint_of_unambiguous h hp hq hne)

end KimchiWorkflows.Host
