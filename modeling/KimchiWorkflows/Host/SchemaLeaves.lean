import KimchiWorkflows.Host.AnswerCompletion
import KimchiWorkflows.Host.SchemaKeys

/-!
Taking a value apart into the leaves its schema asks for, and putting it together again.
-/

namespace KimchiWorkflows.Host

open KimchiWorkflows.Flow

def sectionFields (v : Record) (name : String) : Record :=
  match Dict.get v name with
  | some (.object fields) => fields
  | _ => []

def leavesOf (v : Record) (property : Property) : List (String × Option Value) :=
  if isObjectSchema property.field then
    (objectProperties property.field).map (fun sub =>
      (property.name ++ "." ++ sub.name, Dict.get (sectionFields v property.name) sub.name))
  else [(property.name, Dict.get v property.name)]

def leafAnswers (outputSchema : TSchema) (v : Record) : Record :=
  ((objectProperties outputSchema).flatMap (leavesOf v)).filterMap (fun leaf => leaf.2.map (leaf.1, ·))

def SameMember : Option Value → Option Value → Prop
  | none, none => True
  | some a, some b => a = b ∨ ∃ fs gs, a = .object fs ∧ b = .object gs ∧ ∀ name, Dict.get fs name = Dict.get gs name
  | _, _ => False

def SameRecord (a b : Record) : Prop := ∀ name, SameMember (Dict.get a name) (Dict.get b name)

/-- What the value has in the place of a section is a record. -/
def Fits (outputSchema : TSchema) (v : Record) : Prop :=
  ∀ p ∈ objectProperties outputSchema, isObjectSchema p.field = true →
    ∀ w, Dict.get v p.name = some w → ∃ fields, w = .object fields

structure Declared (properties : List Property) (v : Record) : Prop where
  names : ∀ name, Dict.has v name = true → name ∈ properties.map Property.name
  prototype : Dict.has v "__proto__" = false

structure Restorable (outputSchema : TSchema) (v : Record) : Prop where
  declared : Declared (objectProperties outputSchema) v
  sections : ∀ p ∈ objectProperties outputSchema, isObjectSchema p.field = true → p.name ≠ "__proto__" →
    ∃ fields, Dict.get v p.name = some (.object fields) ∧ Declared (objectProperties p.field) fields
  leaves : ∀ p ∈ objectProperties outputSchema, isObjectSchema p.field = false → p.name ≠ "__proto__" →
    Dict.get v p.name = none → inheritedMember p.name = none

variable {outputSchema : TSchema} {p : Property} {v : Record}

theorem leavesOf_keys (v : Record) (p : Property) : (leavesOf v p).map Prod.fst = propertyKeys p := by
  unfold leavesOf propertyKeys
  split_ifs
  · rw [List.map_map]
    rfl
  · rfl

theorem leaf_keys (outputSchema : TSchema) (v : Record) :
    ((objectProperties outputSchema).flatMap (leavesOf v)).map Prod.fst = questionKeys outputSchema := by
  simp only [List.map_flatMap, leavesOf_keys, questionKeys_eq]

theorem get_filterMap {leaves : List (String × Option Value)} (hd : (leaves.map Prod.fst).Nodup) {key : String}
    {value : Option Value} (hm : (key, value) ∈ leaves) :
    Dict.get (leaves.filterMap (fun leaf => leaf.2.map (leaf.1, ·))) key = value := by
  induction leaves with
  | nil => simp at hm
  | cons leaf rest ih =>
    obtain ⟨hn, hd⟩ := List.nodup_cons.mp hd
    obtain rfl | hm := List.mem_cons.mp hm
    · have hrest : ∀ entry ∈ rest.filterMap (fun leaf => leaf.2.map (leaf.1, ·)), entry.1 ≠ key := by
        intro entry he hkey
        obtain ⟨leaf, hleaf, hmap⟩ := List.mem_filterMap.mp he
        obtain ⟨w, -, rfl⟩ := Option.map_eq_some_iff.mp hmap
        exact hn (List.mem_map.mpr ⟨leaf, hleaf, hkey⟩)
      have hnone : Dict.get (rest.filterMap (fun leaf => leaf.2.map (leaf.1, ·))) key = none := by
        cases hget : Dict.get (rest.filterMap (fun leaf => leaf.2.map (leaf.1, ·))) key with
        | none => rfl
        | some w => exact absurd rfl (hrest _ (Dict.mem_of_get hget))
      cases value with
      | none => simpa using hnone
      | some w => simp [Dict.get]
    · have hne : leaf.1 ≠ key := by
        intro he
        exact hn (he ▸ List.mem_map_of_mem hm)
      have hrest := ih hd hm
      cases hleaf : leaf.2 with
      | none => simpa [hleaf] using hrest
      | some w => simpa [hleaf, Dict.get, hne] using hrest

theorem get_leafAnswers_leaf (hk : (questionKeys outputSchema).Nodup) (hp : p ∈ objectProperties outputSchema)
    (ho : isObjectSchema p.field = false) : Dict.get (leafAnswers outputSchema v) p.name = Dict.get v p.name := by
  refine get_filterMap (by rw [leaf_keys]; exact hk) (List.mem_flatMap.mpr ⟨p, hp, ?_⟩)
  simp [leavesOf, ho]

theorem get_leafAnswers_section (hk : (questionKeys outputSchema).Nodup) (hp : p ∈ objectProperties outputSchema)
    (ho : isObjectSchema p.field = true) {sub : Property} (hs : sub ∈ objectProperties p.field) :
    Dict.get (leafAnswers outputSchema v) (p.name ++ "." ++ sub.name) =
      Dict.get (sectionFields v p.name) sub.name := by
  refine get_filterMap (by rw [leaf_keys]; exact hk) (List.mem_flatMap.mpr ⟨p, hp, ?_⟩)
  simp only [leavesOf, ho, if_true]
  exact List.mem_map_of_mem hs

theorem inheritedMember_dotted (name sub : String) : inheritedMember (name ++ "." ++ sub) = none := by
  have hdot : '.' ∈ (name ++ "." ++ sub).toList := by simp
  have hne : ∀ key : String, '.' ∉ key.toList → name ++ "." ++ sub ≠ key := by
    intro key hkey he
    exact hkey (he ▸ hdot)
  have hall : ∀ key ∈ ["constructor", "__defineGetter__", "__defineSetter__", "hasOwnProperty", "__lookupGetter__",
      "__lookupSetter__", "isPrototypeOf", "propertyIsEnumerable", "toString", "valueOf", "toLocaleString"],
      '.' ∉ key.toList := by decide
  unfold inheritedMember
  rw [if_neg (hne _ (by decide)), if_neg]
  intro hm
  exact hne _ (hall _ hm) rfl

theorem get_output_proto (properties : List Property) (value : Property → Option Value) :
    Dict.get (properties.foldl (place value) []) "__proto__" = none := by
  cases hget : Dict.get (properties.foldl (place value) []) "__proto__" with
  | none => rfl
  | some w =>
    obtain hm | ⟨p, -, hne, hname, -⟩ := mem_foldl_place (Dict.mem_of_get hget)
    · simp at hm
    · exact absurd hname.symm hne

theorem get_output {properties : List Property} {value : Property → Option Value}
    (hd : (properties.map Property.name).Nodup) (hp : p ∈ properties) (hne : p.name ≠ "__proto__") :
    Dict.get (properties.foldl (place value) []) p.name = value p := by
  rw [get_foldl_place hd hp rfl, if_neg hne]

theorem declared_of_same {properties : List Property} {value : Property → Option Value}
    (h : SameRecord (properties.foldl (place value) []) v) : Declared properties v := by
  constructor
  · intro name hhas
    by_contra hn
    have hsame := h name
    rw [get_foldl_place_of_not_mem hn, Dict.get_nil] at hsame
    obtain ⟨w, hw⟩ := Option.isSome_iff_exists.mp hhas
    rw [hw] at hsame
    exact hsame
  · have hsame := h "__proto__"
    rw [get_output_proto] at hsame
    cases hget : Dict.get v "__proto__" with
    | none => simp [Dict.has, hget]
    | some w =>
      rw [hget] at hsame
      exact hsame.elim

theorem same_of_declared {properties : List Property} {value : Property → Option Value}
    (hd : (properties.map Property.name).Nodup) (hv : Declared properties v)
    (hsame : ∀ p ∈ properties, p.name ≠ "__proto__" → SameMember (value p) (Dict.get v p.name)) :
    SameRecord (properties.foldl (place value) []) v := by
  intro name
  by_cases hproto : name = "__proto__"
  · subst hproto
    have hnone : Dict.get v "__proto__" = none := by
      have := hv.prototype
      simpa [Dict.has] using this
    rw [get_output_proto, hnone]
    trivial
  · by_cases hn : name ∈ properties.map Property.name
    · obtain ⟨p, hp, rfl⟩ := List.mem_map.mp hn
      rw [get_output hd hp hproto]
      exact hsame p hp hproto
    · have hnone : Dict.get v name = none := by
        by_contra hsome
        exact hn (hv.names name (Option.isSome_iff_ne_none.mpr hsome))
      rw [get_foldl_place_of_not_mem hn, hnone]
      trivial

theorem sectionFields_of_get {name : String} {fields : Record} (h : Dict.get v name = some (.object fields)) :
    sectionFields v name = fields := by
  simp [sectionFields, h]

theorem get_section_output (hk : (questionKeys outputSchema).Nodup) (hd : DistinctNames outputSchema)
    (hp : p ∈ objectProperties outputSchema) (ho : isObjectSchema p.field = true) {sub : Property}
    (hs : sub ∈ objectProperties p.field) (hne : sub.name ≠ "__proto__") :
    Dict.get (sectionOutput (leafAnswers outputSchema v) p) sub.name =
      Dict.get (sectionFields v p.name) sub.name := by
  rw [sectionOutput_eq, get_output (hd.2 p hp) hs hne, memberIn, inheritedMember_dotted, Option.or_none,
    get_leafAnswers_section hk hp ho hs]

theorem section_restored_iff (hk : (questionKeys outputSchema).Nodup) (hd : DistinctNames outputSchema)
    (hp : p ∈ objectProperties outputSchema) (ho : isObjectSchema p.field = true) :
    (∀ name, Dict.get (sectionOutput (leafAnswers outputSchema v) p) name =
        Dict.get (sectionFields v p.name) name) ↔
      Declared (objectProperties p.field) (sectionFields v p.name) := by
  constructor
  · intro hall
    have hsame : SameRecord (sectionOutput (leafAnswers outputSchema v) p) (sectionFields v p.name) := by
      intro name
      rw [hall name]
      cases Dict.get (sectionFields v p.name) name with
      | none => trivial
      | some w => exact .inl rfl
    rw [sectionOutput_eq] at hsame
    exact declared_of_same hsame
  · intro hv name
    by_cases hproto : name = "__proto__"
    · have hnone : Dict.get (sectionFields v p.name) "__proto__" = none := by
        have := hv.prototype
        simpa [Dict.has] using this
      rw [hproto, hnone, sectionOutput_eq, get_output_proto]
    · by_cases hn : name ∈ (objectProperties p.field).map Property.name
      · obtain ⟨sub, hs, rfl⟩ := List.mem_map.mp hn
        exact get_section_output hk hd hp ho hs hproto
      · have hnone : Dict.get (sectionFields v p.name) name = none := by
          by_contra hsome
          exact hn (hv.names name (Option.isSome_iff_ne_none.mpr hsome))
        rw [hnone, sectionOutput_eq, get_foldl_place_of_not_mem hn, Dict.get_nil]

theorem section_same_iff (hk : (questionKeys outputSchema).Nodup) (hd : DistinctNames outputSchema)
    (hf : Fits outputSchema v) (hp : p ∈ objectProperties outputSchema) (ho : isObjectSchema p.field = true) :
    SameMember (propertyValue (leafAnswers outputSchema v) p) (Dict.get v p.name) ↔
      ∃ fields, Dict.get v p.name = some (.object fields) ∧ Declared (objectProperties p.field) fields := by
  have hvalue : propertyValue (leafAnswers outputSchema v) p =
      some (.object (sectionOutput (leafAnswers outputSchema v) p)) := by
    simp [propertyValue, ho]
  rw [hvalue]
  cases hget : Dict.get v p.name with
  | none =>
    refine iff_of_false (fun h => h) ?_
    rintro ⟨fields, he, -⟩
    exact absurd he (by simp)
  | some w =>
    obtain ⟨fields, rfl⟩ := hf p hp ho w hget
    have hiff := section_restored_iff hk hd hp ho (v := v)
    rw [sectionFields_of_get hget] at hiff
    constructor
    · intro hsame
      refine ⟨fields, rfl, hiff.mp ?_⟩
      obtain he | ⟨fs, gs, hfs, hgs, hall⟩ := hsame
      · cases he
        exact fun _ => rfl
      · cases hfs
        cases hgs
        exact hall
    · rintro ⟨other, he, hv⟩
      cases he
      exact .inr ⟨_, _, rfl, rfl, hiff.mpr hv⟩

theorem leaf_same_iff (hk : (questionKeys outputSchema).Nodup) (hp : p ∈ objectProperties outputSchema)
    (ho : isObjectSchema p.field = false) :
    SameMember (propertyValue (leafAnswers outputSchema v) p) (Dict.get v p.name) ↔
      (Dict.get v p.name = none → inheritedMember p.name = none) := by
  have hvalue : propertyValue (leafAnswers outputSchema v) p =
      (Dict.get v p.name).or (inheritedMember p.name) := by
    simp [propertyValue, ho, memberIn, get_leafAnswers_leaf hk hp ho]
  rw [hvalue]
  cases Dict.get v p.name with
  | some w => exact iff_of_true (.inl rfl) (by simp)
  | none =>
    rw [Option.none_or]
    cases inheritedMember p.name with
    | none => exact iff_of_true trivial (by simp)
    | some w => exact iff_of_false (fun h => h) (by simp)

theorem restored_iff (hk : (questionKeys outputSchema).Nodup) (hd : DistinctNames outputSchema)
    (hf : Fits outputSchema v) :
    SameRecord (answersToOutput outputSchema (leafAnswers outputSchema v)) v ↔ Restorable outputSchema v := by
  rw [answersToOutput_eq]
  constructor
  · intro h
    have hmember : ∀ p ∈ objectProperties outputSchema, p.name ≠ "__proto__" →
        SameMember (propertyValue (leafAnswers outputSchema v) p) (Dict.get v p.name) := by
      intro p hp hne
      have := h p.name
      rwa [get_output hd.1 hp hne] at this
    refine ⟨declared_of_same h, ?_, ?_⟩
    · intro p hp ho hne
      exact (section_same_iff hk hd hf hp ho).mp (hmember p hp hne)
    · intro p hp ho hne
      exact (leaf_same_iff hk hp ho).mp (hmember p hp hne)
  · intro h
    refine same_of_declared hd.1 h.declared ?_
    intro p hp hne
    cases ho : isObjectSchema p.field with
    | true => exact (section_same_iff hk hd hf hp ho).mpr (h.sections p hp ho hne)
    | false => exact (leaf_same_iff hk hp ho).mpr (h.leaves p hp ho hne)

/-- The keys are distinct and the value comes back exactly if no path looks like another and the value can be restored. -/
theorem flattened_and_restored_iff (hd : DistinctNames outputSchema) (hf : Fits outputSchema v) :
    ((questionKeys outputSchema).Nodup ∧
        SameRecord (answersToOutput outputSchema (leafAnswers outputSchema v)) v) ↔
      Unambiguous outputSchema ∧ Restorable outputSchema v := by
  rw [← questionKeys_nodup_iff hd]
  constructor
  · rintro ⟨hk, hsame⟩
    exact ⟨hk, (restored_iff hk hd hf).mp hsame⟩
  · rintro ⟨hk, hr⟩
    exact ⟨hk, (restored_iff hk hd hf).mpr hr⟩

def deployment : TSchema :=
  .object {} [.mk "target" false (.object {} [.mk "name" false (.string {} (fun _ => true)),
    .mk "region" true (.string {} (fun _ => true))] true), .mk "note" true (.string {} (fun _ => true))] true

theorem deployment_restored : (DistinctNames deployment ∧
      Fits deployment [("target", .object [("name", .string "staging")])]) ∧
    ((questionKeys deployment).Nodup ∧ SameRecord (answersToOutput deployment
      (leafAnswers deployment [("target", .object [("name", .string "staging")])]))
      [("target", .object [("name", .string "staging")])]) := by
  have hd : DistinctNames deployment := by
    simp [DistinctNames, deployment, objectProperties, Property.name, Property.field]
  have hf : Fits deployment [("target", .object [("name", .string "staging")])] := by
    simp [Fits, deployment, objectProperties, Property.name, Property.field, isObjectSchema, Dict.get]
  refine ⟨⟨hd, hf⟩, (flattened_and_restored_iff hd hf).mpr ⟨⟨?_, ?_⟩, ⟨⟨?_, ?_⟩, ?_, ?_⟩⟩⟩
  · simp [deployment, objectProperties, Property.name, Property.field, isObjectSchema]
  · simp only [deployment, objectProperties, List.forall_mem_cons, Property.name, Property.field, isObjectSchema]
    simp
    intro part he
    have := congrArg String.length he
    simp only [String.length_append] at this
    have htarget : "target".length = 6 ∧ "target.".length = 7 := by decide
    omega
  · simp [deployment, objectProperties, Property.name, Dict.has, Dict.get]
  · rfl
  · simp [deployment, objectProperties, Property.name, Property.field, isObjectSchema, Dict.get]
    constructor
    · simp [Property.name, Dict.has, Dict.get]
    · rfl
  · simp [deployment, objectProperties, Property.name, Property.field, isObjectSchema, Dict.get, inheritedMember]

def collidingNames : TSchema :=
  .object {} [.mk "a.b" false (.string {} (fun _ => true)),
    .mk "a" false (.object {} [.mk "b" false (.string {} (fun _ => true))] true)] true

/-- A field whose name has a dot and a field of a section are asked under one key. -/
theorem dotted_name_collides : ¬ ∀ outputSchema v, DistinctNames outputSchema →
    checker.check outputSchema (.object v) = true → (questionKeys outputSchema).Nodup ∧
      SameRecord (answersToOutput outputSchema (leafAnswers outputSchema v)) v := by
  intro hall
  have hd : DistinctNames collidingNames := by
    simp [DistinctNames, collidingNames, objectProperties, Property.name, Property.field]
  obtain ⟨hk, -⟩ := hall collidingNames [("a.b", .string "x"), ("a", .object [("b", .string "y")])] hd (by decide)
  revert hk
  decide

theorem fits_of_check {validator : Validator} (hv : Lawful validator) {a : Annotations} {properties : List Property}
    {closed : Bool} (hdefined : ∀ f ∈ v, f.2 ≠ Value.undefined)
    (h : validator.check (.object a properties closed) (.object v) = true) :
    Fits (.object a properties closed) v := by
  intro p hp ho w hw
  have hcheck := ((hv.object a properties closed v hdefined).mp h).1 p hp
  rw [hw] at hcheck
  obtain ⟨a', subs, closed', he⟩ := object_of_isObjectSchema ho
  rw [he] at hcheck
  exact hv.notObject a' subs closed' w hcheck

end KimchiWorkflows.Host
