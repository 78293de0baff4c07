import TypedClient.Proofs.Reduction.Inference
import TypedClient.Proofs.Reduction.Inheritance
import TypedClient.Proofs.Shape.Distinct

/-!
# Empty names in shapes

An empty name comes into a shape in two ways: as the name of a field, and as a key of an
object in the value of a literal, which becomes the name of a field when the literal is
widened. Widening brings out every empty name, because nothing that an object or a list is in
repeats anything, and reducing makes none, because merged objects have no other keys than the
objects they are merged of.
-/

namespace TypedClient

/-- An object somewhere in a value has an empty key. -/
inductive Json.HasEmptyKey : Json → Prop where
  /-- The object itself. -/
  | key {members : List (String × Json)} :
    "" ∈ members.map Prod.fst → HasEmptyKey (.object members)
  /-- An object in the value of a member. -/
  | member {members : List (String × Json)} {m : String × Json} :
    m ∈ members → HasEmptyKey m.2 → HasEmptyKey (.object members)
  /-- An object in an element. -/
  | element {elements : List Json} {v : Json} :
    v ∈ elements → HasEmptyKey v → HasEmptyKey (.array elements)

namespace Shape

/-- The outermost layer has an empty name: a field has it, or a key in the value of the literal. -/
def IsUnnamed : Shape → Prop
  | .object fields => .named "" ∈ Field.keys fields
  | .literal l => ∃ value, l.value = some value ∧ value.HasEmptyKey
  | _ => False

/-- Some field in a shape has an empty name, or some object in the value of a literal. -/
def HasEmptyName (s : Shape) : Prop := ∃ t, Occurs t s ∧ t.IsUnnamed

/-- Some field in a shape has an empty name. -/
def HasEmptyField (s : Shape) : Prop :=
  ∃ fields, Occurs (.object fields) s ∧ .named "" ∈ Field.keys fields

/-- The objects in the values of literals have every key once. -/
def HasUniqueValues (s : Shape) : Prop :=
  ∀ l value, Occurs (.literal l) s → l.value = some value → value.HasUniqueKeys

section Fields

variable {s t : Shape}

theorem HasEmptyField.of_occurs (h : t.HasEmptyField) (ho : Occurs t s) : s.HasEmptyField := by
  obtain ⟨fields, hfields, hkey⟩ := h
  exact ⟨fields, hfields.trans ho, hkey⟩

theorem HasEmptyName.of_occurs (h : t.HasEmptyName) (ho : Occurs t s) : s.HasEmptyName := by
  obtain ⟨u, hu, hunnamed⟩ := h
  exact ⟨u, hu.trans ho, hunnamed⟩

/-- A field has an empty name in the outermost layer or in a part. -/
theorem hasEmptyField_iff : s.HasEmptyField ↔
    (∃ fields, s = .object fields ∧ .named "" ∈ Field.keys fields) ∨
      ∃ part ∈ s.parts, part.HasEmptyField := by
  constructor
  · rintro ⟨fields, ho, hkey⟩
    rcases occurs_iff.1 ho with rfl | ⟨part, hpart, ho⟩
    · exact .inl ⟨fields, rfl, hkey⟩
    · exact .inr ⟨part, hpart, fields, ho, hkey⟩
  · rintro (⟨fields, rfl, hkey⟩ | ⟨part, hpart, h⟩)
    · exact ⟨fields, .whole, hkey⟩
    · exact h.of_occurs (occurs_iff.2 (.inr ⟨part, hpart, .whole⟩))

/-- A shape with an empty name in it has one in the outermost layer or in a part. -/
theorem hasEmptyName_iff : s.HasEmptyName ↔
    s.IsUnnamed ∨ ∃ part ∈ s.parts, part.HasEmptyName := by
  constructor
  · rintro ⟨t, ho, hunnamed⟩
    rcases occurs_iff.1 ho with rfl | ⟨part, hpart, ho⟩
    · exact .inl hunnamed
    · exact .inr ⟨part, hpart, t, ho, hunnamed⟩
  · rintro (hunnamed | ⟨part, hpart, h⟩)
    · exact ⟨s, .whole, hunnamed⟩
    · exact h.of_occurs (occurs_iff.2 (.inr ⟨part, hpart, .whole⟩))

theorem HasUniqueValues.of_occurs (h : s.HasUniqueValues) (ho : Occurs t s) :
    t.HasUniqueValues :=
  fun l value hl => h l value (hl.trans ho)

/-- What a field with an empty name is in is kept in every list of distinct members. -/
theorem HasEmptyField.mem_distinct {members : List Shape} {m : Shape} (h : m.HasEmptyField)
    (hm : m ∈ members) : m ∈ distinct members := by
  have hkept : m.isVacuous = false ∧ ∀ k, m.repeats k = false := by
    obtain ⟨fields, ho, -⟩ := h
    cases m with
    | array | object | joined | tuple => exact ⟨rfl, fun _ => rfl⟩
    | _ => cases ho
  obtain ⟨k, hk, rfl | hr⟩ := exists_of_mem_distinct hm hkept.1
  · exact hk
  · rw [hkept.2] at hr
    cases hr

end Fields

section Samples

variable {v : Json} {s : Shape} {precise : Bool}

/-- The parts of a list's shape that have a part with an empty name are shapes of elements. -/
theorem hasEmptyField_array_union_iff {members : List Shape} :
    (Shape.array (.union members)).HasEmptyField ↔ ∃ m ∈ members, m.HasEmptyField := by
  rw [hasEmptyField_iff, or_iff_right (by simp), parts, union]
  simp only [List.mem_singleton, exists_eq_left]
  rw [hasEmptyField_iff, or_iff_right (by simp), parts]
  constructor
  · rintro ⟨m, hm, h⟩
    exact ⟨m, mem_of_mem_distinct hm, h⟩
  · rintro ⟨m, hm, h⟩
    exact ⟨m, h.mem_distinct hm, h⟩

/-- An empty name in the shape of a sample is an empty key of the sample. -/
theorem HasEmptyField.of_ofSample (h : (ofSample v).HasEmptyField) : v.HasEmptyKey := by
  induction v using Json.tree_induction with
  | null | bool | number | string =>
    obtain ⟨fields, ho, -⟩ := h
    cases ho
  | array elements ih =>
    rw [ofSample, ofSamples_eq_map, hasEmptyField_array_union_iff] at h
    obtain ⟨m, hm, h⟩ := h
    obtain ⟨e, he, rfl⟩ := List.mem_map.1 hm
    exact .element he (ih e he h)
  | object members ih =>
    have hmember : ∀ f ∈ (fieldsOfSample members).foldl (fun acc f => Field.insert f acc) [],
        ∃ m ∈ members, f.key = .named m.1 ∧ f.value = ofSample m.2 := by
      intro f hf
      have hfield := (mem_foldl_insert hf).resolve_right List.not_mem_nil
      rw [fieldsOfSample_eq_map] at hfield
      obtain ⟨m, hm, rfl⟩ := List.mem_map.1 hfield
      exact ⟨m, hm, rfl, rfl⟩
    rw [ofSample, ofFields] at h
    rcases hasEmptyField_iff.1 h with ⟨fields, heq, hkey⟩ | ⟨part, hpart, h⟩
    · cases heq
      obtain ⟨f, hf, hname⟩ := List.mem_map.1 hkey
      obtain ⟨m, hm, hkeys, -⟩ := hmember f hf
      exact .key (List.mem_map.2 ⟨m, hm, Key.named.inj (hkeys.symm.trans hname)⟩)
    · obtain ⟨f, hf, rfl⟩ := List.mem_map.1 hpart
      obtain ⟨m, hm, -, hvalue⟩ := hmember f hf
      rw [hvalue] at h
      exact .member hm (ih m hm h)

/-- The object for a sample has a field for each member, when the keys differ. -/
theorem ofSample_object_of_nodup {members : List (String × Json)}
    (h : (members.map Prod.fst).Nodup) :
    ofSample (.object members) = .object (fieldsOfSample members) := by
  rw [ofSample]
  refine ofFields_of_nodup ?_
  have hkeys : Field.keys (fieldsOfSample members) = (members.map Prod.fst).map Key.named := by
    rw [fieldsOfSample_eq_map, Field.keys, List.map_map, List.map_map]
    rfl
  rw [hkeys]
  exact h.map fun _ _ => Key.named.inj

/-- An empty key of a sample is an empty name in its shape. -/
theorem hasEmptyField_ofSample (hu : v.HasUniqueKeys) (h : v.HasEmptyKey) :
    (ofSample v).HasEmptyField := by
  induction h with
  | @key members hkey =>
    cases hu with
    | object unique _ =>
      obtain ⟨m, hm, hname⟩ := List.mem_map.1 hkey
      rw [ofSample_object_of_nodup unique, fieldsOfSample_eq_map]
      refine ⟨_, .whole, List.mem_map.2 ⟨_, List.mem_map_of_mem hm, ?_⟩⟩
      exact congrArg Key.named hname
  | @member members m hm _ ih =>
    cases hu with
    | object unique hvalues =>
      rw [ofSample_object_of_nodup unique, fieldsOfSample_eq_map]
      exact (ih (hvalues m hm)).of_occurs (.value (List.mem_map_of_mem hm) .whole)
  | @element elements e he _ ih =>
    cases hu with
    | array hvalues =>
      rw [ofSample, ofSamples_eq_map, hasEmptyField_array_union_iff]
      exact ⟨_, List.mem_map_of_mem he, ih (hvalues e he)⟩

end Samples

section Widen

variable {s : Shape} {precise : Bool} {reduction : Reduction}

/-- Scalar values have no keys. -/
theorem isComposite_of_hasEmptyKey {v : Json} (h : v.HasEmptyKey) : v.isComposite = true := by
  cases h <;> rfl

/-- The parts of a widened shape that is no literal are the widened parts. -/
theorem parts_widen (h : ∀ l, s ≠ .literal l) :
    (s.widen precise).parts = s.parts.map (Shape.widen precise) := by
  cases s with
  | literal l => exact absurd rfl (h l)
  | object fields =>
    rw [widen, widenFields_eq_map, parts, parts, List.map_map, List.map_map]
    rfl
  | joined c members => rw [widen, widenAll_eq_map, parts, parts]
  | tuple members => rw [widen, widenAll_eq_map, parts, parts]
  | _ => rfl

/-- Widening keeps the keys of an object and makes objects of literals only. -/
theorem exists_widen_eq_object_iff (h : ∀ l, s ≠ .literal l) :
    (∃ fields, s.widen precise = .object fields ∧ .named "" ∈ Field.keys fields) ↔ s.IsUnnamed := by
  cases s with
  | literal l => exact absurd rfl (h l)
  | object fields =>
    rw [widen, widenFields_eq_map]
    simp [IsUnnamed]
  | _ => simp [widen, IsUnnamed]

/-- Where the outermost layer is no literal, widening changes the parts only. -/
theorem hasEmptyField_widen_iff (h : ∀ l, s ≠ .literal l) : (s.widen precise).HasEmptyField ↔
    s.IsUnnamed ∨ ∃ part ∈ s.parts, (part.widen precise).HasEmptyField := by
  rw [hasEmptyField_iff, exists_widen_eq_object_iff h, parts_widen h]
  simp

/-- What has an empty name after widening had one before. -/
theorem HasEmptyField.of_widen (h : (s.widen precise).HasEmptyField) : s.HasEmptyName := by
  induction s using parts_induction with
  | step s ih =>
    by_cases hliteral : ∃ l, s = .literal l
    · obtain ⟨l, rfl⟩ := hliteral
      rw [widen] at h
      split at h
      · cases hvalue : l.value with
        | none =>
          rw [hvalue] at h
          obtain ⟨fields, ho, -⟩ := h
          cases ho
        | some v =>
          rw [hvalue] at h
          exact ⟨.literal l, .whole, v, hvalue, HasEmptyField.of_ofSample h⟩
      · obtain ⟨fields, ho, -⟩ := h
        cases ho
    · rw [hasEmptyField_widen_iff fun l hl => hliteral ⟨l, hl⟩] at h
      rcases h with houter | ⟨part, hpart, h⟩
      · exact hasEmptyName_iff.2 (.inl houter)
      · exact hasEmptyName_iff.2 (.inr ⟨part, hpart, ih part hpart h⟩)

/-- Every empty name is one of a field after widening. -/
theorem HasEmptyName.widen (hu : s.HasUniqueValues) (h : s.HasEmptyName) :
    (s.widen precise).HasEmptyField := by
  induction s using parts_induction with
  | step s ih =>
    by_cases hliteral : ∃ l, s = .literal l
    · obtain ⟨l, rfl⟩ := hliteral
      obtain ⟨t, ho, hunnamed⟩ := h
      cases ho
      obtain ⟨v, hvalue, hempty⟩ := hunnamed
      have hcomposite : l.isComposite = true := by
        rw [Literal.isComposite, hvalue]
        exact isComposite_of_hasEmptyKey hempty
      rw [Shape.widen, hcomposite, Bool.true_or, if_pos rfl, hvalue]
      exact hasEmptyField_ofSample (hu l v .whole hvalue) hempty
    · refine (hasEmptyField_widen_iff fun l hl => hliteral ⟨l, hl⟩).2 ?_
      rcases hasEmptyName_iff.1 h with houter | ⟨part, hpart, h⟩
      · exact .inl houter
      · have ho : Occurs part s := occurs_iff.2 (.inr ⟨part, hpart, .whole⟩)
        exact .inr ⟨part, hpart, ih part hpart (hu.of_occurs ho) h⟩

/-- A shape that is no object with a field of an empty name stays one in settling. -/
theorem inherited_lacksEmptyField {threshold : Nat} :
    Inherited threshold fun t =>
      ∀ fields, t = .object fields → .named "" ∉ Field.keys fields := by
  refine ⟨by simp, by simp, by simp, by simp, ?values, ?merged⟩
  case values =>
    rintro fields g h _ ⟨⟩ hkey
    rw [Field.keys_map_mapValue] at hkey
    exact h fields rfl hkey
  case merged =>
    rintro c unite objects h - _ ⟨⟩ hkey
    rw [mergedFields_eq] at hkey
    split at hkey
    · simp [Field.keys, dictionaryField] at hkey
    · obtain ⟨fields, hfields, hkey⟩ := mem_keys_wideFields.1 hkey
      exact h fields hfields fields rfl hkey

/-- Settling makes no empty names. -/
theorem HasEmptyField.of_settle {threshold : Nat} (h : (s.settle threshold).HasEmptyField) :
    s.HasEmptyField := by
  by_contra hnone
  have hall : Everywhere (fun t => ∀ fields, t = .object fields → .named "" ∉ Field.keys fields)
      s := by
    rintro t ho fields rfl hkey
    exact hnone ⟨fields, ho, hkey⟩
  obtain ⟨fields, ho, hkey⟩ := h
  exact hall.settle inherited_lacksEmptyField _ ho fields rfl hkey

/-- Reducing makes no empty names. -/
theorem HasEmptyName.of_reduce (h : (s.reduce reduction).HasEmptyName) : s.HasEmptyName := by
  have hfield : (s.reduce reduction).HasEmptyField := by
    obtain ⟨t, ho, hunnamed⟩ := h
    cases t with
    | object fields => exact ⟨fields, ho, hunnamed⟩
    | literal l =>
      -- the literals of a reduced shape are scalar
      obtain ⟨v, hvalue, hempty⟩ := hunnamed
      have hscalar : l.isComposite = false := (everywhere_isPlain_reduce reduction s _ ho).1
      rw [Literal.isComposite, hvalue] at hscalar
      exact absurd (isComposite_of_hasEmptyKey hempty) (by simpa using hscalar)
    | _ => cases hunnamed
  rw [reduce_eq] at hfield
  exact hfield.of_settle.of_widen

end Widen

end Shape

end TypedClient
