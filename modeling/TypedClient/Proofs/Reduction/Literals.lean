import TypedClient.Proofs.Json.Values
import TypedClient.Proofs.Shape.Parts
import TypedClient.Shape.Reduce

/-!
# Widened literals

Widening changes literals and nothing else: a composite one becomes its shape,
and a constant one its kind unless precision is kept. The literals of a sample's
shape are general and scalar, so what is widened has plain literals only, and a
shape with plain literals only stays as it is.
-/

namespace TypedClient

namespace Shape

section Samples

variable {P : Shape → Prop}

theorem ofSamples_eq_map (values : List Json) : ofSamples values = values.map ofSample := by
  induction values with
  | nil => rfl
  | cons v rest ih => rw [ofSamples, ih, List.map_cons]

theorem fieldsOfSample_eq_map (members : List (String × Json)) :
    fieldsOfSample members = members.map fun m =>
      { Field.named m.1 (ofSample m.2) with optional := m.2.isNull } := by
  induction members with
  | nil => rfl
  | cons m rest ih => rw [fieldsOfSample, ih, List.map_cons]

/-- What holds of general scalar literals, of lists, unions and objects with
different keys holds everywhere in the shape of a sample. -/
theorem everywhere_ofSample
    (literal : ∀ l : Literal, l.constant = false → l.isComposite = false → P (.literal l))
    (array : ∀ e, P (.array e)) (union : ∀ members, P (.joined .or members))
    (object : ∀ fields, (Field.keys fields).Nodup → P (.object fields)) (value : Json) :
    Everywhere P (ofSample value) := by
  induction value using Json.tree_induction with
  | null => exact everywhere_literal.2 (literal _ rfl rfl)
  | bool b => exact everywhere_literal.2 (literal _ rfl rfl)
  | number n => exact everywhere_literal.2 (literal _ rfl rfl)
  | string text => exact everywhere_literal.2 (literal _ rfl rfl)
  | array elements ih =>
    rw [ofSample, ofSamples_eq_map]
    refine everywhere_array.2 ⟨array _, everywhere_joined.2 ⟨union _, fun m hm => ?_⟩⟩
    obtain ⟨v, hv, rfl⟩ := List.mem_map.1 (mem_of_mem_distinctFrom hm)
    exact ih v hv
  | object members ih =>
    rw [ofSample, fieldsOfSample_eq_map]
    refine everywhere_ofFields (fun kept hk _ => object kept hk) fun f hf => ?_
    obtain ⟨m, hm, rfl⟩ := List.mem_map.1 hf
    exact ih m hm

/-- The same for a sample that may be undefined. -/
theorem everywhere_ofSample?
    (literal : ∀ l : Literal, l.constant = false → l.isComposite = false → P (.literal l))
    (array : ∀ e, P (.array e)) (union : ∀ members, P (.joined .or members))
    (object : ∀ fields, (Field.keys fields).Nodup → P (.object fields)) (value : Option Json) :
    Everywhere P (ofSample? value) := by
  cases value with
  | none => exact everywhere_literal.2 (literal _ rfl rfl)
  | some value => exact everywhere_ofSample literal array union object value

end Samples

section Widen

variable {P : Shape → Prop} {precise : Bool} {s : Shape}

theorem widenAll_eq_map (members : List Shape) :
    widenAll precise members = members.map (widen precise) := by
  induction members with
  | nil => rfl
  | cons m rest ih => rw [widenAll, ih, List.map_cons]

theorem widenFields_eq_map (fields : List (Field Shape)) :
    widenFields precise fields = fields.map (Field.mapValue (widen precise)) := by
  induction fields with
  | nil => rfl
  | cons f rest ih => rw [widenFields, ih, List.map_cons, Field.mapValue]

/-- A property of the outermost layer that holds of lists and tuples, looks at no
more than the number of members and not at the values of fields, and holds everywhere
in the shapes of values of literals passes to the widened shape. -/
theorem Everywhere.widen (array : ∀ e, P (.array e)) (tuple : ∀ members, P (.tuple members))
    (joined : ∀ c members members', members.length = members'.length →
      P (.joined c members) → P (.joined c members'))
    (values : ∀ fields g, P (.object fields) → P (.object (fields.map (Field.mapValue g))))
    (sample : ∀ l, Occurs (.literal l) s → Everywhere P (ofSample? l.value))
    (h : Everywhere P s) : Everywhere P (s.widen precise) := by
  induction s using tree_induction with
  | literal l =>
    rw [Shape.widen]
    split
    · exact sample l .whole
    · exact h
  | array e ih =>
    have helement := ih (fun l hl => sample l (.element hl)) (everywhere_array.1 h).2
    rw [Shape.widen]
    exact everywhere_array.2 ⟨array _, helement⟩
  | object fields ih =>
    obtain ⟨hobject, hvalues⟩ := everywhere_object.1 h
    rw [Shape.widen, widenFields_eq_map]
    refine everywhere_object.2 ⟨values fields _ hobject, fun g hg => ?_⟩
    obtain ⟨f, hf, rfl⟩ := List.mem_map.1 hg
    exact ih f hf (fun l hl => sample l (.value hf hl)) (hvalues f hf)
  | joined c members ih =>
    obtain ⟨hjoined, hmembers⟩ := everywhere_joined.1 h
    rw [Shape.widen, widenAll_eq_map]
    refine everywhere_joined.2 ⟨joined c members _ (by simp) hjoined, fun m hm => ?_⟩
    obtain ⟨a, ha, rfl⟩ := List.mem_map.1 hm
    exact ih a ha (fun l hl => sample l (.member ha hl)) (hmembers a ha)
  | tuple members ih =>
    rw [Shape.widen, widenAll_eq_map]
    refine everywhere_tuple.2 ⟨tuple _, fun m hm => ?_⟩
    obtain ⟨a, ha, rfl⟩ := List.mem_map.1 hm
    exact ih a ha (fun l hl => sample l (.position ha hl)) ((everywhere_tuple.1 h).2 a ha)
  | _ => exact h

/-- A literal that widening leaves alone: scalar, and constant only when
precision is kept. Shapes of other kinds are plain. -/
def IsPlain (precise : Bool) : Shape → Prop
  | .literal l => l.isComposite = false ∧ (l.constant = true → precise = true)
  | _ => True

/-- A literal that stands for one scalar alone, or that is the one a kind is written as.
Shapes of other kinds are standard. -/
def IsStandard : Shape → Prop
  | .literal l => l.isComposite = false ∧ (l.constant = false → ofSample? l.value = .literal l)
  | _ => True

/-- Widening leaves a standard literal alone when precision is kept. -/
theorem isPlain_of_isStandard (h : IsStandard s) : IsPlain true s := by
  cases s with
  | literal l => exact ⟨h.1, fun _ => rfl⟩
  | _ => trivial

/-- The literals in the shape of a sample are plain. -/
theorem everywhere_isPlain_ofSample? (precise : Bool) (value : Option Json) :
    Everywhere (IsPlain precise) (ofSample? value) := by
  refine everywhere_ofSample? (fun l hc hs => ⟨hs, fun h => ?_⟩) (fun _ => trivial)
    (fun _ => trivial) (fun _ _ => trivial) value
  rw [hc] at h
  contradiction

/-- Widening leaves plain literals only. -/
theorem everywhere_isPlain_widen (precise : Bool) (s : Shape) :
    Everywhere (IsPlain precise) (s.widen precise) := by
  induction s using tree_induction with
  | literal l =>
    rw [widen]
    split
    · exact everywhere_isPlain_ofSample? precise l.value
    · rename_i hl
      rw [Bool.or_eq_true, not_or, Bool.not_eq_true] at hl
      refine everywhere_literal.2 ⟨hl.1, fun hc => ?_⟩
      simpa [hc] using hl.2
  | array e ih =>
    rw [widen]
    exact everywhere_array.2 ⟨trivial, ih⟩
  | object fields ih =>
    rw [widen, widenFields_eq_map]
    refine everywhere_object.2 ⟨trivial, fun g hg => ?_⟩
    obtain ⟨f, hf, rfl⟩ := List.mem_map.1 hg
    exact ih f hf
  | joined c members ih =>
    rw [widen, widenAll_eq_map]
    refine everywhere_joined.2 ⟨trivial, fun m hm => ?_⟩
    obtain ⟨a, ha, rfl⟩ := List.mem_map.1 hm
    exact ih a ha
  | tuple members ih =>
    rw [widen, widenAll_eq_map]
    refine everywhere_tuple.2 ⟨trivial, fun m hm => ?_⟩
    obtain ⟨a, ha, rfl⟩ := List.mem_map.1 hm
    exact ih a ha
  | _ => simp [widen, IsPlain]

/-- A shape with plain literals only stays as it is. -/
theorem widen_of_everywhere_isPlain (h : Everywhere (IsPlain precise) s) : s.widen precise = s := by
  have hmap : ∀ members : List Shape, (∀ m ∈ members, m.widen precise = m) →
      members.map (Shape.widen precise) = members := fun members hm => by
    rw [List.map_congr_left hm, List.map_id']
  induction s using tree_induction with
  | literal l =>
    obtain ⟨hs, hc⟩ := everywhere_literal.1 h
    rw [widen, hs, Bool.false_or, if_neg]
    cases hl : l.constant with
    | false => simp
    | true => simp [hc hl]
  | array e ih => rw [widen, ih (everywhere_array.1 h).2]
  | object fields ih =>
    have hvalues : ∀ f ∈ fields, Field.mapValue (Shape.widen precise) f = f := fun f hf => by
      rw [Field.mapValue, ih f hf ((everywhere_object.1 h).2 f hf)]
    rw [widen, widenFields_eq_map, List.map_congr_left hvalues, List.map_id']
  | joined c members ih =>
    rw [widen, widenAll_eq_map, hmap members fun m hm => ih m hm ((everywhere_joined.1 h).2 m hm)]
  | tuple members ih =>
    rw [widen, widenAll_eq_map, hmap members fun m hm => ih m hm ((everywhere_tuple.1 h).2 m hm)]
  | _ => rfl

end Widen

end Shape

end TypedClient
