import Mathlib.Algebra.BigOperators.Group.List.Basic
import TypedClient.Proofs.Shape.Distinct
import TypedClient.Proofs.Shape.Parts

/-!
# Totals over the parts of a shape

A weight in a commutative monoid adds up over all shapes that occur in a shape.
With multisets for weights the total counts them, with sets it collects them.

A weight of leaves gives none to a shape that has parts. It is absorbed when what
says nothing weighs nothing, and what repeats another adds nothing to it. Then
making members distinct changes no total.
-/

namespace TypedClient.Shape

section Total

variable {M : Type} [AddCommMonoid M]

mutual

/-- What all shapes that occur in a shape weigh together. -/
def total (weight : Shape → M) : Shape → M
  | .array element => weight (.array element) + element.total weight
  | .object fields => weight (.object fields) + totalFields weight fields
  | .joined c members => weight (.joined c members) + totalAll weight members
  | .tuple members => weight (.tuple members) + totalAll weight members
  | leaf => weight leaf

/-- What all shapes that occur in some shapes weigh together. -/
def totalAll (weight : Shape → M) : List Shape → M
  | [] => 0
  | member :: rest => member.total weight + totalAll weight rest

/-- What all shapes that occur in the values of fields weigh together. -/
def totalFields (weight : Shape → M) : List (Field Shape) → M
  | [] => 0
  | field :: rest => field.value.total weight + totalFields weight rest

end

variable {weight weight' : Shape → M}

theorem totalAll_eq_sum (members : List Shape) :
    totalAll weight members = (members.map (total weight)).sum := by
  induction members with
  | nil => rfl
  | cons m rest ih => rw [totalAll, ih, List.map_cons, List.sum_cons]

theorem totalFields_eq_totalAll (fields : List (Field Shape)) :
    totalFields weight fields = totalAll weight (fields.map Field.value) := by
  induction fields with
  | nil => rfl
  | cons f rest ih => rw [totalFields, ih, List.map_cons, totalAll]

@[simp] theorem totalAll_nil : totalAll weight [] = 0 := rfl

@[simp] theorem totalAll_cons (m : Shape) (rest : List Shape) :
    totalAll weight (m :: rest) = m.total weight + totalAll weight rest := rfl

@[simp] theorem totalAll_append (members others : List Shape) :
    totalAll weight (members ++ others) = totalAll weight members + totalAll weight others := by
  simp only [totalAll_eq_sum, List.map_append, List.sum_append]

/-- The order of shapes does not matter to their total. -/
theorem totalAll_perm {members others : List Shape} (h : members.Perm others) :
    totalAll weight members = totalAll weight others := by
  rw [totalAll_eq_sum, totalAll_eq_sum]
  exact (h.map (total weight)).sum_eq

/-- Shapes that weigh the same one by one weigh the same together. -/
theorem totalAll_map_congr {members : List Shape} {g : Shape → Shape}
    (h : ∀ m ∈ members, (g m).total weight' = m.total weight) :
    totalAll weight' (members.map g) = totalAll weight members := by
  have hmap : members.map (total weight' ∘ g) = members.map (total weight) :=
    List.map_congr_left h
  rw [totalAll_eq_sum, totalAll_eq_sum, List.map_map, hmap]

/-- Fields whose values weigh the same one by one weigh the same together. -/
theorem totalFields_map_congr {fields : List (Field Shape)} {g : Shape → Shape}
    (h : ∀ f ∈ fields, (g f.value).total weight' = f.value.total weight) :
    totalFields weight' (fields.map (Field.mapValue g)) = totalFields weight fields := by
  have hvalues : (fields.map (Field.mapValue g)).map Field.value =
      (fields.map Field.value).map g := by
    simp only [List.map_map, Function.comp_def, Field.mapValue_value]
  rw [totalFields_eq_totalAll, totalFields_eq_totalAll, hvalues]
  refine totalAll_map_congr fun v hv => ?_
  obtain ⟨f, hf, rfl⟩ := List.mem_map.1 hv
  exact h f hf

/-- A shape weighs what it weighs itself and what its parts weigh. -/
theorem total_eq (s : Shape) : s.total weight = weight s + totalAll weight s.parts := by
  cases s with
  | array e => rw [total, parts, totalAll_cons, totalAll_nil, add_zero]
  | object fields => rw [total, parts, totalFields_eq_totalAll]
  | joined c members => rw [total, parts]
  | tuple members => rw [total, parts]
  | _ =>
    rw [parts, totalAll_nil, add_zero, total] <;> simp

/-- A shape without parts weighs by itself. -/
theorem total_of_parts_eq_nil {s : Shape} (h : s.parts = []) : s.total weight = weight s := by
  rw [total_eq, h, totalAll_nil, add_zero]

/-- A shape with a keyword has no parts. -/
theorem parts_of_keyword? {s : Shape} {k : Keyword} (h : s.keyword? = some k) : s.parts = [] := by
  cases s <;> first | rfl | cases h

/-- A shape that says nothing weighs by itself. -/
theorem total_of_isVacuous {s : Shape} (h : s.isVacuous = true) : s.total weight = weight s := by
  cases hk : s.keyword? with
  | none => simp [isVacuous, hk] at h
  | some k => exact total_of_parts_eq_nil (parts_of_keyword? hk)

/-- What repeats another and what is repeated weigh by themselves. -/
theorem total_of_repeats {earlier later : Shape} (h : later.repeats earlier = true) :
    earlier.total weight = weight earlier ∧ later.total weight = weight later := by
  unfold repeats at h
  cases hk : later.keyword? with
  | some k =>
    simp only [hk, beq_iff_eq] at h
    exact ⟨total_of_parts_eq_nil (parts_of_keyword? h),
      total_of_parts_eq_nil (parts_of_keyword? hk)⟩
  | none =>
    cases later with
    | literal l =>
      simp only [hk] at h
      cases earlier with
      | literal l' => exact ⟨total_of_parts_eq_nil rfl, total_of_parts_eq_nil rfl⟩
      | _ => cases h
    | _ => simp [hk] at h

/-- A weight that shapes with parts do not have. -/
structure WeighsLeaves (weight : Shape → M) : Prop where
  /-- Lists do not. -/
  array : ∀ e, weight (.array e) = 0
  /-- Objects do not. -/
  object : ∀ fields, weight (.object fields) = 0
  /-- Joined shapes do not. -/
  joined : ∀ c members, weight (.joined c members) = 0
  /-- Tuples do not. -/
  tuple : ∀ members, weight (.tuple members) = 0

section WeighsLeaves

variable (hw : WeighsLeaves weight)

include hw

theorem WeighsLeaves.total_array (e : Shape) :
    (Shape.array e).total weight = e.total weight := by
  rw [total, hw.array, zero_add]

theorem WeighsLeaves.total_object (fields : List (Field Shape)) :
    (Shape.object fields).total weight = totalFields weight fields := by
  rw [total, hw.object, zero_add]

theorem WeighsLeaves.total_joined (c : Connective) (members : List Shape) :
    (Shape.joined c members).total weight = totalAll weight members := by
  rw [total, hw.joined, zero_add]

theorem WeighsLeaves.total_tuple (members : List Shape) :
    (Shape.tuple members).total weight = totalAll weight members := by
  rw [total, hw.tuple, zero_add]

end WeighsLeaves

/-- A weight of leaves that making members distinct does not change. -/
structure IsAbsorbed (weight : Shape → M) : Prop extends WeighsLeaves weight where
  /-- What says nothing weighs nothing. -/
  vacuous : ∀ s : Shape, s.isVacuous = true → weight s = 0
  /-- What repeats another adds nothing to it. -/
  repeated : ∀ earlier later : Shape, later.repeats earlier = true →
    weight earlier + weight later = weight earlier

/-- What repeats one of some members adds nothing to them. -/
theorem IsAbsorbed.totalAll_add (hw : IsAbsorbed weight) {seen : List Shape} {earlier later : Shape}
    (hm : earlier ∈ seen) (hr : later.repeats earlier = true) :
    totalAll weight seen + later.total weight = totalAll weight seen := by
  obtain ⟨hearlier, hlater⟩ : earlier.total weight = weight earlier ∧
      later.total weight = weight later := total_of_repeats hr
  obtain ⟨before, after, rfl⟩ := List.append_of_mem hm
  have habsorb := hw.repeated earlier later hr
  have hmove : totalAll weight (before ++ earlier :: after) + later.total weight =
      totalAll weight before + totalAll weight after + (weight earlier + weight later) := by
    rw [totalAll_append, totalAll_cons, hearlier, hlater]
    ac_rfl
  have hback : totalAll weight (before ++ earlier :: after) =
      totalAll weight before + totalAll weight after + weight earlier := by
    rw [totalAll_append, totalAll_cons, hearlier]
    ac_rfl
  rw [hmove, hback, habsorb]

/-- What is left out repeats what was seen or is kept. -/
theorem IsAbsorbed.totalAll_distinctFrom (hw : IsAbsorbed weight) (seen members : List Shape) :
    totalAll weight seen + totalAll weight (distinctFrom seen members) =
      totalAll weight seen + totalAll weight members := by
  induction members generalizing seen with
  | nil => rfl
  | cons m rest ih =>
    unfold distinctFrom
    split
    · rename_i hdrop
      have hm : totalAll weight seen + m.total weight = totalAll weight seen := by
        rcases (Bool.or_eq_true _ _).mp hdrop with hv | hr
        · rw [total_of_isVacuous hv, hw.vacuous m hv, add_zero]
        · obtain ⟨earlier, hearlier, hr⟩ := List.any_eq_true.1 hr
          exact hw.totalAll_add hearlier hr
      rw [ih seen, totalAll_cons, ← add_assoc, hm]
    · have hrest := ih (m :: seen)
      rw [totalAll_cons] at hrest
      rw [totalAll_cons, totalAll_cons, add_left_comm, ← add_assoc, hrest]
      ac_rfl

/-- Making members distinct changes no total. -/
theorem IsAbsorbed.totalAll_distinct (hw : IsAbsorbed weight) (members : List Shape) :
    totalAll weight (distinct members) = totalAll weight members := by
  have h := hw.totalAll_distinctFrom [] members
  rwa [totalAll_nil, zero_add, zero_add] at h

end Total

end TypedClient.Shape
