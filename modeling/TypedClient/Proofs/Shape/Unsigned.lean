import TypedClient.Proofs.Json.Values
import TypedClient.Proofs.Shape.Parts
import TypedClient.Shape.Arena

/-!
# Shapes without the sign of zero

Equality of numbers does not tell the two zeros apart, so an enumeration may stand for
equal values that differ in the sign of a zero. Shapes are alike when nothing else
tells them apart. Dropping the sign keeps how a shape is built, so what is decided by
looking at members and fields is decided alike, and alike shapes are equal.
-/

namespace TypedClient

/-- The value, with the zero without sign for either zero. -/
def Json.unsigned : Json → Json
  | .number (.float x) => .number (.float (if x.isZero then .zero false else x))
  | value => value

/-- The constant, with its value without the sign of zero. -/
def EnumMember.unsigned (m : EnumMember) : EnumMember := { m with value := m.value.unsigned }

/-- The enumeration, with its values without the sign of zero. -/
def Enumeration.unsigned (e : Enumeration) : Enumeration :=
  { e with members := e.members.map EnumMember.unsigned }

namespace Shape

mutual

/-- The shape, with the values of its enumerations without the sign of zero. -/
def unsigned : Shape → Shape
  | .array element => .array element.unsigned
  | .object fields => .object (unsignedFields fields)
  | .joined connective members => .joined connective (unsignedAll members)
  | .tuple members => .tuple (unsignedAll members)
  | .enumeration e => .enumeration e.unsigned
  | other => other

/-- The same for every shape in a list. -/
def unsignedAll : List Shape → List Shape
  | [] => []
  | member :: rest => member.unsigned :: unsignedAll rest

/-- The same for the value of every field. -/
def unsignedFields : List (Field Shape) → List (Field Shape)
  | [] => []
  | field :: rest => { field with value := field.value.unsigned } :: unsignedFields rest

end

/-- Shapes that nothing but the sign of zero in enumerations tells apart. -/
def Alike (s t : Shape) : Prop := s.unsigned = t.unsigned

theorem unsignedAll_eq_map (members : List Shape) : unsignedAll members = members.map unsigned := by
  induction members with
  | nil => rfl
  | cons m rest ih => rw [unsignedAll, ih, List.map_cons]

theorem unsignedFields_eq_map (fields : List (Field Shape)) :
    unsignedFields fields = fields.map (Field.mapValue unsigned) := by
  induction fields with
  | nil => rfl
  | cons f rest ih => rw [unsignedFields, ih, List.map_cons, Field.mapValue]

section Structure

variable {s t : Shape}

@[simp] theorem keyword?_unsigned : s.unsigned.keyword? = s.keyword? := by
  cases s <;> rfl

@[simp] theorem isVacuous_unsigned : s.unsigned.isVacuous = s.isVacuous := by
  rw [isVacuous, isVacuous, keyword?_unsigned]

/-- Only keywords and literals repeat anything, and these have no enumerations. -/
@[simp] theorem repeats_unsigned : s.unsigned.repeats t.unsigned = s.repeats t := by
  unfold repeats
  rw [keyword?_unsigned, keyword?_unsigned]
  cases hs : s.keyword? with
  | some k => rfl
  | none =>
    cases s with
    | literal l => cases t <;> rfl
    | _ => rfl

/-- The same members are kept of a list. -/
theorem distinctFrom_map_unsigned (seen members : List Shape) :
    distinctFrom (seen.map unsigned) (members.map unsigned) =
      (distinctFrom seen members).map unsigned := by
  induction members generalizing seen with
  | nil => rfl
  | cons m rest ih =>
    have hany : (seen.map unsigned).any (m.unsigned.repeats ·) = seen.any (m.repeats ·) := by
      rw [List.any_map]
      exact congrArg (seen.any ·) (funext fun _ => repeats_unsigned)
    rw [List.map_cons, distinctFrom, distinctFrom, isVacuous_unsigned, hany]
    split
    · exact ih seen
    · rw [List.map_cons, ← ih (m :: seen), List.map_cons]

theorem distinct_map_unsigned (members : List Shape) :
    distinct (members.map unsigned) = (distinct members).map unsigned :=
  distinctFrom_map_unsigned [] members

theorem unsigned_union (members : List Shape) :
    (union members).unsigned = union (members.map unsigned) := by
  rw [union, union, unsigned, unsignedAll_eq_map, distinct_map_unsigned]

theorem unsigned_intersection (members : List Shape) :
    (intersection members).unsigned = intersection (members.map unsigned) := by
  rw [intersection, intersection, unsigned, unsignedAll_eq_map, distinct_map_unsigned]

/-- A field is inserted by its key. -/
theorem map_insert_mapValue {g : Shape → Shape} (f : Field Shape) (fields : List (Field Shape)) :
    (Field.insert f fields).map (Field.mapValue g) =
      Field.insert (f.mapValue g) (fields.map (Field.mapValue g)) := by
  induction fields with
  | nil => rfl
  | cons other rest ih =>
    rw [Field.insert, List.map_cons, Field.insert, Field.mapValue_key, Field.mapValue_key]
    split
    · rfl
    · rw [List.map_cons, ih]

theorem unsigned_ofFields (fields : List (Field Shape)) :
    (ofFields fields).unsigned = ofFields (fields.map (Field.mapValue unsigned)) := by
  have hfold : ∀ acc : List (Field Shape),
      (fields.foldl (fun acc f => Field.insert f acc) acc).map (Field.mapValue unsigned) =
        (fields.map (Field.mapValue unsigned)).foldl (fun acc f => Field.insert f acc)
          (acc.map (Field.mapValue unsigned)) := by
    induction fields with
    | nil => exact fun _ => rfl
    | cons f rest ih =>
      intro acc
      rw [List.foldl_cons, ih, map_insert_mapValue, List.map_cons, List.foldl_cons]
  rw [ofFields, ofFields, unsigned, unsignedFields_eq_map, hfold, List.map_nil]

/-- Whether a shape says anything does not depend on the sign of zero, nor on the arena
as long as it is not left to a name. -/
theorem isTrivial_unsigned (arena arena' : Arena) (hs : ∀ name, s ≠ .reference name) :
    s.unsigned.isTrivial arena = s.isTrivial arena' := by
  cases s with
  | reference name => exact absurd rfl (hs name)
  | object fields =>
    rw [unsigned, isTrivial, isTrivial, unsignedFields_eq_map, List.isEmpty_map]
  | _ => simp only [unsigned, isTrivial]

end Structure

end Shape

/-! ### Equality -/

/-- Numbers that nothing but the sign of zero tells apart are equal. -/
theorem Binary64.sameValue_of_unsigned {x y : Binary64}
    (h : (if x.isZero then zero false else x) = if y.isZero then zero false else y) :
    x.sameValue y = true := by
  rw [sameValue, Bool.or_eq_true, Bool.and_eq_true, beq_iff_eq]
  by_cases hx : x.isZero = true <;> by_cases hy : y.isZero = true
  · exact Or.inr ⟨hx, hy⟩
  · rw [if_pos hx, if_neg hy] at h
    exact absurd (h ▸ rfl) hy
  · rw [if_neg hx, if_pos hy] at h
    exact absurd (h ▸ rfl) hx
  · rw [if_neg hx, if_neg hy] at h
    exact Or.inl h

/-- A value equals one that only the sign of zero tells apart, as it equals itself. -/
theorem Json.same_of_unsigned {v w : Json} (h : v.unsigned = w.unsigned)
    (hv : v.same v = true) : v.same w = true := by
  have hfloat : ∀ {x y : Binary64},
      (Json.number (.float x)).unsigned = (Json.number (.float y)).unsigned →
        x.sameValue y = true := fun h =>
    Binary64.sameValue_of_unsigned (Number.float.inj (Json.number.inj h))
  cases v with
  | number n =>
    cases w with
    | number m =>
      cases n with
      | integer i =>
        cases m with
        | integer j => cases h; exact hv
        | float y => cases h
      | float x =>
        cases m with
        | integer j => cases h
        | float y => exact hfloat h
    | _ => cases n <;> cases h
  | _ =>
    cases w with
    | number m => cases m <;> cases h
    | _ => first | (cases h; exact hv) | cases h

/-- Enumerations that only the sign of zero tells apart are equal, as each equals itself. -/
theorem Enumeration.same_of_unsigned {d e : Enumeration} (h : d.unsigned = e.unsigned)
    (hd : d.same d = true) : d.same e = true := by
  have hmembers : ∀ l l' : List EnumMember,
      l.map EnumMember.unsigned = l'.map EnumMember.unsigned →
        EnumMember.sameAll l l = true → EnumMember.sameAll l l' = true := by
    intro l
    induction l with
    | nil =>
      intro l' hl _
      rw [List.map_eq_nil_iff.1 hl.symm]
      rfl
    | cons a rest ih =>
      intro l' hl hself
      cases l' with
      | nil => cases hl
      | cons b rest' =>
        obtain ⟨hfirst, hrest⟩ := List.cons.inj hl
        obtain ⟨hname, hvalue⟩ := EnumMember.mk.inj hfirst
        simp only [EnumMember.sameAll, Bool.and_eq_true, beq_iff_eq] at hself ⊢
        exact ⟨⟨hname, Json.same_of_unsigned hvalue hself.1.2⟩, ih rest' hrest hself.2⟩
  obtain ⟨hname, hl⟩ := Enumeration.mk.inj h
  simp only [Enumeration.same, Bool.and_eq_true, beq_iff_eq] at hd ⊢
  exact ⟨hname, hmembers _ _ hl hd.2⟩

namespace Shape

/-- Lists of shapes are equal when the shapes at each place are. -/
theorem sameAll_of_unsigned {members members' : List Shape}
    (ih : ∀ m ∈ members, ∀ t, m.unsigned = t.unsigned → m.same m = true → m.same t = true)
    (h : members.map unsigned = members'.map unsigned) (hs : sameAll members members = true) :
    sameAll members members' = true := by
  induction members generalizing members' with
  | nil => rw [List.map_eq_nil_iff.1 h.symm]; rfl
  | cons m rest ihrest =>
    cases members' with
    | nil => cases h
    | cons m' rest' =>
      obtain ⟨hfirst, hrest⟩ := List.cons.inj h
      simp only [sameAll, Bool.and_eq_true] at hs ⊢
      exact ⟨ih m List.mem_cons_self m' hfirst hs.1,
        ihrest (fun m hm => ih m (List.mem_cons_of_mem _ hm)) hrest hs.2⟩

/-- Lists of fields are equal when their values are and nothing else differs. -/
theorem sameFields_of_unsigned {fields fields' : List (Field Shape)}
    (ih : ∀ f ∈ fields, ∀ t, f.value.unsigned = t.unsigned → f.value.same f.value = true →
      f.value.same t = true)
    (h : fields.map (Field.mapValue unsigned) = fields'.map (Field.mapValue unsigned))
    (hs : sameFields fields fields = true) : sameFields fields fields' = true := by
  induction fields generalizing fields' with
  | nil => rw [List.map_eq_nil_iff.1 h.symm]; rfl
  | cons f rest ihrest =>
    cases fields' with
    | nil => cases h
    | cons f' rest' =>
      obtain ⟨hfirst, hrest⟩ := List.cons.inj h
      obtain ⟨hkey, hvalue, hoptional, hdoc, hdefault, hreadonly⟩ := Field.mk.inj hfirst
      simp only [sameFields, Bool.and_eq_true, beq_iff_eq] at hs ⊢
      obtain ⟨⟨⟨⟨⟨⟨-, hself⟩, -⟩, -⟩, hdef⟩, -⟩, hselfs⟩ := hs
      have hvalues := ih f List.mem_cons_self f'.value hvalue hself
      have hothers := ihrest (fun f hf => ih f (List.mem_cons_of_mem _ hf)) hrest hselfs
      exact ⟨⟨⟨⟨⟨⟨hkey, hvalues⟩, hoptional⟩, hdoc⟩, hdefault ▸ hdef⟩, hreadonly⟩, hothers⟩

/-- Alike shapes are equal, as each equals itself. -/
theorem Alike.same {s t : Shape} (h : Alike s t) (hs : s.same s = true) : s.same t = true := by
  unfold Alike at h
  induction s using tree_induction generalizing t with
  | literal l => cases t <;> first | (cases h; exact hs) | cases h
  | array e ih =>
    cases t with
    | array e' => exact ih (Shape.array.inj h) hs
    | _ => cases h
  | object fields ih =>
    cases t with
    | object fields' =>
      have hfields := Shape.object.inj h
      rw [unsignedFields_eq_map, unsignedFields_eq_map] at hfields
      exact sameFields_of_unsigned (fun f hf t ht hself => ih f hf ht hself) hfields hs
    | _ => cases h
  | joined c members ih =>
    cases t with
    | joined c' members' =>
      obtain ⟨rfl, hmembers⟩ := Shape.joined.inj h
      rw [unsignedAll_eq_map, unsignedAll_eq_map] at hmembers
      simp only [Shape.same, Bool.and_eq_true] at hs ⊢
      exact ⟨hs.1, sameAll_of_unsigned (fun m hm t ht hself => ih m hm ht hself) hmembers hs.2⟩
    | _ => cases h
  | tuple members ih =>
    cases t with
    | tuple members' =>
      have hmembers := Shape.tuple.inj h
      rw [unsignedAll_eq_map, unsignedAll_eq_map] at hmembers
      exact sameAll_of_unsigned (fun m hm t ht hself => ih m hm ht hself) hmembers hs
    | _ => cases h
  | enumeration e =>
    cases t with
    | enumeration e' => exact Enumeration.same_of_unsigned (Shape.enumeration.inj h) hs
    | _ => cases h
  | _ => cases t <;> first | (cases h; exact hs) | cases h

end Shape

end TypedClient
