import TypedClient.Shape.Basic

/-!
# Parts of a shape

A shape is a tree: elements, values of fields, members and positions are its
parts, and the parts of those. A property that holds everywhere in a shape holds
of the shape and of its parts. The walks of the library that go through a list
member by member are maps, and a bound on the nesting of a list is one on each
of its members.
-/

namespace TypedClient

/-- Change the value of a field. -/
def Field.mapValue {σ τ : Type} (g : σ → τ) (field : Field σ) : Field τ :=
  { field with value := g field.value }

@[simp] theorem Field.mapValue_value {σ τ : Type} (g : σ → τ) (field : Field σ) :
    (field.mapValue g).value = g field.value := rfl

@[simp] theorem Field.mapValue_key {σ τ : Type} (g : σ → τ) (field : Field σ) :
    (field.mapValue g).key = field.key := rfl

/-- Changing values changes no key. -/
@[simp] theorem Field.keys_map_mapValue {σ τ : Type} (g : σ → τ) (fields : List (Field σ)) :
    Field.keys (fields.map (Field.mapValue g)) = Field.keys fields := by
  simp [Field.keys, Function.comp_def]

/-- An inserted field is there, and every other field was there before. -/
theorem Field.mem_insert {σ : Type} {field f : Field σ} {fields : List (Field σ)}
    (h : f ∈ Field.insert field fields) : f = field ∨ f ∈ fields := by
  induction fields with
  | nil => exact Or.inl (List.mem_singleton.1 h)
  | cons g rest ih =>
    unfold Field.insert at h
    split at h
    · exact (List.mem_cons.1 h).imp_right (List.mem_cons_of_mem g)
    · rcases List.mem_cons.1 h with rfl | h
      · exact Or.inr List.mem_cons_self
      · exact (ih h).imp_right (List.mem_cons_of_mem g)

/-- A field with a new key is put at the end. -/
theorem Field.insert_of_not_mem_keys {σ : Type} {field : Field σ} {fields : List (Field σ)}
    (h : field.key ∉ Field.keys fields) : Field.insert field fields = fields ++ [field] := by
  induction fields with
  | nil => rfl
  | cons g rest ih =>
    rw [Field.keys, List.map_cons, List.mem_cons, not_or] at h
    rw [Field.insert, if_neg (Ne.symm h.1), ih h.2, List.cons_append]

namespace Shape

/-- Induction over the tree of a shape, with the claim at hand for every value of
a field and for every member. -/
@[elab_as_elim]
theorem tree_induction {motive : Shape → Prop} (any : motive .any) (void : motive .void)
    (literal : ∀ l, motive (.literal l))
    (array : ∀ element, motive element → motive (.array element))
    (object : ∀ fields, (∀ field ∈ fields, motive field.value) → motive (.object fields))
    (joined : ∀ connective members, (∀ m ∈ members, motive m) → motive (.joined connective members))
    (tuple : ∀ members, (∀ m ∈ members, motive m) → motive (.tuple members))
    (enumeration : ∀ e, motive (.enumeration e)) (reference : ∀ name, motive (.reference name))
    (s : Shape) : motive s :=
  @Shape.rec motive (fun fields => ∀ field ∈ fields, motive field.value)
    (fun members => ∀ m ∈ members, motive m) (fun field => motive field.value)
    any void literal array object joined tuple enumeration reference
    (by simp) (fun _ _ head tail => List.forall_mem_cons.2 ⟨head, tail⟩)
    (by simp) (fun _ _ head tail => List.forall_mem_cons.2 ⟨head, tail⟩)
    (fun _ _ _ _ _ _ value => value) s

/-- A shape occurs in another: it is the whole, or it occurs in a part. -/
inductive Occurs (s : Shape) : Shape → Prop where
  /-- A shape occurs in itself. -/
  | whole : Occurs s s
  /-- What occurs in the element occurs in the list. -/
  | element {e : Shape} : Occurs s e → Occurs s (.array e)
  /-- What occurs in the value of a field occurs in the object. -/
  | value {fields : List (Field Shape)} {field : Field Shape} :
      field ∈ fields → Occurs s field.value → Occurs s (.object fields)
  /-- What occurs in a member occurs in the joined shape. -/
  | member {c : Connective} {members : List Shape} {m : Shape} :
      m ∈ members → Occurs s m → Occurs s (.joined c members)
  /-- What occurs at a position occurs in the tuple. -/
  | position {members : List Shape} {m : Shape} :
      m ∈ members → Occurs s m → Occurs s (.tuple members)

/-- What occurs in a part occurs in the whole. -/
theorem Occurs.trans {r s t : Shape} (h : Occurs r s) (h' : Occurs s t) : Occurs r t := by
  induction h' with
  | whole => exact h
  | element _ ih => exact .element ih
  | value hf _ ih => exact .value hf ih
  | member hm _ ih => exact .member hm ih
  | position hm _ ih => exact .position hm ih

/-- The property holds of every shape that occurs in `s`. -/
def Everywhere (P : Shape → Prop) (s : Shape) : Prop := ∀ t, Occurs t s → P t

section Everywhere

variable {P : Shape → Prop} {s : Shape}

/-- What holds everywhere holds of the whole. -/
theorem Everywhere.here (h : Everywhere P s) : P s := h s .whole

@[simp] theorem everywhere_any : Everywhere P .any ↔ P .any :=
  ⟨Everywhere.here, fun h t ht => by cases ht; exact h⟩

@[simp] theorem everywhere_void : Everywhere P .void ↔ P .void :=
  ⟨Everywhere.here, fun h t ht => by cases ht; exact h⟩

@[simp] theorem everywhere_literal {l : Literal} : Everywhere P (.literal l) ↔ P (.literal l) :=
  ⟨Everywhere.here, fun h t ht => by cases ht; exact h⟩

@[simp] theorem everywhere_enumeration {e : Enumeration} :
    Everywhere P (.enumeration e) ↔ P (.enumeration e) :=
  ⟨Everywhere.here, fun h t ht => by cases ht; exact h⟩

@[simp] theorem everywhere_reference {name : String} :
    Everywhere P (.reference name) ↔ P (.reference name) :=
  ⟨Everywhere.here, fun h t ht => by cases ht; exact h⟩

@[simp] theorem everywhere_array {e : Shape} :
    Everywhere P (.array e) ↔ P (.array e) ∧ Everywhere P e := by
  refine ⟨fun h => ⟨h.here, fun t ht => h t (.element ht)⟩, fun h t ht => ?_⟩
  cases ht with
  | whole => exact h.1
  | element ht => exact h.2 t ht

@[simp] theorem everywhere_object {fields : List (Field Shape)} :
    Everywhere P (.object fields) ↔ P (.object fields) ∧ ∀ f ∈ fields, Everywhere P f.value := by
  refine ⟨fun h => ⟨h.here, fun f hf t ht => h t (.value hf ht)⟩, fun h t ht => ?_⟩
  cases ht with
  | whole => exact h.1
  | value hf ht => exact h.2 _ hf t ht

@[simp] theorem everywhere_joined {c : Connective} {members : List Shape} :
    Everywhere P (.joined c members) ↔
      P (.joined c members) ∧ ∀ m ∈ members, Everywhere P m := by
  refine ⟨fun h => ⟨h.here, fun m hm t ht => h t (.member hm ht)⟩, fun h t ht => ?_⟩
  cases ht with
  | whole => exact h.1
  | member hm ht => exact h.2 _ hm t ht

@[simp] theorem everywhere_tuple {members : List Shape} :
    Everywhere P (.tuple members) ↔ P (.tuple members) ∧ ∀ m ∈ members, Everywhere P m := by
  refine ⟨fun h => ⟨h.here, fun m hm t ht => h t (.position hm ht)⟩, fun h t ht => ?_⟩
  cases ht with
  | whole => exact h.1
  | position hm ht => exact h.2 _ hm t ht

end Everywhere

/-- The parts of a shape that are not parts of its parts. -/
def parts : Shape → List Shape
  | .array element => [element]
  | .object fields => fields.map Field.value
  | .joined _ members => members
  | .tuple members => members
  | _ => []

/-- Induction over the tree of a shape, with the claim at hand for every part. -/
theorem parts_induction {motive : Shape → Prop}
    (step : ∀ s, (∀ part ∈ s.parts, motive part) → motive s) (s : Shape) : motive s := by
  induction s using tree_induction with
  | array e ih => exact step _ (by simpa [parts] using ih)
  | object fields ih => exact step _ (by simpa [parts] using ih)
  | joined c members ih => exact step _ ih
  | tuple members ih => exact step _ ih
  | _ => exact step _ (by simp [parts])

/-- What occurs in a shape is the whole, or it occurs in a part. -/
theorem occurs_iff {s t : Shape} : Occurs t s ↔ t = s ∨ ∃ part ∈ s.parts, Occurs t part := by
  constructor
  · intro h
    cases h with
    | whole => exact Or.inl rfl
    | element h => exact Or.inr ⟨_, List.mem_singleton_self _, h⟩
    | value hf h => exact Or.inr ⟨_, List.mem_map_of_mem hf, h⟩
    | member hm h => exact Or.inr ⟨_, hm, h⟩
    | position hm h => exact Or.inr ⟨_, hm, h⟩
  · rintro (rfl | ⟨part, hpart, h⟩)
    · exact .whole
    · cases s with
      | array e => exact .element (List.mem_singleton.1 hpart ▸ h)
      | object fields =>
        obtain ⟨f, hf, rfl⟩ := List.mem_map.1 hpart
        exact .value hf h
      | joined c members => exact .member hpart h
      | tuple members => exact .position hpart h
      | _ => exact absurd hpart List.not_mem_nil

/-- A shape that is written as a name. -/
def IsNamed : Shape → Prop
  | .enumeration _ | .reference _ => True
  | _ => False

/-- Whether an object has every key once. Shapes of other kinds have no keys. -/
def HasUniqueKeys : Shape → Prop
  | .object fields => (Field.keys fields).Nodup
  | _ => True

/-- Only the keys matter to whether they are unique. -/
theorem HasUniqueKeys.of_keys_eq {fields fields' : List (Field Shape)}
    (he : Field.keys fields = Field.keys fields') (h : HasUniqueKeys (.object fields)) :
    HasUniqueKeys (.object fields') := by
  rw [HasUniqueKeys, ← he]
  exact h

section OfFields

/-- The object made of fields has every key once. -/
theorem nodup_keys_foldl_insert (fields acc : List (Field Shape)) (h : (Field.keys acc).Nodup) :
    (Field.keys (fields.foldl (fun acc field => Field.insert field acc) acc)).Nodup := by
  induction fields generalizing acc with
  | nil => exact h
  | cons f rest ih => exact ih _ (Field.nodup_keys_insert f acc h)

/-- The object made of fields has no other field than these. -/
theorem mem_foldl_insert {fields acc : List (Field Shape)} {f : Field Shape}
    (h : f ∈ fields.foldl (fun acc field => Field.insert field acc) acc) :
    f ∈ fields ∨ f ∈ acc := by
  induction fields generalizing acc with
  | nil => exact Or.inr h
  | cons g rest ih =>
    rcases ih h with h | h
    · exact Or.inl (List.mem_cons_of_mem g h)
    · rcases Field.mem_insert h with rfl | h
      · exact Or.inl List.mem_cons_self
      · exact Or.inr h

/-- Fields with different keys are kept in order. -/
theorem foldl_insert_of_nodup (fields acc : List (Field Shape))
    (h : (Field.keys (acc ++ fields)).Nodup) :
    fields.foldl (fun acc field => Field.insert field acc) acc = acc ++ fields := by
  induction fields generalizing acc with
  | nil => exact (List.append_nil acc).symm
  | cons f rest ih =>
    have hnew : f.key ∉ Field.keys acc := by
      rw [Field.keys, List.map_append, List.nodup_append] at h
      exact fun hmem => h.2.2 _ hmem _ (List.mem_map_of_mem List.mem_cons_self) rfl
    rw [List.append_cons] at h ⊢
    rw [List.foldl_cons, Field.insert_of_not_mem_keys hnew, ih _ h]

/-- The object made of fields with different keys has just these. -/
theorem ofFields_of_nodup {fields : List (Field Shape)} (h : (Field.keys fields).Nodup) :
    ofFields fields = .object fields :=
  congrArg Shape.object (foldl_insert_of_nodup fields [] h)

/-- What holds of objects with different keys whose fields are among these, and everywhere
in the values of these, holds everywhere in the object made of them. -/
theorem everywhere_ofFields {P : Shape → Prop} {fields : List (Field Shape)}
    (object : ∀ kept, (Field.keys kept).Nodup → kept ⊆ fields → P (.object kept))
    (h : ∀ f ∈ fields, Everywhere P f.value) : Everywhere P (ofFields fields) := by
  have hkept : fields.foldl (fun acc field => Field.insert field acc) [] ⊆ fields :=
    fun f hf => (mem_foldl_insert hf).resolve_right List.not_mem_nil
  rw [ofFields]
  refine everywhere_object.2 ⟨object _ ?_ hkept, fun f hf => h f (hkept hf)⟩
  exact nodup_keys_foldl_insert _ [] List.nodup_nil

end OfFields

section Nesting

/-- A list of shapes is nested as deeply as its deepest member. -/
theorem nestingAll_le_iff {members : List Shape} {n : Nat} :
    nestingAll members ≤ n ↔ ∀ m ∈ members, m.nesting ≤ n := by
  induction members with
  | nil => simp [nestingAll]
  | cons m rest ih => rw [nestingAll, Nat.max_le, ih, List.forall_mem_cons]

/-- A list of fields is nested as deeply as its deepest value. -/
theorem nestingFields_le_iff {fields : List (Field Shape)} {n : Nat} :
    nestingFields fields ≤ n ↔ ∀ f ∈ fields, f.value.nesting ≤ n := by
  induction fields with
  | nil => simp [nestingFields]
  | cons f rest ih => rw [nestingFields, Nat.max_le, ih, List.forall_mem_cons]

/-- No member is nested more deeply than the list. -/
theorem nesting_le_nestingAll {members : List Shape} {m : Shape} (h : m ∈ members) :
    m.nesting ≤ nestingAll members :=
  nestingAll_le_iff.1 (Nat.le_refl _) m h

/-- No value of a field is nested more deeply than the list of fields. -/
theorem nesting_le_nestingFields {fields : List (Field Shape)} {f : Field Shape}
    (h : f ∈ fields) : f.value.nesting ≤ nestingFields fields :=
  nestingFields_le_iff.1 (Nat.le_refl _) f h

/-- The value of a field is nested less deeply than the object. -/
theorem nesting_value_lt {fields : List (Field Shape)} {f : Field Shape} (h : f ∈ fields) :
    f.value.nesting < (Shape.object fields).nesting :=
  Nat.lt_succ_of_le (nesting_le_nestingFields h)

end Nesting

end Shape

end TypedClient
