import TypedClient.Proofs.Reduction.Literals
import TypedClient.Proofs.Reduction.Settling

/-!
# What settling leaves of the parts of a shape

Settling rearranges the parts of a shape and merges objects into others. A property
of shapes that only looks at the outermost layer, holds of lists, tuples, non-empty
joined shapes, of an object whatever the values of its fields are, and of a merged object
as soon as it holds of the objects it is merged of, therefore holds everywhere in a settled
shape when it holds everywhere in the shape.
-/

namespace TypedClient.Shape

/-- A property of the outermost layer that a merged object inherits. -/
structure Inherited (threshold : Nat) (P : Shape → Prop) : Prop where
  /-- It holds of the shape that says nothing. -/
  any : P .any
  /-- It holds of lists. -/
  array : ∀ e, P (.array e)
  /-- It holds of tuples. -/
  tuple : ∀ members, P (.tuple members)
  /-- It holds of shapes joined of some members. -/
  joined : ∀ c members, members ≠ [] → P (.joined c members)
  /-- Of an object it does not look at the values of fields. -/
  values : ∀ fields g, P (.object fields) → P (.object (fields.map (Field.mapValue g)))
  /-- The object that objects are merged into has it when they have it. -/
  merged : ∀ c (unite : List Shape → Shape) objects, (∀ fields ∈ objects, P (.object fields)) →
    mergedFields c unite threshold objects ≠ [] →
    P (.object (mergedFields c unite threshold objects))

variable {P : Shape → Prop} {c : Connective} {threshold n : Nat} {s : Shape}

/-- Joining carries a property that holds everywhere in the members, together
with their nesting, when merging objects and uniting values below it do. -/
theorem everywhere_joinInvariant (any : P .any)
    (merged : ∀ objects, (∀ fields ∈ objects, P (.object fields)) →
      mergedFields c (united threshold) threshold objects ≠ [] →
      P (.object (mergedFields c (united threshold) threshold objects)))
    (united : ∀ vs, vs ≠ [] → nestingAll vs < n → (∀ v ∈ vs, Everywhere P v) →
      Everywhere P (united threshold vs)) :
    JoinInvariant c (Shape.united threshold) threshold (fun m => Everywhere P m ∧ m.nesting ≤ n)
      fun v => Everywhere P v ∧ v.nesting < n := by
  have hnest : JoinInvariant c (Shape.united threshold) threshold (fun m => m.nesting ≤ n)
      fun v => v.nesting < n := (nestsWithin_united n).joinInvariant
  have hpreserves : Preserves (Shape.united threshold) fun v => Everywhere P v ∧ v.nesting < n := by
    refine ⟨fun v hv => ⟨everywhere_any.2 any, hnest.preserves.any v hv.2⟩, fun vs hne h => ?_⟩
    have hvs : ∀ v ∈ vs, v.nesting < n := fun v hv => (h v hv).2
    exact ⟨united vs hne (nestingAll_lt hne hvs) fun v hv => (h v hv).1,
      hnest.preserves.unite vs hne hvs⟩
  refine ⟨fun ms h m hm => ?_, fun fields h f hf => ?_, hpreserves, fun objects h hne => ?_⟩
  · exact ⟨(everywhere_joined.1 h.1).2 m hm, hnest.inner ms h.2 m hm⟩
  · exact ⟨(everywhere_object.1 h.1).2 f hf, hnest.value fields h.2 f hf⟩
  · have hvalues : ∀ f ∈ mergedFields c (Shape.united threshold) threshold objects,
        Everywhere P f.value ∧ f.value.nesting < n :=
      value_mergedFields hpreserves fun fields hf f hm =>
        ⟨(everywhere_object.1 (h fields hf).1).2 f hm, hnest.value fields (h fields hf).2 f hm⟩
    have hobject := merged objects (fun fields hf => (h fields hf).1.here) hne
    exact ⟨everywhere_object.2 ⟨hobject, fun f hf => (hvalues f hf).1⟩,
      hnest.merged objects (fun fields hf => (h fields hf).2) hne⟩

/-- A property that holds everywhere in members holds everywhere in what is joined
of them, if it holds of the joined shape itself. -/
theorem everywhere_ofMembers {members : List Shape} (any : P .any)
    (h : ∀ m ∈ members, Everywhere P m) (joined : 2 ≤ members.length → P (.joined c members)) :
    Everywhere P (ofMembers c members) := by
  rcases ofMembers_cases (c := c) members with ⟨-, he⟩ | ⟨m, hm, he⟩ | ⟨hlen, he⟩
  · rw [he]
    exact everywhere_any.2 any
  · rw [he]
    exact h m (by rw [hm]; exact List.mem_singleton_self m)
  · rw [he]
    exact everywhere_joined.2 ⟨joined hlen, h⟩

/-- Settled members are nested no more deeply than the members. -/
theorem nesting_le_of_mem_map_settle {members : List Shape} {m : Shape}
    (h : m ∈ members.map (Shape.settle threshold)) : m.nesting ≤ nestingAll members := by
  obtain ⟨a, ha, rfl⟩ := List.mem_map.1 h
  exact (nesting_settle_le a).trans (nesting_le_nestingAll ha)

/-- An inherited property passes from every part of a shape to every part of the
settled shape. -/
theorem Everywhere.settle (hP : Inherited threshold P) (h : Everywhere P s) :
    Everywhere P (s.settle threshold) := by
  induction s using settle_induction with
  | array e ih =>
    rw [settle_array]
    exact everywhere_array.2 ⟨hP.array _, ih (everywhere_array.1 h).2⟩
  | object fields ih =>
    obtain ⟨hobject, hvalues⟩ := everywhere_object.1 h
    rw [settle_object]
    refine everywhere_object.2 ⟨hP.values fields _ hobject, fun g hg => ?_⟩
    obtain ⟨f, hf, rfl⟩ := List.mem_map.1 hg
    exact ih f hf (hvalues f hf)
  | joined c members ih ihu =>
    have hI : JoinInvariant c (united threshold) threshold
        (fun m => Everywhere P m ∧ m.nesting ≤ nestingAll members)
        fun v => Everywhere P v ∧ v.nesting < nestingAll members := by
      refine everywhere_joinInvariant hP.any (hP.merged c _) fun vs hne hvs hv => ?_
      exact ihu vs hvs (everywhere_joined.2 ⟨hP.joined .or vs hne, hv⟩)
    have hsettled : ∀ m ∈ members.map (Shape.settle threshold), Everywhere P m := by
      intro m hm
      obtain ⟨a, ha, rfl⟩ := List.mem_map.1 hm
      exact ih a ha ((everywhere_joined.1 h).2 a ha)
    have hall := hI.joinedMembers fun m hm => ⟨hsettled m hm, nesting_le_of_mem_map_settle hm⟩
    rw [settle_joined, join_eq]
    refine everywhere_ofMembers hP.any (fun m hm => (hall m hm).1) fun hlen => ?_
    exact hP.joined c _ (List.ne_nil_of_length_pos (by omega))
  | tuple members ih =>
    rw [settle_tuple]
    refine everywhere_tuple.2 ⟨hP.tuple _, fun m hm => ?_⟩
    obtain ⟨a, ha, rfl⟩ := List.mem_map.1 hm
    exact ih a ha ((everywhere_tuple.1 h).2 a ha)
  | _ => exact h

/-- Joining carries an inherited property that holds everywhere in the members,
together with their nesting. -/
theorem Inherited.joinInvariant (hP : Inherited threshold P) :
    JoinInvariant c (united threshold) threshold (fun m => Everywhere P m ∧ m.nesting ≤ n)
      fun v => Everywhere P v ∧ v.nesting < n := by
  refine everywhere_joinInvariant hP.any (hP.merged c _) fun vs hne _ hv => ?_
  exact Everywhere.settle hP (everywhere_joined.2 ⟨hP.joined .or vs hne, hv⟩)

/-- Merged objects are plain whatever they are merged of. -/
theorem inherited_isPlain (reduction : Reduction) :
    Inherited reduction.dictionaryThreshold (IsPlain reduction.precise) :=
  ⟨trivial, fun _ => trivial, fun _ => trivial, fun _ _ _ => trivial,
    fun _ _ _ => trivial, fun _ _ _ _ _ => trivial⟩

/-- The literals of a reduced shape are plain. -/
theorem everywhere_isPlain_reduce (reduction : Reduction) (s : Shape) :
    Everywhere (IsPlain reduction.precise) (s.reduce reduction) := by
  rw [reduce_eq]
  exact (everywhere_isPlain_widen reduction.precise s).settle (inherited_isPlain reduction)

/-- An inherited property passes from every part of a shape to every part of the reduced
shape, when it passes from a literal to the parts of the shape of its value. -/
theorem Everywhere.reduce {reduction : Reduction}
    (hP : Inherited reduction.dictionaryThreshold P)
    (sample : ∀ l, P (.literal l) → Everywhere P (ofSample? l.value)) (h : Everywhere P s) :
    Everywhere P (s.reduce reduction) := by
  have hjoined : ∀ c (members members' : List Shape), members.length = members'.length →
      P (.joined c members) → P (.joined c members') := by
    intro c members members' hlen hp
    cases members' with
    | nil => rwa [List.length_eq_zero_iff.1 hlen] at hp
    | cons m rest => exact hP.joined c _ (List.cons_ne_nil m rest)
  have hwidened : Everywhere P (s.widen reduction.precise) :=
    h.widen hP.array hP.tuple hjoined hP.values fun l hl => sample l (h _ hl)
  rw [reduce_eq]
  exact hwidened.settle hP

/-- Merged objects have every key once. -/
theorem inherited_hasUniqueKeys (threshold : Nat) : Inherited threshold HasUniqueKeys :=
  ⟨trivial, fun _ => trivial, fun _ => trivial, fun _ _ _ => trivial,
    fun _ _ => HasUniqueKeys.of_keys_eq (by simp), fun _ _ _ _ _ => nodup_keys_mergedFields⟩

/-- The objects in the shape of a sample have every key once. -/
theorem everywhere_hasUniqueKeys_ofSample? (value : Option Json) :
    Everywhere HasUniqueKeys (ofSample? value) :=
  everywhere_ofSample? (fun _ _ _ => trivial) (fun _ => trivial) (fun _ => trivial)
    (fun _ h => h) value

/-- Reducing keeps keys unique. -/
theorem everywhere_hasUniqueKeys_reduce (reduction : Reduction)
    (h : Everywhere HasUniqueKeys s) : Everywhere HasUniqueKeys (s.reduce reduction) :=
  h.reduce (inherited_hasUniqueKeys _) fun l _ => everywhere_hasUniqueKeys_ofSample? l.value

end TypedClient.Shape
