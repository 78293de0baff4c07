import Mathlib.Data.List.Count
import Mathlib.Data.List.Nodup
import TypedClient.Proofs.Reduction.NormalForm

/-!
# Keys and optionality of merged objects

A merged object has the keys of the objects that it is merged of, in the order in which
they come first. A field may be absent when one of the objects lets it be absent, and in a
union when one of them lacks it. A value that is null or undefined opens its field too,
but only while no other object has the key: values are united as they are met, and a
union does not keep what is null or undefined.
-/

namespace TypedClient.Shape

/-- One of some objects has a field of the key that may be absent. -/
def IsOptionalIn (k : Key) (objects : List (List (Field Shape))) : Prop :=
  ∃ fields ∈ objects, ∃ f ∈ fields, f.key = k ∧ f.optional = true

/-- One of some objects has a field of the key whose value is null or undefined. -/
def IsNullishIn (k : Key) (objects : List (List (Field Shape))) : Prop :=
  ∃ fields ∈ objects, ∃ f ∈ fields, f.key = k ∧ f.value.isNullish = true

/-- One of some objects lacks the key. -/
def IsAbsentIn (k : Key) (objects : List (List (Field Shape))) : Prop :=
  ∃ fields ∈ objects, k ∉ Field.keys fields

/-- The number of objects that have the key. -/
def carriers (k : Key) (objects : List (List (Field Shape))) : Nat :=
  objects.countP fun fields => k ∈ Field.keys fields

section MergeAll

variable {unite : List Shape → Shape} {fields : List (Field Shape)} {m : Merged}

/-- The merged keys come in the order in which they are met. -/
theorem keys_mergeAll : Merged.keys (mergeAll unite fields) = (Field.keys fields).eraseDups := by
  induction fields using List.reverseRecOn with
  | nil => rfl
  | append_singleton fields field ih =>
    have hkeys : Field.keys (fields ++ [field]) = Field.keys fields ++ [field.key] := by
      simp [Field.keys]
    rw [mergeAll_concat, keys_absorb, hkeys, List.eraseDups_append]
    by_cases hk : field.key ∈ Field.keys fields
    · simp [ih, hk, List.removeAll]
    · simp [ih, hk, List.removeAll, List.eraseDups_cons]

/-- A merged field may be absent when one of the fields with its key may. -/
theorem optional_mergeAll_iff (h : m ∈ mergeAll unite fields) :
    m.field.optional = true ↔ ∃ f ∈ fields, f.key = m.field.key ∧ f.optional = true := by
  constructor
  · intro ho
    by_contra hnone
    have hrequired : m.field.key = m.field.key → m.field.optional = false := by
      refine forall_mem_mergeAll (F := fun f => f.key = m.field.key → f.optional = false)
        (fun f g hkey hf hg hk => ?_) (fun f hf hk => ?_) m h
      · simp only [uniteFields, Bool.or_eq_false_iff]
        exact ⟨hf hk, hg (hkey ▸ hk)⟩
      · by_contra hopt
        exact hnone ⟨f, hf, hk, by simpa using hopt⟩
    simp [hrequired rfl] at ho
  · rintro ⟨f, hf, hk, ho⟩
    by_contra hrequired
    have hfalse := optional_mergeAll h (by simpa using hrequired) hf hk
    simp [ho] at hfalse

/-- A merged value is null or undefined when it is that of a single field, for what is
united of several is not. -/
theorem isNullish_mergeAll_iff (hU : ∀ vs, (unite vs).isNullish = false)
    (h : m ∈ mergeAll unite fields) : m.field.value.isNullish = true ↔
      m.count = 1 ∧ ∃ f ∈ fields, f.key = m.field.key ∧ f.value.isNullish = true := by
  induction fields using List.reverseRecOn generalizing m with
  | nil => simp at h
  | append_singleton fields field ih =>
    rw [mergeAll_concat] at h
    rcases mem_absorb_of_nodup (nodup_keys_mergeAll fields) h with ⟨h, hne⟩ | ⟨hnew, rfl⟩ |
      ⟨e, he, hek, rfl⟩
    · rw [ih h]
      refine and_congr_right fun _ => exists_congr fun f => ?_
      rw [List.mem_append, List.mem_singleton]
      refine ⟨fun ⟨hf, hk⟩ => ⟨Or.inl hf, hk⟩, fun ⟨hf, hk, hn⟩ => ⟨?_, hk, hn⟩⟩
      exact hf.resolve_right fun hlast => hne (hlast ▸ hk.symm)
    · simp only [true_and]
      refine ⟨fun hn => ⟨field, by simp, rfl, hn⟩, fun ⟨f, hf, hk, hn⟩ => ?_⟩
      rcases List.mem_append.1 hf with hf | hf
      · rw [mem_keys_mergeAll] at hnew
        exact absurd (hk ▸ List.mem_map_of_mem hf) hnew
      · exact List.mem_singleton.1 hf ▸ hn
    · -- the count was at least one before, so it is not one now
      have hpositive : 0 < e.count := by
        rw [count_mergeAll he, List.count_pos_iff]
        exact mem_keys_mergeAll.1 (List.mem_map_of_mem he)
      simp only [uniteFields_value, hU, Bool.false_eq_true, false_iff, not_and]
      omega

end MergeAll

section Objects

variable {objects : List (List (Field Shape))} {k : Key}

/-- Among objects with unique keys, those that have a key are as many as the fields of it. -/
theorem count_keys_flatten (unique : ∀ fields ∈ objects, (Field.keys fields).Nodup) (k : Key) :
    (Field.keys objects.flatten).count k = carriers k objects := by
  induction objects with
  | nil => rfl
  | cons fields rest ih =>
    have hrest := ih fun fs hfs => unique fs (List.mem_cons_of_mem _ hfs)
    have hfirst := unique fields List.mem_cons_self
    rw [count_keys_flatten_cons, hrest, carriers, carriers, List.countP_cons, Nat.add_comm]
    by_cases hk : k ∈ Field.keys fields
    · simp [hk, List.count_eq_one_of_mem hfirst hk]
    · simp [hk, List.count_eq_zero_of_not_mem hk]

/-- Fewer objects have a key than there are when one of them lacks it. -/
theorem carriers_lt_length_iff : carriers k objects < objects.length ↔ IsAbsentIn k objects := by
  rw [carriers, List.countP_lt_length_iff]
  simp [IsAbsentIn]

variable {c : Connective} {unite : List Shape → Shape}

/-- Opening lets a field be absent whose value is nullish. -/
theorem optional_openNullish (field : Field Shape) :
    (openNullish field).optional = (field.optional || field.value.isNullish) := by
  obtain ⟨key, value, optional, doc, default, readonly⟩ := field
  cases value with
  | literal l => cases h : l.isNullish <;> simp [openNullish, isNullish, h]
  | _ => simp [openNullish, isNullish]

/-- When a field of a merged object may be absent. -/
theorem optional_toField_iff {sources : Nat} {m : Merged} :
    (m.toField c sources).optional = true ↔ m.field.optional = true ∨
      (c = .or ∧ m.count < sources) ∨ m.field.value.isNullish = true := by
  unfold Merged.toField
  rw [optional_openNullish, Bool.or_eq_true]
  by_cases hc : c = .or ∧ m.count < sources
  · simp [hc]
  · simp [hc]

/-- When a field that is merged of objects with unique keys may be absent. -/
theorem optional_wideFields_iff (hU : ∀ vs, (unite vs).isNullish = false)
    (unique : ∀ fields ∈ objects, (Field.keys fields).Nodup) {f : Field Shape}
    (h : f ∈ wideFields c unite objects) : f.optional = true ↔
      IsOptionalIn f.key objects ∨ (c = .or ∧ IsAbsentIn f.key objects) ∨
        (IsNullishIn f.key objects ∧ carriers f.key objects = 1) := by
  obtain ⟨m, hm, rfl⟩ := List.mem_map.1 h
  have hflat : ∀ P : Field Shape → Prop,
      (∃ g ∈ objects.flatten, g.key = m.field.key ∧ P g) ↔
        ∃ fields ∈ objects, ∃ g ∈ fields, g.key = m.field.key ∧ P g := by
    intro P
    simp only [List.mem_flatten]
    exact ⟨fun ⟨g, ⟨fields, hfields, hg⟩, hP⟩ => ⟨fields, hfields, g, hg, hP⟩,
      fun ⟨fields, hfields, g, hg, hP⟩ => ⟨g, ⟨fields, hfields, hg⟩, hP⟩⟩
  rw [Merged.toField_key, optional_toField_iff, optional_mergeAll_iff hm,
    isNullish_mergeAll_iff hU hm, count_mergeAll hm, count_keys_flatten unique,
    carriers_lt_length_iff, hflat, hflat, IsOptionalIn, IsNullishIn]
  exact or_congr_right (or_congr_right and_comm)

/-- The fields of objects that are merged without making a dictionary of them. -/
theorem keys_wideFields_eq :
    Field.keys (wideFields c unite objects) = (objects.flatMap Field.keys).eraseDups := by
  rw [keys_wideFields, keys_mergeAll, Field.keys, List.map_flatten]
  rfl

section Width

variable {threshold : Nat}

theorem length_wideFields :
    (wideFields c unite objects).length = (objects.flatMap Field.keys).eraseDups.length := by
  have hkeys : Field.keys (wideFields c unite objects) = (objects.flatMap Field.keys).eraseDups :=
    keys_wideFields_eq
  rw [← hkeys, Field.keys, List.length_map]

/-- Few keys stay as they are. -/
theorem mergedFields_of_narrow (h : (objects.flatMap Field.keys).eraseDups.length ≤ threshold) :
    mergedFields c unite threshold objects = wideFields c unite objects := by
  rw [mergedFields_eq, if_neg (by rw [length_wideFields]; omega)]

/-- Of many keys a dictionary is made. -/
theorem mergedFields_of_wide (h : threshold < (objects.flatMap Field.keys).eraseDups.length) :
    mergedFields c unite threshold objects =
      [dictionaryField unite (wideFields c unite objects)] := by
  rw [mergedFields_eq, if_pos (by rw [length_wideFields]; omega)]

end Width

end Objects

section Reduce

variable {c : Connective} {unite : List Shape → Shape} {threshold : Nat} {members : List Shape}

/-- The members of a joined shape are reduced and then joined. -/
theorem reduce_joined (reduction : Reduction) (c : Connective) (members : List Shape) :
    (Shape.joined c members).reduce reduction =
      ofMembers c (joinedMembers c (united reduction.dictionaryThreshold)
        reduction.dictionaryThreshold (members.map (reduce reduction))) := by
  rw [reduce_eq, widen, widenAll_eq_map, settle_joined, List.map_map, join_eq]
  rfl

/-- Without anything to splice in, members are consolidated once. -/
theorem joinedMembers_of_flat (h : ∀ m ∈ members, m.isJoinedBy c = false) :
    joinedMembers c unite threshold members = consolidate c unite threshold members := by
  have honce : (consolidate c unite threshold members).any (isJoinedBy c) = false := by
    rw [List.any_eq_false]
    intro m hm
    rcases mem_consolidate.1 hm with ⟨hm, -⟩ | ⟨-, rfl⟩
    · simp [h m (mem_of_mem_distinct hm)]
    · simp [isJoinedBy]
  rw [joinedMembers]
  simp only [honce, Bool.false_eq_true, if_false]

/-- The parts of a shape have unique keys when its objects do. -/
theorem everywhere_hasUniqueKeys {s : Shape}
    (h : ∀ fields, Occurs (.object fields) s → (Field.keys fields).Nodup) :
    Everywhere HasUniqueKeys s := by
  intro t ht
  cases t with
  | object fields => exact h fields ht
  | _ => trivial

/-- Of the objects among members that are joined, with none of the members nested, one is
merged. When their keys are not too many, it has these, in the order in which they come
first, and a field may be absent exactly when it may be in one of the objects, when the
members are united and one of the objects lacks it, or when its value is null or undefined
in an object and no other object has it. With more keys the merged object is an index
signature. -/
theorem reduce_merges (reduction : Reduction) (c : Connective) (members : List Shape)
    (unique : ∀ m ∈ members, ∀ fields, Occurs (.object fields) m → (Field.keys fields).Nodup)
    (flat : ∀ m ∈ members, (m.reduce reduction).isJoinedBy c = false) :
    let kept := distinct (members.map (reduce reduction))
    let objects := kept.filterMap fields?
    let keys := (objects.flatMap Field.keys).eraseDups
    ∃ merged, (Shape.joined c members).reduce reduction =
        ofMembers c (kept.filter (!·.isObject) ++ asMembers merged) ∧
      (keys.length ≤ reduction.dictionaryThreshold → Field.keys merged = keys ∧
        ∀ f ∈ merged, f.optional = true ↔
          IsOptionalIn f.key objects ∨ (c = .or ∧ IsAbsentIn f.key objects) ∨
            (IsNullishIn f.key objects ∧ carriers f.key objects = 1)) ∧
      (reduction.dictionaryThreshold < keys.length → ∃ f, merged = [f] ∧ f.key = .wildcard) := by
  intro kept objects keys
  have hobjects : ∀ fields ∈ objects, (Field.keys fields).Nodup := by
    intro fields hf
    have hkept : Shape.object fields ∈ kept := mem_filterMap_fields?.1 hf
    obtain ⟨m, hm, he⟩ := List.mem_map.1 (mem_of_mem_distinct hkept)
    have hm' : Everywhere HasUniqueKeys m := everywhere_hasUniqueKeys (unique m hm)
    exact (he ▸ everywhere_hasUniqueKeys_reduce reduction hm').here
  have hflat : ∀ m ∈ members.map (reduce reduction), m.isJoinedBy c = false := by simpa using flat
  refine ⟨mergedFields c (united reduction.dictionaryThreshold) reduction.dictionaryThreshold
    objects, ?_, fun hfew => ?_, fun hmany => ?_⟩
  · rw [reduce_joined, joinedMembers_of_flat hflat, consolidate, mergeObjects_eq]
  · rw [mergedFields_of_narrow hfew]
    exact ⟨keys_wideFields_eq, fun f hf => optional_wideFields_iff isNullish_united hobjects hf⟩
  · exact ⟨_, mergedFields_of_wide hmany, rfl⟩

/-- A text and two objects that have one key in common: the common one has to be present,
and the others need not be. -/
theorem reduce_merges_pets :
    let pet := [Field.named "id" Shape.number, Field.named "owner" Shape.null]
    let tag := [Field.named "id" Shape.number, Field.named "tag" Shape.boolean]
    let members : List Shape := [.object pet, .string, .object tag]
    (∀ m ∈ members, ∀ fields, Occurs (.object fields) m → (Field.keys fields).Nodup) ∧
      (∀ m ∈ members, (m.reduce {}).isJoinedBy .or = false) ∧
      ∃ merged, (Shape.joined .or members).reduce {} = .joined .or [.string, .object merged] ∧
        Field.keys merged = [.named "id", .named "owner", .named "tag"] ∧
        ∀ f ∈ merged, f.optional = true ↔
          IsOptionalIn f.key [pet, tag] ∨ (Connective.or = .or ∧ IsAbsentIn f.key [pet, tag]) ∨
            (IsNullishIn f.key [pet, tag] ∧ carriers f.key [pet, tag] = 1) := by
  intro pet tag members
  have unique : ∀ m ∈ members, ∀ fields, Occurs (.object fields) m →
      (Field.keys fields).Nodup := by
    intro m hm fields ho
    have hs : Everywhere HasUniqueKeys (.joined .or members) := by
      simp [members, pet, tag, HasUniqueKeys, Field.keys, Field.named, string, number, boolean,
        null]
    exact hs _ (.member hm ho)
  have hkept : members.map (reduce {}) = members := by cbv
  have flat : ∀ m ∈ members, (m.reduce {}).isJoinedBy .or = false := by
    have hmap : ∀ m ∈ members.map (reduce {}), m.isJoinedBy .or = false := by
      rw [hkept]
      simp [members, isJoinedBy, string]
    simpa using hmap
  obtain ⟨merged, hreduce, hfew, -⟩ := reduce_merges {} .or members unique flat
  rw [hkept] at hreduce hfew
  have hobjects : (distinct members).filterMap fields? = [pet, tag] := by cbv
  have hothers : (distinct members).filter (!·.isObject) = [.string] := by cbv
  rw [hobjects] at hfew
  rw [hothers] at hreduce
  obtain ⟨hkeys, hoptional⟩ := hfew (by cbv)
  have hlisted : Field.keys merged = [.named "id", .named "owner", .named "tag"] := hkeys
  refine ⟨unique, flat, merged, ?_, hlisted, hoptional⟩
  rw [hreduce]
  cases merged with
  | nil => cases hlisted
  | cons f rest => rfl

/-- Of an object whose only field is null the field may be absent, and of two such objects
it has to be present, although it is null in both. -/
theorem reduce_forgets_null :
    let owner := [Field.named "owner" Shape.null]
    (Shape.joined .or [.object owner]).reduce {} =
        .object [{ Field.named "owner" .any with optional := true }] ∧
      IsNullishIn (.named "owner") [owner, owner] ∧
      (distinct ([Shape.object owner, .object owner].map (reduce {}))).filterMap fields? =
        [owner, owner] ∧
      (Shape.joined .or [.object owner, .object owner]).reduce {} =
        .object [Field.named "owner" .any] ∧
      (Field.named "owner" Shape.any).optional = false := by
  intro owner
  refine ⟨by cbv, ⟨owner, by simp, Field.named "owner" .null, ?_⟩, by cbv, by cbv, rfl⟩
  exact ⟨List.mem_singleton_self _, rfl, rfl⟩

end Reduce

end TypedClient.Shape
