import Mathlib.Data.Finset.Card
import TypedClient.Proofs.Reduction.Optionality
import TypedClient.Proofs.Reduction.Splicing

/-!
# Merging in groups

Objects may be merged in groups, and what these are merged into once more with others. This
leaves the same keys and lets the same fields be absent as merging all at once, unless a
group comes to be something else on the way: too many keys become an index signature, in a
union objects without a field are left out, and a value that is null or undefined counts
only while no other object has its key.
-/

namespace TypedClient.Shape

/-! ### Keys -/

/-- The different keys of objects. -/
def keySet (objects : List (List (Field Shape))) : Finset Key :=
  (objects.flatMap Field.keys).toFinset

/-- The keys that are left of keys: a wildcard when there are too many. -/
def collapse (threshold : Nat) (keys : Finset Key) : Finset Key :=
  if threshold < keys.card then {.wildcard} else keys

/-- Keys may be merged before more keys join them: they are few, or those that join the index
signature that is left of them are none but that, or too many once more. -/
def MayComeFirst (threshold : Nat) (keys more : Finset Key) : Prop :=
  keys.card ≤ threshold ∨ more ⊆ {.wildcard} ∨ threshold < ({.wildcard} ∪ more).card

section Keys

variable {c : Connective} {unite : List Shape → Shape} {threshold : Nat}
  {objects objects' : List (List (Field Shape))} {keys more : Finset Key} {k : Key}

theorem mem_keySet : k ∈ keySet objects ↔ ∃ fields ∈ objects, k ∈ Field.keys fields := by
  simp [keySet]

@[simp] theorem keySet_nil : keySet [] = ∅ := rfl

@[simp] theorem keySet_append :
    keySet (objects ++ objects') = keySet objects ∪ keySet objects' := by
  simp [keySet]

theorem keySet_of_perm (h : objects.Perm objects') : keySet objects = keySet objects' := by
  ext k
  simp only [mem_keySet, h.mem_iff]

/-- Few keys are left as they are. -/
theorem collapse_of_le (h : keys.card ≤ threshold) : collapse threshold keys = keys :=
  if_neg (by omega)

/-- Few keys are left of any, unless even one is too many. -/
theorem card_collapse_le (h : 1 ≤ threshold) : (collapse threshold keys).card ≤ threshold := by
  unfold collapse
  split
  · simpa using h
  · omega

/-- Of keys that are left of others, with more, the same are left as of all of them, exactly if
the others may come first. -/
theorem collapse_collapse_union_iff :
    collapse threshold (collapse threshold keys ∪ more) = collapse threshold (keys ∪ more) ↔
      MayComeFirst threshold keys more := by
  by_cases hfew : keys.card ≤ threshold
  · rw [collapse_of_le hfew]
    exact iff_of_true rfl (Or.inl hfew)
  · have hmany : threshold < (keys ∪ more).card :=
      (Nat.lt_of_not_le hfew).trans_le (Finset.card_le_card Finset.subset_union_left)
    have hkeys : collapse threshold keys = {.wildcard} := if_pos (Nat.lt_of_not_le hfew)
    have hall : collapse threshold (keys ∪ more) = {.wildcard} := if_pos hmany
    rw [hkeys, hall, MayComeFirst, or_iff_right hfew, collapse]
    split
    · rename_i hlt
      exact iff_of_true rfl (Or.inr hlt)
    · rename_i hle
      rw [or_iff_left hle, Finset.union_eq_left]

/-- A threshold below two leaves an index signature of any two keys. -/
theorem mayComeFirst_of_lt_two (h : threshold < 2) : MayComeFirst threshold keys more := by
  by_cases hlt : threshold < ({.wildcard} ∪ more : Finset Key).card
  · exact Or.inr (Or.inr hlt)
  · have hone : ({.wildcard} ∪ more : Finset Key).card ≤ 1 := by omega
    have hsame : {.wildcard} = ({.wildcard} ∪ more : Finset Key) :=
      Finset.eq_of_subset_of_card_le Finset.subset_union_left (by rwa [Finset.card_singleton])
    exact Or.inr (Or.inl (Finset.union_eq_left.1 hsame.symm))

/-- As many fields are merged as there are different keys. -/
theorem length_wideFields_eq_card :
    (wideFields c unite objects).length = (keySet objects).card := by
  have hnodup : (Field.keys (wideFields c unite objects)).Nodup := by
    rw [keys_wideFields]
    exact nodup_keys_mergeAll _
  have hkeys : (Field.keys (wideFields c unite objects)).toFinset = keySet objects := by
    ext k
    rw [List.mem_toFinset, mem_keys_wideFields, mem_keySet]
  rw [← hkeys, List.toFinset_card_of_nodup hnodup, Field.keys, List.length_map]

/-- The keys of merged objects. -/
theorem keySet_merge : keySet (merge c unite threshold objects) =
    collapse threshold (keySet objects) := by
  have hfields : keySet (merge c unite threshold objects) =
      (Field.keys (mergedFields c unite threshold objects)).toFinset := by
    ext k
    rw [mem_keySet, List.mem_toFinset]
    refine ⟨fun ⟨fields, hf, hk⟩ => (mem_merge.1 hf).2 ▸ hk,
      fun hk => ⟨_, mem_merge.2 ⟨?_, rfl⟩, hk⟩⟩
    rintro hnil
    simp [hnil, Field.keys] at hk
  rw [hfields, mergedFields_eq, length_wideFields_eq_card, collapse]
  split
  · rfl
  · ext k
    rw [List.mem_toFinset, mem_keys_wideFields, mem_keySet]

/-- Merging what objects are merged into leaves its keys, unless even one is too many. -/
theorem keySet_merge_merge (h : 1 ≤ threshold) :
    keySet (merge c unite threshold (merge c unite threshold objects)) =
      keySet (merge c unite threshold objects) := by
  rw [keySet_merge, keySet_merge, collapse_of_le (card_collapse_le h)]

/-- The keys of what objects are merged into, if anything is left. -/
theorem map_keys_merge :
    (merge c unite threshold objects).map (fun fields => (Field.keys fields).toFinset) =
    if keySet (merge c unite threshold objects) = ∅ then []
    else [keySet (merge c unite threshold objects)] := by
  by_cases hne : mergedFields c unite threshold objects = []
  · simp [merge, hne, asMembers]
  · rw [merge_of_ne_nil hne, if_neg]
    · simp [keySet]
    · simpa [keySet, Field.keys] using hne

end Keys

/-! ### Fields that may be absent -/

/-- There is a reason in some objects that the field of a key may be absent in what they are
merged into. -/
def IsLax (c : Connective) (k : Key) (objects : List (List (Field Shape))) : Prop :=
  IsOptionalIn k objects ∨ (c = .or ∧ IsAbsentIn k objects) ∨ IsNullishIn k objects

/-- The field of a key may be absent in what objects are merged into: that is no dictionary, and
there is a reason in them. -/
def MayBeAbsent (c : Connective) (threshold : Nat) (k : Key)
    (objects : List (List (Field Shape))) : Prop :=
  (keySet objects).card ≤ threshold ∧ IsLax c k objects

/-- When the value of a key is null or undefined in one of some objects, no other has it. -/
def IsUnshared (k : Key) (objects : List (List (Field Shape))) : Prop :=
  IsNullishIn k objects → carriers k objects = 1

/-- Merging objects keeps their keys, and it leaves something of them when they are united. -/
structure KeepsKeys (c : Connective) (threshold : Nat) (objects : List (List (Field Shape))) :
    Prop where
  /-- They have few keys. -/
  few : (keySet objects).card ≤ threshold
  /-- United objects have a key, if there are any. -/
  some : c = .or → keySet objects = ∅ → objects = []

/-- Some objects can be in the place of others: they let a field be absent alike, and the
key is in no more of them. -/
structure Replaces (c : Connective) (k : Key) (objects' objects : List (List (Field Shape))) :
    Prop where
  /-- Both let the field be absent or neither does. -/
  lax : IsLax c k objects' ↔ IsLax c k objects
  /-- No value becomes null or undefined. -/
  nullish : IsNullishIn k objects' → IsNullishIn k objects
  /-- No more objects have the key. -/
  carriers : carriers k objects' ≤ carriers k objects

section Lax

variable {c : Connective} {unite : List Shape → Shape} {threshold : Nat} {k : Key}
  {objects objects' objects'' more : List (List (Field Shape))}

@[simp] theorem isOptionalIn_append :
    IsOptionalIn k (objects ++ more) ↔ IsOptionalIn k objects ∨ IsOptionalIn k more := by
  simp [IsOptionalIn, or_and_right, exists_or]

@[simp] theorem isAbsentIn_append :
    IsAbsentIn k (objects ++ more) ↔ IsAbsentIn k objects ∨ IsAbsentIn k more := by
  simp [IsAbsentIn, or_and_right, exists_or]

@[simp] theorem isNullishIn_append :
    IsNullishIn k (objects ++ more) ↔ IsNullishIn k objects ∨ IsNullishIn k more := by
  simp [IsNullishIn, or_and_right, exists_or]

theorem isLax_append : IsLax c k (objects ++ more) ↔ IsLax c k objects ∨ IsLax c k more := by
  simp only [IsLax, isOptionalIn_append, isAbsentIn_append, isNullishIn_append]
  tauto

@[simp] theorem carriers_append :
    carriers k (objects ++ more) = carriers k objects + carriers k more :=
  List.countP_append

/-- An object that has a key counts. -/
theorem carriers_pos_iff : 0 < carriers k objects ↔ k ∈ keySet objects := by
  rw [carriers, List.countP_pos_iff, mem_keySet]
  simp

/-- A key under which something stands is one of the keys. -/
theorem IsNullishIn.mem_keySet (h : IsNullishIn k objects) : k ∈ keySet objects := by
  obtain ⟨fields, hfields, f, hf, rfl, -⟩ := h
  exact Shape.mem_keySet.2 ⟨fields, hfields, List.mem_map_of_mem hf⟩

theorem IsOptionalIn.mem_keySet (h : IsOptionalIn k objects) : k ∈ keySet objects := by
  obtain ⟨fields, hfields, f, hf, rfl, -⟩ := h
  exact Shape.mem_keySet.2 ⟨fields, hfields, List.mem_map_of_mem hf⟩

/-- Without the key, objects let the field be absent only in a union, each of them. -/
theorem isLax_iff_of_not_mem (h : k ∉ keySet objects) :
    IsLax c k objects ↔ c = .or ∧ objects ≠ [] := by
  have habsent : IsAbsentIn k objects ↔ objects ≠ [] := by
    refine ⟨fun ⟨fields, hfields, _⟩ => List.ne_nil_of_mem hfields, fun hne => ?_⟩
    obtain ⟨fields, hfields⟩ := List.exists_mem_of_ne_nil objects hne
    exact ⟨fields, hfields, fun hk => h (mem_keySet.2 ⟨fields, hfields, hk⟩)⟩
  have hoptional : ¬ IsOptionalIn k objects := fun ho => h ho.mem_keySet
  have hnullish : ¬ IsNullishIn k objects := fun hn => h hn.mem_keySet
  simp [IsLax, habsent, hoptional, hnullish]

/-- Of objects with unique keys that leave a key unshared, when the merged field may be
absent. A dictionary is there always. -/
theorem optional_mergedFields_iff (hU : ∀ vs, (unite vs).isNullish = false)
    (unique : ∀ fields ∈ objects, (Field.keys fields).Nodup) {f : Field Shape}
    (h : f ∈ mergedFields c unite threshold objects) (unshared : IsUnshared f.key objects) :
    f.optional = true ↔ MayBeAbsent c threshold f.key objects := by
  rw [mergedFields_eq, length_wideFields_eq_card] at h
  rw [MayBeAbsent]
  split at h
  · rw [List.mem_singleton.1 h]
    simp only [dictionaryField, Bool.false_eq_true, false_iff, not_and]
    omega
  · rename_i hfew
    rw [optional_wideFields_iff hU unique h]
    have hnullish : IsNullishIn f.key objects ∧ carriers f.key objects = 1 ↔
        IsNullishIn f.key objects := and_iff_left_of_imp unshared
    rw [hnullish, and_iff_right (Nat.le_of_not_lt hfew)]
    rfl

theorem Replaces.trans (h : Replaces c k objects'' objects') (h' : Replaces c k objects' objects) :
    Replaces c k objects'' objects :=
  ⟨h.lax.trans h'.lax, fun hn => h'.nullish (h.nullish hn), h.carriers.trans h'.carriers⟩

/-- The order of objects does not matter. -/
theorem Replaces.of_perm (h : objects'.Perm objects) : Replaces c k objects' objects := by
  refine ⟨?_, ?_, Nat.le_of_eq (h.countP_eq _)⟩
  · simp only [IsLax, IsOptionalIn, IsAbsentIn, IsNullishIn, h.mem_iff]
  · simp only [IsNullishIn, h.mem_iff]
    exact id

/-- What can be in the place of some objects can be there among others. -/
theorem Replaces.append (h : Replaces c k objects' objects)
    (more : List (List (Field Shape))) : Replaces c k (objects' ++ more) (objects ++ more) := by
  refine ⟨?_, ?_, ?_⟩
  · rw [isLax_append, isLax_append, h.lax]
  · rw [isNullishIn_append, isNullishIn_append]
    exact Or.imp_left h.nullish
  · rw [carriers_append, carriers_append]
    exact Nat.add_le_add_right h.carriers _

/-- What is in the place of objects leaves a key unshared that they do. -/
theorem IsUnshared.of_replaces (h : IsUnshared k objects) (hs : Replaces c k objects' objects) :
    IsUnshared k objects' := by
  intro hn
  have hpos : 0 < carriers k objects' := carriers_pos_iff.2 hn.mem_keySet
  have hle := hs.carriers
  rw [h (hs.nullish hn)] at hle
  omega

/-- Some of the objects leave a key unshared that all do. -/
theorem IsUnshared.of_append (h : IsUnshared k (objects ++ more)) : IsUnshared k objects := by
  intro hn
  have hpos : 0 < carriers k objects := carriers_pos_iff.2 hn.mem_keySet
  have hall := h (isNullishIn_append.2 (Or.inl hn))
  rw [carriers_append] at hall
  omega

/-- A key of merged objects is that of a field of the one that is left. -/
theorem exists_of_mem_keySet_merge (h : k ∈ keySet (merge c unite threshold objects)) :
    ∃ f ∈ mergedFields c unite threshold objects, f.key = k ∧
      merge c unite threshold objects = [mergedFields c unite threshold objects] := by
  obtain ⟨fields, hfields, hk⟩ := mem_keySet.1 h
  obtain ⟨hne, rfl⟩ := mem_merge.1 hfields
  obtain ⟨f, hf, rfl⟩ := List.mem_map.1 hk
  exact ⟨f, hf, rfl, merge_of_ne_nil hne⟩

/-- An object by itself lets a field be absent that may be. -/
theorem isLax_singleton {fields : List (Field Shape)} (unique : (Field.keys fields).Nodup)
    (hnullish : ∀ g ∈ fields, g.value.isNullish = false) {f : Field Shape} (hf : f ∈ fields) :
    IsLax c f.key [fields] ↔ f.optional = true := by
  have hkey : f.key ∈ Field.keys fields := List.mem_map_of_mem hf
  constructor
  · rintro (⟨_, hfields, g, hg, hk, ho⟩ | ⟨-, _, hfields, habsent⟩ | ⟨_, hfields, g, hg, -, hn⟩)
    · rw [List.mem_singleton.1 hfields] at hg
      exact List.inj_on_of_nodup_map unique hg hf hk ▸ ho
    · exact absurd (List.mem_singleton.1 hfields ▸ hkey) habsent
    · rw [List.mem_singleton.1 hfields] at hg
      simp [hnullish g hg] at hn
  · exact fun ho => Or.inl ⟨fields, List.mem_singleton_self _, f, hf, rfl, ho⟩

/-- Nothing that objects are merged into is null or undefined. -/
theorem not_isNullishIn_merge (hU : ∀ vs, (unite vs).isNullish = false) :
    ¬ IsNullishIn k (merge c unite threshold objects) := by
  rintro ⟨fields, hfields, f, hf, -, hn⟩
  rw [(mem_merge.1 hfields).2] at hf
  simp [isNullish_mergedFields hU hf] at hn

/-- What objects are merged into can be in their place. -/
theorem replaces_merge (hU : ∀ vs, (unite vs).isNullish = false)
    (unique : ∀ fields ∈ objects, (Field.keys fields).Nodup)
    (keeps : KeepsKeys c threshold objects) (unshared : IsUnshared k objects) :
    Replaces c k (merge c unite threshold objects) objects := by
  have hkeys : keySet (merge c unite threshold objects) = keySet objects := by
    rw [keySet_merge, collapse_of_le keeps.few]
  have hnullish : ¬ IsNullishIn k (merge c unite threshold objects) := not_isNullishIn_merge hU
  by_cases hk : k ∈ keySet objects
  · obtain ⟨f, hf, rfl, hmerge⟩ := exists_of_mem_keySet_merge (hkeys ▸ hk)
    refine ⟨?_, fun hn => absurd hn hnullish, ?_⟩
    · rw [hmerge, isLax_singleton nodup_keys_mergedFields
        (fun g hg => isNullish_mergedFields hU hg) hf,
        optional_mergedFields_iff hU unique hf unshared]
      exact and_iff_right keeps.few
    · have hone : carriers f.key [mergedFields c unite threshold objects] ≤ 1 :=
        List.countP_le_length
      rw [hmerge]
      exact hone.trans (carriers_pos_iff.2 hk)
  · have hk' : k ∉ keySet (merge c unite threshold objects) := hkeys ▸ hk
    have hnone : carriers k (merge c unite threshold objects) = 0 :=
      Nat.eq_zero_of_not_pos (mt carriers_pos_iff.1 hk')
    refine ⟨?_, fun hn => absurd hn hnullish, by omega⟩
    rw [isLax_iff_of_not_mem hk, isLax_iff_of_not_mem hk']
    refine and_congr_right fun hor => not_congr ⟨fun hnil => ?_, fun hnil => ?_⟩
    · refine keeps.some hor ?_
      rw [← hkeys, hnil, keySet_nil]
    · rw [hnil, merge_nil]

/-- The order of objects does not matter. -/
theorem mayBeAbsent_of_perm (h : objects'.Perm objects) :
    MayBeAbsent c threshold k objects' ↔ MayBeAbsent c threshold k objects := by
  rw [MayBeAbsent, MayBeAbsent, keySet_of_perm h, (Replaces.of_perm h).lax]

/-- Objects that keep their keys, or that no others join, leave a key unshared when they are
merged first. -/
theorem IsUnshared.merge_append (hU : ∀ vs, (unite vs).isNullish = false)
    (unique : ∀ fields ∈ objects, (Field.keys fields).Nodup)
    (h : KeepsKeys c threshold objects ∨ more = []) (unshared : IsUnshared k (objects ++ more)) :
    IsUnshared k (merge c unite threshold objects ++ more) := by
  rcases h with keeps | rfl
  · exact unshared.of_replaces ((replaces_merge hU unique keeps unshared.of_append).append more)
  · intro hn
    rw [List.append_nil] at hn
    exact absurd hn (not_isNullishIn_merge hU)

/-- What objects are merged into lets a field of it be absent that may be. -/
theorem mayBeAbsent_merge (hU : ∀ vs, (unite vs).isNullish = false)
    (unique : ∀ fields ∈ objects, (Field.keys fields).Nodup) (unshared : IsUnshared k objects)
    (hk : k ∈ keySet (merge c unite threshold objects)) :
    MayBeAbsent c threshold k (merge c unite threshold objects) ↔
      MayBeAbsent c threshold k objects := by
  rw [MayBeAbsent, keySet_merge]
  obtain ⟨f, hf, rfl, hmerge⟩ := exists_of_mem_keySet_merge hk
  rw [hmerge, isLax_singleton nodup_keys_mergedFields (fun g hg => isNullish_mergedFields hU hg)
    hf, optional_mergedFields_iff hU unique hf unshared]
  refine and_iff_right_of_imp fun habsent => ?_
  rw [collapse_of_le habsent.1]
  exact habsent.1

/-- Objects that keep their keys, or that no others join, let a field be absent alike when they
are merged first. -/
theorem mayBeAbsent_merge_append (hU : ∀ vs, (unite vs).isNullish = false)
    (unique : ∀ fields ∈ objects, (Field.keys fields).Nodup)
    (h : KeepsKeys c threshold objects ∨
      more = [] ∧ k ∈ keySet (merge c unite threshold objects))
    (unshared : IsUnshared k (objects ++ more)) :
    MayBeAbsent c threshold k (merge c unite threshold objects ++ more) ↔
      MayBeAbsent c threshold k (objects ++ more) := by
  rcases h with keeps | ⟨rfl, hk⟩
  · have hreplaces := (replaces_merge hU unique keeps unshared.of_append).append more
    rw [MayBeAbsent, MayBeAbsent, hreplaces.lax, keySet_append, keySet_append, keySet_merge,
      collapse_of_le keeps.few]
  · rw [List.append_nil] at unshared ⊢
    rw [List.append_nil, mayBeAbsent_merge hU unique unshared hk]

end Lax

end TypedClient.Shape
