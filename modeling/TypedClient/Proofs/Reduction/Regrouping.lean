import TypedClient.Proofs.Reduction.Groups

/-!
# Grouping members

A nested union or intersection is reduced before its members are spliced in, so its objects
are merged once more often than when its members stand in its place. They are a group that
is merged apart, and so are the objects beside a nested member. The members that are no
objects do not depend on the grouping.
-/

namespace TypedClient.Shape

/-- The members that a reduced shape has for a connective: none when it is anything, those
that it is joined of, and itself when it is joined otherwise or not at all. -/
def operands (c : Connective) : Shape → List Shape
  | .any => []
  | .joined d members => if d = c then members else [.joined d members]
  | s => [s]

/-- All objects that are merged when members are joined, those inside of nested ones too. -/
def allObjects (c : Connective) (members : List Shape) : List (List (Field Shape)) :=
  (flatten c members).filterMap fields?

/-- The objects that are merged last when members are joined: all, with those in the place
of others that these were merged into. -/
def lastObjects (c : Connective) (unite : List Shape → Shape) (threshold : Nat)
    (members : List Shape) : List (List (Field Shape)) :=
  merge c unite threshold (earlyObjects c members) ++ lateObjects c members

section Members

variable {c : Connective} {unite : List Shape → Shape} {threshold : Nat}
  {members before middle after : List Shape} {objects : List (List (Field Shape))} {k : Key}

/-- Members that say something and are not nested are those of what they make. -/
theorem operands_ofMembers (h : ∀ m ∈ members, m.isVacuous = false ∧ m.isJoinedBy c = false) :
    operands c (ofMembers c members) = members := by
  rcases ofMembers_cases (c := c) members with ⟨rfl, he⟩ | ⟨m, rfl, he⟩ | ⟨-, he⟩
  · rw [he]
    rfl
  · obtain ⟨hv, hn⟩ := h m (List.mem_singleton_self m)
    rw [he]
    cases m with
    | any => cases hv
    | joined d inner =>
      have hne : d ≠ c := by simpa [isJoinedBy] using hn
      rw [operands, if_neg hne]
    | _ => rfl
  · rw [he, operands, if_pos rfl]

/-- The members that are joined are those of the joined shape. -/
theorem operands_reduce_joined (reduction : Reduction) (c : Connective) (members : List Shape) :
    operands c ((Shape.joined c members).reduce reduction) =
      joinedMembers c (united reduction.dictionaryThreshold) reduction.dictionaryThreshold
        (members.map (reduce reduction)) := by
  rw [reduce_joined]
  exact operands_ofMembers fun m hm =>
    ⟨areDistinct_joinedMembers.informative m hm, isJoinedBy_of_mem_joinedMembers hm⟩

/-- What is joined of members is spliced in as these, or as anything when there are none. -/
theorem flatten_ofMembers (h : ∀ m ∈ members, m.isJoinedBy c = false) :
    flatten c [ofMembers c members] = members ∨
      members = [] ∧ flatten c [ofMembers c members] = [.any] := by
  rcases ofMembers_cases (c := c) members with ⟨rfl, he⟩ | ⟨m, rfl, he⟩ | ⟨-, he⟩
  · exact Or.inr ⟨rfl, by rw [he]; exact flatten_eq_self (by simp [isJoinedBy])⟩
  · exact Or.inl (by rw [he]; exact flatten_eq_self h)
  · exact Or.inl (by rw [he]; exact flatten_singleton_joined h)

/-- Splicing a list in the middle of others, up to order. -/
theorem flatten_middle_perm (c : Connective) (before middle after : List Shape) :
    (flatten c (before ++ middle ++ after)).Perm
    (flatten c middle ++ (flatten c before ++ flatten c after)) := by
  have happend : ∀ list more : List Shape,
      (flatten c (list ++ more)).Perm (flatten c list ++ flatten c more) := by
    intro list more
    rw [flatten, flatten, flatten, innerMembers_eq_flatMap, innerMembers_eq_flatMap,
      innerMembers_eq_flatMap, List.filter_append, List.flatMap_append, List.append_assoc,
      List.append_assoc]
    exact (List.perm_append_comm_assoc _ _ _).append_left _
  calc flatten c (before ++ middle ++ after)
      _ |>.Perm (flatten c (before ++ middle) ++ flatten c after) := happend _ _
      _ |>.Perm (flatten c before ++ flatten c middle ++ flatten c after) :=
        (happend _ _).append_right _
      _ |>.Perm (flatten c middle ++ (flatten c before ++ flatten c after)) := by
        rw [List.append_assoc]
        exact List.perm_append_comm_assoc _ _ _

theorem allObjects_middle_perm (c : Connective) (before middle after : List Shape) :
    (allObjects c (before ++ middle ++ after)).Perm
      (allObjects c middle ++ (allObjects c before ++ allObjects c after)) := by
  have hflat := (flatten_middle_perm c before middle after).filterMap fields?
  rwa [List.filterMap_append, List.filterMap_append] at hflat

theorem allObjects_eq : allObjects c members = earlyObjects c members ++ lateObjects c members :=
  filterMap_fields?_flatten

/-- The objects of members that are joined are those that the last ones are merged into. -/
theorem objects_joinedMembers : (joinedMembers c unite threshold members).filterMap fields? =
    merge c unite threshold (lastObjects c unite threshold members) :=
  filterMap_fields?_joinedMembers

/-- The objects that are merged last leave the keys that all of them would, if those that are
merged before may come first. -/
theorem collapse_keySet_lastObjects (h : MayComeFirst threshold (keySet (earlyObjects c members))
    (keySet (lateObjects c members))) :
    collapse threshold (keySet (lastObjects c unite threshold members)) =
      collapse threshold (keySet (allObjects c members)) := by
  rw [lastObjects, allObjects_eq, keySet_append, keySet_append, keySet_merge,
    collapse_collapse_union_iff.2 h]

/-- The objects that are merged last have unique keys when all have. -/
theorem nodup_keys_lastObjects
    (unique : ∀ fields ∈ allObjects c members, (Field.keys fields).Nodup) :
    ∀ fields ∈ lastObjects c unite threshold members, (Field.keys fields).Nodup := by
  intro fields hf
  rcases List.mem_append.1 hf with hf | hf
  · exact (mem_merge.1 hf).2 ▸ nodup_keys_mergedFields
  · exact unique fields (allObjects_eq ▸ List.mem_append_right _ hf)

/-- The objects that are merged before the others have unique keys when all have. -/
theorem nodup_keys_earlyObjects
    (unique : ∀ fields ∈ allObjects c members, (Field.keys fields).Nodup) :
    ∀ fields ∈ earlyObjects c members, (Field.keys fields).Nodup :=
  fun fields hf => unique fields (allObjects_eq ▸ List.mem_append_left _ hf)

/-- The members that are no objects do not depend on the grouping, up to their order and to
which one is kept of those that say the same. -/
theorem rel_filter_isObject_regroup (precise : Bool)
    (nested : ∀ m ∈ flatten c (before ++ [join c unite threshold middle] ++ after),
      IsPlain precise m)
    (flat : ∀ m ∈ flatten c (before ++ middle ++ after), IsPlain precise m) :
    Multiset.Rel SaysSame
      ((joinedMembers c unite threshold (before ++ [join c unite threshold middle] ++
        after)).filter (!·.isObject))
      ((joinedMembers c unite threshold (before ++ middle ++ after)).filter (!·.isObject)) := by
  have hinner : ∀ m ∈ joinedMembers c unite threshold middle, m.isJoinedBy c = false :=
    fun m hm => isJoinedBy_of_mem_joinedMembers hm
  -- what the nested members leave is distinct already, and anything is left out
  have hdistinct : ∀ rest : List Shape,
      distinct ((flatten c [join c unite threshold middle] ++ rest).filter (!·.isObject)) =
        distinct ((flatten c middle ++ rest).filter (!·.isObject)) := by
    intro rest
    have hmiddle : (joinedMembers c unite threshold middle).filter (!·.isObject) =
        distinct ((flatten c middle).filter (!·.isObject)) := filter_isObject_joinedMembers
    rw [List.filter_append, List.filter_append,
      ← distinct_distinct_append ((flatten c middle).filter (!·.isObject)), ← hmiddle, join_eq]
    rcases flatten_ofMembers hinner with he | ⟨hnil, he⟩
    · rw [he]
    · rw [he, hnil]
      rfl
  rw [filter_isObject_joinedMembers, filter_isObject_joinedMembers]
  have hnested := rel_distinctFrom_of_perm
    ((flatten_middle_perm c before [join c unite threshold middle] after).filter (!·.isObject))
    (fun m hm => nested m (List.mem_of_mem_filter hm)) []
  have hflat := rel_distinctFrom_of_perm
    ((flatten_middle_perm c before middle after).symm.filter (!·.isObject))
    (fun m hm => flat m ((flatten_middle_perm c before middle after).mem_iff.2
      (List.mem_of_mem_filter hm))) []
  refine Multiset.Rel.trans _ hnested ?_
  change Multiset.Rel SaysSame (distinct _) _
  rw [hdistinct]
  exact hflat

/-- Nested members bring the object that theirs are merged into. -/
theorem allObjects_join : allObjects c [join c unite threshold members] =
    (joinedMembers c unite threshold members).filterMap fields? := by
  rw [allObjects, join_eq]
  rcases flatten_ofMembers fun m hm => isJoinedBy_of_mem_joinedMembers hm with he | ⟨hnil, he⟩
  · rw [he]
  · rw [he, hnil]
    rfl

/-- The groups of objects that may be merged before all are, each with the objects that join it
then: those in the middle, and those beside a nested member, in the middle and with the middle
nested or spliced in. -/
def earlyGroups (c : Connective) (unite : List Shape → Shape) (threshold : Nat)
    (before middle after : List Shape) :
    List (List (List (Field Shape)) × List (List (Field Shape))) :=
  let nested := before ++ [join c unite threshold middle] ++ after
  let flat := before ++ middle ++ after
  [(allObjects c middle, allObjects c before ++ allObjects c after),
    (earlyObjects c middle, lateObjects c middle),
    (earlyObjects c nested, lateObjects c nested), (earlyObjects c flat, lateObjects c flat)]

/-- Of the objects in the middle one is brought in, and the others stay. -/
theorem allObjects_nested_perm (c : Connective) (unite : List Shape → Shape) (threshold : Nat)
    (before middle after : List Shape) :
    (allObjects c (before ++ [join c unite threshold middle] ++ after)).Perm
      (merge c unite threshold (lastObjects c unite threshold middle) ++
        (allObjects c before ++ allObjects c after)) := by
  refine (allObjects_middle_perm ..).trans ?_
  rw [allObjects_join, objects_joinedMembers]

/-- With members nested the objects have unique keys too. -/
theorem nodup_keys_nested
    (unique : ∀ fields ∈ allObjects c (before ++ middle ++ after), (Field.keys fields).Nodup) :
    ∀ fields ∈ allObjects c (before ++ [join c unite threshold middle] ++
      after), (Field.keys fields).Nodup := by
  intro fields hf
  rcases List.mem_append.1 ((allObjects_nested_perm ..).mem_iff.1 hf) with hf | hf
  · exact (mem_merge.1 hf).2 ▸ nodup_keys_mergedFields
  · exact unique fields ((allObjects_middle_perm ..).mem_iff.2 (List.mem_append_right _ hf))

/-- The keys of merged objects do not depend on the grouping, as long as the keys of the early
groups may come first. -/
theorem map_keys_regroup
    (first : ∀ group ∈ earlyGroups c unite threshold before middle after,
      MayComeFirst threshold (keySet group.1) (keySet group.2)) :
    ((joinedMembers c unite threshold (before ++ [join c unite threshold middle] ++
      after)).filterMap fields?).map (fun fields => (Field.keys fields).toFinset) =
      ((joinedMembers c unite threshold (before ++ middle ++ after)).filterMap fields?).map
        fun fields => (Field.keys fields).toFinset := by
  simp only [earlyGroups, List.forall_mem_cons] at first
  obtain ⟨hall, hmiddle, hnested, hflat, -⟩ := first
  have hkeys : collapse threshold (keySet (lastObjects c unite threshold
      (before ++ [join c unite threshold middle] ++ after))) =
      collapse threshold (keySet (lastObjects c unite threshold (before ++ middle ++ after))) :=
    calc collapse threshold (keySet (lastObjects c unite threshold _))
      _ = collapse threshold (keySet (allObjects c _)) := collapse_keySet_lastObjects hnested
      _ = collapse threshold (collapse threshold (keySet (allObjects c middle)) ∪
            keySet (allObjects c before ++ allObjects c after)) := by
        rw [keySet_of_perm (allObjects_nested_perm ..), keySet_append, keySet_merge,
          collapse_keySet_lastObjects hmiddle]
      _ = collapse threshold (keySet (allObjects c (before ++ middle ++ after))) := by
        rw [collapse_collapse_union_iff.2 hall, ← keySet_append,
          keySet_of_perm (allObjects_middle_perm ..)]
      _ = collapse threshold (keySet (lastObjects c unite threshold _)) :=
        (collapse_keySet_lastObjects hflat).symm
  rw [objects_joinedMembers, objects_joinedMembers, map_keys_merge, map_keys_merge, keySet_merge,
    keySet_merge, hkeys]

/-- The objects that are merged last keep their keys if all objects do and those that are merged
before. -/
theorem keepsKeys_lastObjects (all : KeepsKeys c threshold (allObjects c members))
    (early : KeepsKeys c threshold (earlyObjects c members)) :
    KeepsKeys c threshold (lastObjects c unite threshold members) := by
  have hkeys : keySet (lastObjects c unite threshold members) = keySet (allObjects c members) := by
    rw [lastObjects, allObjects_eq, keySet_append, keySet_append, keySet_merge,
      collapse_of_le early.few]
  refine ⟨hkeys ▸ all.few, fun hor hnone => ?_⟩
  have hnil := all.some hor (hkeys ▸ hnone)
  rw [allObjects_eq, List.append_eq_nil_iff] at hnil
  rw [lastObjects, hnil.1, hnil.2, merge_nil, List.append_nil]

section Flags

variable (hU : ∀ vs, (unite vs).isNullish = false)

include hU

/-- The objects that are merged last leave a key unshared that all do. -/
theorem isUnshared_lastObjects
    (unique : ∀ fields ∈ allObjects c members, (Field.keys fields).Nodup)
    (early : KeepsKeys c threshold (earlyObjects c members) ∨ lateObjects c members = [])
    (unshared : IsUnshared k (allObjects c members)) :
    IsUnshared k (lastObjects c unite threshold members) :=
  IsUnshared.merge_append hU (nodup_keys_earlyObjects unique) early (allObjects_eq ▸ unshared)

/-- The objects that are merged last let a field of what they are merged into be absent that all
let be. -/
theorem mayBeAbsent_lastObjects (one : 1 ≤ threshold)
    (unique : ∀ fields ∈ allObjects c members, (Field.keys fields).Nodup)
    (early : KeepsKeys c threshold (earlyObjects c members) ∨ lateObjects c members = [])
    (unshared : IsUnshared k (allObjects c members))
    (hk : k ∈ keySet (merge c unite threshold (lastObjects c unite threshold members))) :
    MayBeAbsent c threshold k (lastObjects c unite threshold members) ↔
      MayBeAbsent c threshold k (allObjects c members) := by
  have hearly := nodup_keys_earlyObjects unique
  rw [allObjects_eq] at unshared ⊢
  refine mayBeAbsent_merge_append hU hearly (early.imp_right fun hlate => ⟨hlate, ?_⟩) unshared
  rwa [lastObjects, hlate, List.append_nil, keySet_merge_merge one] at hk

/-- When a field that is left of joined members may be absent. -/
theorem optional_joinedMembers_iff (one : 1 ≤ threshold)
    (unique : ∀ fields ∈ allObjects c members, (Field.keys fields).Nodup)
    (early : KeepsKeys c threshold (earlyObjects c members) ∨ lateObjects c members = [])
    {fields : List (Field Shape)} {f : Field Shape}
    (hfields : fields ∈ merge c unite threshold (lastObjects c unite threshold members))
    (hf : f ∈ fields) (unshared : IsUnshared f.key (allObjects c members)) :
    f.optional = true ↔ MayBeAbsent c threshold f.key (allObjects c members) := by
  have hkey : f.key ∈ keySet (merge c unite threshold (lastObjects c unite threshold members)) :=
    mem_keySet.2 ⟨fields, hfields, List.mem_map_of_mem hf⟩
  rw [(mem_merge.1 hfields).2] at hf
  rw [optional_mergedFields_iff hU (nodup_keys_lastObjects unique) hf
    (isUnshared_lastObjects hU unique early unshared)]
  exact mayBeAbsent_lastObjects hU one unique early unshared hkey

/-- Objects in the middle that keep their keys can be brought in nested. -/
theorem replaces_nested
    (unique : ∀ fields ∈ allObjects c (before ++ middle ++ after), (Field.keys fields).Nodup)
    (keeps : KeepsKeys c threshold (allObjects c middle))
    (early : KeepsKeys c threshold (earlyObjects c middle))
    (unshared : IsUnshared k (allObjects c (before ++ middle ++ after))) :
    Replaces c k (allObjects c (before ++ [join c unite threshold middle] ++ after))
      (allObjects c (before ++ middle ++ after)) := by
  have hmiddle : IsUnshared k (allObjects c middle) :=
    (unshared.of_replaces (Replaces.of_perm (c := c) (allObjects_middle_perm ..).symm)).of_append
  have hunique : ∀ fields ∈ allObjects c middle, (Field.keys fields).Nodup := fun fields hf =>
    unique fields ((allObjects_middle_perm ..).mem_iff.2 (List.mem_append_left _ hf))
  have hlast : Replaces c k (lastObjects c unite threshold middle) (allObjects c middle) := by
    rw [allObjects_eq] at hmiddle ⊢
    exact (replaces_merge hU (nodup_keys_earlyObjects hunique) early hmiddle.of_append).append _
  have hkeeps : KeepsKeys c threshold (lastObjects c unite threshold middle) :=
    keepsKeys_lastObjects keeps early
  have hmerge := replaces_merge hU (nodup_keys_lastObjects hunique) hkeeps
    (hmiddle.of_replaces hlast)
  exact (Replaces.of_perm (allObjects_nested_perm ..)).trans
    (((hmerge.trans hlast).append _).trans (.of_perm (allObjects_middle_perm ..).symm))

omit hU in
/-- Objects in the middle that keep their keys leave them when they are nested. -/
theorem keySet_nested (keeps : KeepsKeys c threshold (allObjects c middle))
    (early : KeepsKeys c threshold (earlyObjects c middle)) :
    keySet (allObjects c (before ++ [join c unite threshold middle] ++ after)) =
      keySet (allObjects c (before ++ middle ++ after)) := by
  rw [keySet_of_perm (allObjects_nested_perm ..), keySet_append, keySet_merge, lastObjects,
    keySet_append, keySet_merge, collapse_of_le early.few, ← keySet_append, ← allObjects_eq,
    collapse_of_le keeps.few, ← keySet_append, keySet_of_perm (allObjects_middle_perm ..)]

/-- Without objects beside them, those in the middle let a field be absent alike when they are
nested. -/
theorem mayBeAbsent_nested_of_alone (one : 1 ≤ threshold)
    (unique : ∀ fields ∈ allObjects c (before ++ middle ++ after), (Field.keys fields).Nodup)
    (alone : allObjects c before ++ allObjects c after = [])
    (early : KeepsKeys c threshold (earlyObjects c middle) ∨ lateObjects c middle = [])
    (unshared : IsUnshared k (allObjects c (before ++ middle ++ after)))
    (hk : k ∈ keySet (merge c unite threshold (lastObjects c unite threshold
      (before ++ [join c unite threshold middle] ++ after)))) :
    IsUnshared k (allObjects c (before ++ [join c unite threshold middle] ++ after)) ∧
      (MayBeAbsent c threshold k
          (allObjects c (before ++ [join c unite threshold middle] ++ after)) ↔
        MayBeAbsent c threshold k (allObjects c (before ++ middle ++ after))) := by
  have hmiddle : (allObjects c (before ++ middle ++ after)).Perm (allObjects c middle) := by
    have hperm := allObjects_middle_perm c before middle after
    rwa [alone, List.append_nil] at hperm
  have hnested : (allObjects c (before ++ [join c unite threshold middle] ++ after)).Perm
      (merge c unite threshold (lastObjects c unite threshold middle)) := by
    have hperm := allObjects_nested_perm c unite threshold before middle after
    rwa [alone, List.append_nil] at hperm
  have hunique : ∀ fields ∈ allObjects c middle, (Field.keys fields).Nodup :=
    fun fields hf => unique fields (hmiddle.mem_iff.2 hf)
  have hunshared : IsUnshared k (allObjects c middle) :=
    unshared.of_replaces (Replaces.of_perm (c := c) hmiddle.symm)
  -- what is nested has few keys already, so nothing is collapsed afterwards
  have hkey : k ∈ keySet (merge c unite threshold (lastObjects c unite threshold middle)) := by
    have hkeys := keySet_of_perm hnested
    have hfew : (keySet (merge c unite threshold (lastObjects c unite threshold middle))).card ≤
        threshold := by
      rw [keySet_merge]
      exact card_collapse_le one
    rw [← hkeys, allObjects_eq, keySet_append] at hfew
    rw [keySet_merge, lastObjects, keySet_append, keySet_merge,
      collapse_of_le ((Finset.card_le_card Finset.subset_union_left).trans hfew),
      collapse_of_le hfew, ← keySet_append, ← allObjects_eq, hkeys] at hk
    exact hk
  have hlast : IsUnshared k (lastObjects c unite threshold middle) :=
    isUnshared_lastObjects hU hunique early hunshared
  refine ⟨fun hn => absurd ((Replaces.of_perm (c := c) hnested).nullish hn)
    (not_isNullishIn_merge hU), ?_⟩
  rw [mayBeAbsent_of_perm hnested, mayBeAbsent_of_perm hmiddle,
    mayBeAbsent_merge hU (nodup_keys_lastObjects hunique) hlast hkey,
    mayBeAbsent_lastObjects hU one hunique early hunshared hkey]

/-- With members nested the objects let a field be absent alike, if those in the middle keep
their keys or no others stand beside them. -/
theorem mayBeAbsent_nested (one : 1 ≤ threshold)
    (unique : ∀ fields ∈ allObjects c (before ++ middle ++ after), (Field.keys fields).Nodup)
    (keeps : KeepsKeys c threshold (allObjects c middle) ∨
      allObjects c before ++ allObjects c after = [])
    (early : KeepsKeys c threshold (earlyObjects c middle) ∨ lateObjects c middle = [])
    (unshared : IsUnshared k (allObjects c (before ++ middle ++ after)))
    (hk : k ∈ keySet (merge c unite threshold (lastObjects c unite threshold
      (before ++ [join c unite threshold middle] ++ after)))) :
    IsUnshared k (allObjects c (before ++ [join c unite threshold middle] ++ after)) ∧
      (MayBeAbsent c threshold k
          (allObjects c (before ++ [join c unite threshold middle] ++ after)) ↔
        MayBeAbsent c threshold k (allObjects c (before ++ middle ++ after))) := by
  rcases keeps with keeps | alone
  · have hearly : KeepsKeys c threshold (earlyObjects c middle) := by
      rcases early with early | hlate
      · exact early
      · rwa [allObjects_eq, hlate, List.append_nil] at keeps
    have hreplaces := replaces_nested hU unique keeps hearly unshared
    refine ⟨unshared.of_replaces hreplaces, and_congr ?_ hreplaces.lax⟩
    rw [keySet_nested keeps hearly]
  · exact mayBeAbsent_nested_of_alone hU one unique alone early unshared hk

/-- Whether a field may be absent does not depend on the grouping, as long as the early groups
keep their keys or are all there are, and a null or undefined value is not shared. -/
theorem optional_regroup (one : 1 ≤ threshold)
    (unique : ∀ fields ∈ allObjects c (before ++ middle ++ after), (Field.keys fields).Nodup)
    (keeps : ∀ group ∈ earlyGroups c unite threshold before middle after,
      KeepsKeys c threshold group.1 ∨ group.2 = [])
    {fields fields' : List (Field Shape)} {f f' : Field Shape}
    (hfields : fields ∈ (joinedMembers c unite threshold (before ++
      [join c unite threshold middle] ++ after)).filterMap fields?)
    (hfields' : fields' ∈
      (joinedMembers c unite threshold (before ++ middle ++ after)).filterMap fields?)
    (hf : f ∈ fields) (hf' : f' ∈ fields') (hkey : f.key = f'.key)
    (unshared : IsUnshared f.key (allObjects c (before ++ middle ++ after))) :
    f.optional = f'.optional := by
  simp only [earlyGroups, List.forall_mem_cons] at keeps
  obtain ⟨hall, hmiddle, hnested, hflat, -⟩ := keeps
  rw [objects_joinedMembers] at hfields hfields'
  obtain ⟨hunshared, habsent⟩ := mayBeAbsent_nested hU one unique hall hmiddle unshared
    (mem_keySet.2 ⟨fields, hfields, List.mem_map_of_mem hf⟩)
  rw [Bool.eq_iff_iff,
    optional_joinedMembers_iff hU one (nodup_keys_nested unique) hnested hfields hf hunshared,
    optional_joinedMembers_iff hU one unique hflat hfields' hf' (hkey ▸ unshared), habsent, hkey]

end Flags

/-- Without any keys that are few there is an index signature only, and it is there always. -/
theorem optional_joinedMembers_zero {fields : List (Field Shape)} {f : Field Shape}
    (hfields : fields ∈ (joinedMembers c unite 0 members).filterMap fields?) (hf : f ∈ fields) :
    f.optional = false := by
  rw [objects_joinedMembers] at hfields
  rw [(mem_merge.1 hfields).2, mergedFields_eq] at hf
  split at hf
  · rw [List.mem_singleton.1 hf]
    rfl
  · rename_i hnone
    have hnil := List.eq_nil_of_length_eq_zero (Nat.eq_zero_of_not_pos hnone)
    rw [hnil] at hf
    cases hf

end Members

/-! ### Reducing -/

section Reduce

variable {reduction : Reduction} {c : Connective}

/-- The members of a reduced list are plain, those inside of nested ones too. -/
theorem isPlain_of_mem_flatten {members : List Shape} {m : Shape}
    (h : m ∈ flatten c (members.map (reduce reduction))) : IsPlain reduction.precise m := by
  refine (forall_mem_flatten (M := Everywhere (IsPlain reduction.precise))
    (fun _ hms => (everywhere_joined.1 hms).2) (fun m hm => ?_) m h).here
  obtain ⟨m, -, rfl⟩ := List.mem_map.1 hm
  exact everywhere_isPlain_reduce reduction m

/-- The objects of a reduced list have unique keys when those of the list do. -/
theorem nodup_keys_allObjects {members : List Shape} (unique : ∀ m ∈ members, ∀ fields,
    Occurs (.object fields) m → (Field.keys fields).Nodup) :
    ∀ fields ∈ allObjects c (members.map (reduce reduction)), (Field.keys fields).Nodup := by
  intro fields hf
  refine (forall_mem_flatten (M := Everywhere HasUniqueKeys)
    (fun _ hms => (everywhere_joined.1 hms).2) (fun m hm => ?_) _
    (mem_filterMap_fields?.1 hf)).here
  obtain ⟨s, hs, rfl⟩ := List.mem_map.1 hm
  exact everywhere_hasUniqueKeys_reduce reduction (everywhere_hasUniqueKeys (unique s hs))

/-- It does not matter whether members are joined among themselves before they are joined
with others. The members that are no objects are the same, in some order and up to which
literal of a kind is kept. Objects with the same keys are merged if two keys are too many, or if
each early group has few keys, or too many once more with the objects that join it, or if these
have none but an index signature. The fields of the merged objects may be absent alike if any key
is too many, or if the keys of objects are unique and each early group keeps its keys or is joined
by no object, where a value that is null or undefined is the only one of its key. -/
theorem reduce_regroup (reduction : Reduction) (c : Connective) (xs ys zs : List Shape) :
    let threshold := reduction.dictionaryThreshold
    let nested := operands c ((Shape.joined c (xs ++ [.joined c ys] ++ zs)).reduce reduction)
    let flat := operands c ((Shape.joined c (xs ++ ys ++ zs)).reduce reduction)
    let reduced := List.map (reduce reduction)
    let groups := earlyGroups c (united threshold) threshold (reduced xs) (reduced ys) (reduced zs)
    Multiset.Rel SaysSame (nested.filter (!·.isObject)) (flat.filter (!·.isObject)) ∧
      ((threshold < 2 ∨
          ∀ group ∈ groups, MayComeFirst threshold (keySet group.1) (keySet group.2)) →
        (nested.filterMap fields?).map (fun fields => (Field.keys fields).toFinset) =
          (flat.filterMap fields?).map fun fields => (Field.keys fields).toFinset) ∧
      ((threshold = 0 ∨
          (∀ m ∈ xs ++ ys ++ zs, ∀ fields, Occurs (.object fields) m →
            (Field.keys fields).Nodup) ∧
          ∀ group ∈ groups, KeepsKeys c threshold group.1 ∨ group.2 = []) →
        ∀ fields fields', .object fields ∈ nested → .object fields' ∈ flat →
          ∀ f ∈ fields, ∀ f' ∈ fields', f.key = f'.key →
            IsUnshared f.key (allObjects c (reduced (xs ++ ys ++ zs))) →
              f.optional = f'.optional) := by
  intro threshold nested flat reduced groups
  have hspliced : reduced (xs ++ ys ++ zs) = reduced xs ++ reduced ys ++ reduced zs := by
    simp [reduced]
  have hgrouped : reduced (xs ++ [.joined c ys] ++ zs) = reduced xs ++
      [join c (united threshold) threshold (reduced ys)] ++ reduced zs := by
    simp [reduced, threshold, reduce_joined, join_eq]
  have hflat : flat = joinedMembers c (united threshold) threshold (reduced xs ++ reduced ys ++
      reduced zs) := hspliced ▸ operands_reduce_joined reduction c _
  have hnested : nested = joinedMembers c (united threshold) threshold (reduced xs ++
      [join c (united threshold) threshold (reduced ys)] ++ reduced zs) :=
    hgrouped ▸ operands_reduce_joined reduction c _
  rw [hflat, hnested, hspliced]
  refine ⟨?_, fun first => map_keys_regroup fun group hgroup => ?_, ?_⟩
  · refine rel_filter_isObject_regroup reduction.precise (fun m hm => ?_) (fun m hm => ?_)
    · exact isPlain_of_mem_flatten (hgrouped ▸ hm)
    · exact isPlain_of_mem_flatten (hspliced ▸ hm)
  · exact first.elim mayComeFirst_of_lt_two (· group hgroup)
  · intro keeps fields fields' hfields hfields' f hf f' hf' hkey unshared
    rw [← mem_filterMap_fields?] at hfields hfields'
    by_cases hzero : threshold = 0
    · rw [hzero] at hfields hfields'
      rw [optional_joinedMembers_zero hfields hf, optional_joinedMembers_zero hfields' hf']
    · obtain ⟨unique, keeps⟩ := keeps.resolve_left hzero
      have hunique : ∀ fields ∈ allObjects c (reduced xs ++ reduced ys ++ reduced zs),
          (Field.keys fields).Nodup := hspliced ▸ nodup_keys_allObjects unique
      exact optional_regroup isNullish_united (Nat.pos_of_ne_zero hzero) hunique keeps hfields
        hfields' hf hf' hkey unshared

/-- A text and an object that are nested beside another object leave the keys and the absent
fields that they leave without the nesting. -/
theorem reduce_regroup_pets :
    let pet := [Field.named "id" Shape.number, Field.named "owner" Shape.null]
    let tag := [Field.named "id" Shape.number, Field.named "tag" Shape.boolean]
    let xs : List Shape := [.object pet]
    let ys : List Shape := [.string, .object tag]
    let nested := operands .or ((Shape.joined .or (xs ++ [.joined .or ys] ++ [])).reduce {})
    let flat := operands .or ((Shape.joined .or (xs ++ ys ++ [])).reduce {})
    (∀ m ∈ xs ++ ys ++ [], ∀ fields, Occurs (.object fields) m → (Field.keys fields).Nodup) ∧
      (∀ group ∈ [[tag], [], [pet], []], KeepsKeys .or 20 group) ∧
      (nested.filterMap fields?).map (fun fields => (Field.keys fields).toFinset) =
        (flat.filterMap fields?).map (fun fields => (Field.keys fields).toFinset) ∧
      ∀ fields fields', .object fields ∈ nested → .object fields' ∈ flat →
        ∀ f ∈ fields, ∀ f' ∈ fields', f.key = f'.key → f.optional = f'.optional := by
  intro pet tag xs ys nested flat
  have unique : ∀ m ∈ xs ++ ys ++ [], ∀ fields, Occurs (.object fields) m →
      (Field.keys fields).Nodup := by
    intro m hm fields ho
    have hs : Everywhere HasUniqueKeys (.joined .or (xs ++ ys ++ [])) := by
      simp [xs, ys, pet, tag, HasUniqueKeys, Field.keys, Field.named, string, number, boolean,
        null]
    exact hs _ (.member hm ho)
  have keeps : ∀ group ∈ [[tag], [], [pet], []], KeepsKeys .or 20 group := by
    have hnone : KeepsKeys .or 20 [] := ⟨by decide, fun _ _ => rfl⟩
    have htag : KeepsKeys .or 20 [tag] := ⟨by decide, fun _ h => absurd h (by decide)⟩
    have hpet : KeepsKeys .or 20 [pet] := ⟨by decide, fun _ h => absurd h (by decide)⟩
    simpa using ⟨htag, hnone, hpet, hnone⟩
  have hgroups : earlyGroups .or (united 20) 20 (xs.map (reduce {})) (ys.map (reduce {}))
      (List.map (reduce {}) []) =
        [([tag], [pet]), ([], [tag]), ([pet], [tag]), ([], [pet, tag])] := by cbv
  have hobjects : allObjects .or ((xs ++ ys ++ []).map (reduce {})) = [pet, tag] := by cbv
  -- only one of the two objects has the key under which there is nothing
  have unshared : ∀ k, IsUnshared k [pet, tag] := by
    rintro k ⟨fields, hfields, f, hf, rfl, hn⟩
    have hfield : f = Field.named "owner" .null := by
      simp only [List.mem_cons, List.not_mem_nil, or_false] at hfields
      rcases hfields with rfl | rfl <;>
        simp only [pet, tag, List.mem_cons, List.not_mem_nil, or_false] at hf <;>
        rcases hf with rfl | rfl <;> first | rfl | cases hn
    rw [hfield]
    rfl
  obtain ⟨-, hkeys, hoptional⟩ := reduce_regroup {} .or xs ys []
  have hkeeps : ∀ group ∈ earlyGroups .or (united 20) 20 (xs.map (reduce {})) (ys.map (reduce {}))
      (List.map (reduce {}) []), KeepsKeys .or 20 group.1 := by
    rw [hgroups]
    simpa using keeps
  refine ⟨unique, keeps, hkeys (Or.inr fun group hgroup => Or.inl (hkeeps group hgroup).few), ?_⟩
  · intro fields fields' hfields hfields' f hf f' hf' hkey
    refine hoptional (Or.inr ⟨unique, fun group hgroup => ?_⟩) fields fields' hfields hfields'
      f hf f' hf' hkey (hobjects ▸ unshared f.key)
    exact Or.inl (hkeeps group hgroup)

/-- Three objects with a key each become an index signature when they are nested, and with
another one there are two keys then, where the four of them have too many. Of two texts the
first is kept, and a nested one comes after one that is not. Objects without a field say
that those of another may be absent, unless they are merged apart. -/
theorem reduce_regroup_differs :
    let record := fun name => Shape.object [Field.named name .string]
    let nested := [{ Field.named "a" Shape.string with optional := true },
      { key := .wildcard, value := .string, optional := true }]
    let flat : List (Field Shape) := [{ key := .wildcard, value := .string }]
    let text := fun s => Shape.literal ⟨some (.string s), false⟩
    ((Shape.joined .or ([record "a"] ++ [.joined .or [record "b", record "c", record "d"]] ++
        [])).reduce { dictionaryThreshold := 2 } = .object nested ∧
      (Shape.joined .or ([record "a"] ++ [record "b", record "c", record "d"] ++
        [])).reduce { dictionaryThreshold := 2 } = .object flat ∧
      (Field.keys nested).toFinset ≠ (Field.keys flat).toFinset) ∧
    ((Shape.joined .or ([] ++ [.joined .or [text "a", .reference "T"]] ++ [text "b"])).reduce {} =
        .joined .or [text "b", .reference "T"] ∧
      (Shape.joined .or ([] ++ [text "a", .reference "T"] ++ [text "b"])).reduce {} =
        .joined .or [text "a", .reference "T"] ∧ text "a" ≠ text "b") ∧
    ((Shape.joined .or ([] ++ [.joined .or [.object [], .object []]] ++ [record "a"])).reduce {} =
        record "a" ∧
      (Shape.joined .or ([] ++ [.object [], .object []] ++ [record "a"])).reduce {} =
        .object [{ Field.named "a" Shape.string with optional := true }]) := by
  intro record nested flat text
  refine ⟨⟨by cbv, by cbv, by decide⟩, ⟨by cbv, by cbv, ?_⟩, by cbv, by cbv⟩
  simp [text]

end Reduce

end TypedClient.Shape
