import TypedClient.Proofs.Reduction.Inheritance

/-!
# Reducing twice

A settled shape is one whose joined parts have several members, none of them
nested, that consolidating leaves as they are. Settling leaves a settled shape,
and a settled shape is settled to itself. The one case that needs more than the
members is a dictionary that is made again on every pass, which happens at the
threshold zero: its value is a settled union, and uniting a settled union once
more gives it back.
-/

namespace TypedClient.Shape

/-- A joined shape that joining leaves as it is. Other shapes have nothing to join. -/
def IsJoined (threshold : Nat) : Shape → Prop
  | .joined c members => 2 ≤ members.length ∧ (∀ m ∈ members, m.isJoinedBy c = false) ∧
      consolidate c (united threshold) threshold members = members
  | _ => True

/-- Every joined part is as joining leaves it. -/
def IsSettled (threshold : Nat) (s : Shape) : Prop := Everywhere (IsJoined threshold) s

section Nullish

variable {c : Connective} {unite : List Shape → Shape} {threshold : Nat}

/-- What is joined of members is never nullish. -/
theorem isNullish_join (members : List Shape) :
    (join c unite threshold members).isNullish = false := by
  rw [join_eq]
  rcases ofMembers_cases (c := c) (joinedMembers c unite threshold members) with
    ⟨-, he⟩ | ⟨m, hm, he⟩ | ⟨-, he⟩
  · rw [he]
    rfl
  · have hd : AreDistinct (joinedMembers c unite threshold members) := areDistinct_joinedMembers
    have hv := hd.informative m (by rw [hm]; exact List.mem_singleton_self m)
    rw [he]
    by_contra hn
    rw [isVacuous_of_isNullish (by simpa using hn)] at hv
    contradiction
  · rw [he]
    rfl

theorem isNullish_united (vs : List Shape) : (united threshold vs).isNullish = false := by
  rw [united_eq]
  exact isNullish_join _

/-- Joining a joined shape by itself gives it back, when consolidating its members
changes nothing. -/
theorem join_singleton_join {members : List Shape}
    (h : consolidate c unite threshold (joinedMembers c unite threshold members) =
      joinedMembers c unite threshold members) :
    join c unite threshold [join c unite threshold members] = join c unite threshold members := by
  have hnest : ∀ m ∈ joinedMembers c unite threshold members, m.isJoinedBy c = false :=
    fun m hm => isJoinedBy_of_mem_joinedMembers hm
  rw [join_eq, join_eq]
  generalize joinedMembers c unite threshold members = joined at h hnest
  rcases ofMembers_cases (c := c) joined with ⟨-, he⟩ | ⟨m, rfl, he⟩ | ⟨-, he⟩
  · rw [he]
    simp [joinedMembers, consolidate, distinct, distinctFrom, isVacuous, keyword?,
      Keyword.isVacuous, mergeObjects_eq, mergedFields_eq_nil_iff.2, asMembers, ofMembers]
  · have hm : m.isJoinedBy c = false := hnest m (List.mem_singleton_self m)
    rw [he, joinedMembers]
    simp only [h, List.any_cons, List.any_nil, hm, Bool.or_self, Bool.false_eq_true, if_false]
    exact he
  · have hself : consolidate c unite threshold [.joined c joined] = [.joined c joined] :=
      consolidate_singleton rfl rfl
    have hany : [Shape.joined c joined].any (isJoinedBy c) = true := by simp [isJoinedBy]
    rw [he, joinedMembers]
    simp only [hself, hany, if_true, flatten_singleton_joined hnest, h, he]

end Nullish

variable {threshold : Nat} {s : Shape}

/-- A settled shape is settled to itself. -/
theorem settle_of_isSettled (h : IsSettled threshold s) : s.settle threshold = s := by
  have hmap : ∀ members : List Shape, (∀ m ∈ members, m.settle threshold = m) →
      members.map (settle threshold) = members := fun members hm => by
    rw [List.map_congr_left hm, List.map_id']
  induction s using tree_induction with
  | array e ih => rw [settle_array, ih (everywhere_array.1 h).2]
  | object fields ih =>
    have hvalues : ∀ f ∈ fields, Field.mapValue (settle threshold) f = f := fun f hf => by
      rw [Field.mapValue, ih f hf ((everywhere_object.1 h).2 f hf)]
    rw [settle_object, List.map_congr_left hvalues, List.map_id']
  | joined c members ih =>
    obtain ⟨⟨hlen, hnest, hself⟩, hmembers⟩ := everywhere_joined.1 h
    have hany : members.any (isJoinedBy c) = false := by simpa using hnest
    rw [settle_joined, hmap members fun m hm => ih m hm (hmembers m hm), join_eq, joinedMembers]
    simp only [hself, hany, Bool.false_eq_true, if_false]
    rcases ofMembers_cases (c := c) members with ⟨rfl, -⟩ | ⟨m, rfl, -⟩ | ⟨-, he⟩
    · simp at hlen
    · simp at hlen
    · exact he
  | tuple members ih =>
    rw [settle_tuple, hmap members fun m hm => ih m hm ((everywhere_tuple.1 h).2 m hm)]
  | _ => rfl

/-- Settling leaves a settled shape, and of a joined shape it leaves members that
consolidating does not change. -/
theorem isSettled_settle_and_consolidate (s : Shape) : IsSettled threshold (s.settle threshold) ∧
    ∀ c members, s = .joined c members →
      consolidate c (united threshold) threshold
          (joinedMembers c (united threshold) threshold (members.map (settle threshold))) =
        joinedMembers c (united threshold) threshold (members.map (settle threshold)) := by
  induction s using settle_induction with
  | array e ih =>
    rw [settle_array]
    exact ⟨everywhere_array.2 ⟨trivial, ih.1⟩, by simp⟩
  | object fields ih =>
    rw [settle_object]
    refine ⟨everywhere_object.2 ⟨trivial, fun g hg => ?_⟩, by simp⟩
    obtain ⟨f, hf, rfl⟩ := List.mem_map.1 hg
    exact (ih f hf).1
  | joined c members ih ihu =>
    have hI : JoinInvariant c (united threshold) threshold
        (fun m => IsSettled threshold m ∧ m.nesting ≤ nestingAll members)
        fun v => IsSettled threshold v ∧ v.nesting < nestingAll members :=
      everywhere_joinInvariant trivial (fun _ _ _ => trivial) fun vs _ hvs _ => (ihu vs hvs).1
    have hmembers : ∀ m ∈ members.map (settle threshold),
        IsSettled threshold m ∧ m.nesting ≤ nestingAll members := by
      intro m hm
      refine ⟨?_, nesting_le_of_mem_map_settle hm⟩
      obtain ⟨a, ha, rfl⟩ := List.mem_map.1 hm
      exact (ih a ha).1
    have hagain : ∀ vs, vs ≠ [] →
        (∀ v ∈ vs, IsSettled threshold v ∧ v.nesting < nestingAll members) →
        united threshold [united threshold vs] = united threshold vs := by
      intro vs hne hv
      obtain ⟨hsettled, hconsolidated⟩ := ihu vs (nestingAll_lt hne fun v h => (hv v h).2)
      rw [united_eq, List.map_singleton, united, settle_of_isSettled hsettled, settle_joined]
      exact join_singleton_join (hconsolidated .or vs rfl)
    have hconsolidated := hI.consolidate_joinedMembers hmembers fun objects hobjects =>
      mergedFields_mergedFields hI.preserves isNullish_united hagain
        fun fields hf => hI.value fields (hobjects fields hf)
    have hall := hI.joinedMembers hmembers
    refine ⟨?_, fun d ms he => by cases he; exact hconsolidated⟩
    rw [settle_joined, join_eq]
    refine everywhere_ofMembers trivial (fun m hm => (hall m hm).1) fun hlen => ?_
    exact ⟨hlen, fun m hm => isJoinedBy_of_mem_joinedMembers hm, hconsolidated⟩
  | tuple members ih =>
    rw [settle_tuple]
    refine ⟨everywhere_tuple.2 ⟨trivial, fun m hm => ?_⟩, by simp⟩
    obtain ⟨a, ha, rfl⟩ := List.mem_map.1 hm
    exact (ih a ha).1
  | _ => exact ⟨by simp [IsSettled, IsJoined], by simp⟩

/-- Settling leaves a settled shape. -/
theorem isSettled_settle (s : Shape) : IsSettled threshold (s.settle threshold) :=
  (isSettled_settle_and_consolidate s).1

/-- Reducing a reduced shape changes nothing, whatever the shape, the precision
and the threshold. -/
theorem reduce_reduce (reduction : Reduction) (s : Shape) :
    (s.reduce reduction).reduce reduction = s.reduce reduction := by
  have hwiden := widen_of_everywhere_isPlain (everywhere_isPlain_reduce reduction s)
  rw [reduce_eq reduction (s.reduce reduction), hwiden, reduce_eq]
  exact settle_of_isSettled (isSettled_settle _)

end TypedClient.Shape
