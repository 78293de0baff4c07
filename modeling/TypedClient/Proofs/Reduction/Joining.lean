import TypedClient.Proofs.Reduction.Merging
import TypedClient.Proofs.Shape.Distinct

/-!
# Joining reduced members

Members are made distinct, their objects merged, nested members of the same
connective spliced in, and the list consolidated once more when there were any.
A property of members and one of the values inside their objects are carried
through all of these steps together. The list that is left has nothing nested
in it, and consolidating it again changes nothing.
-/

namespace TypedClient.Shape

section Objects

variable {c : Connective} {unite unite' : List Shape → Shape} {threshold : Nat}
  {members : List Shape}

/-- The objects among members. -/
theorem mem_filterMap_fields? {fields : List (Field Shape)} :
    fields ∈ members.filterMap fields? ↔ Shape.object fields ∈ members := by
  rw [List.mem_filterMap]
  constructor
  · rintro ⟨m, hm, hf⟩
    cases m <;> simp [fields?] at hf
    rw [← hf]
    exact hm
  · exact fun h => ⟨_, h, rfl⟩

/-- An object as a list of members: none when it has no fields. -/
def asMembers : List (Field Shape) → List Shape
  | [] => []
  | fields => [.object fields]

theorem mem_asMembers {fields : List (Field Shape)} {s : Shape} :
    s ∈ asMembers fields ↔ fields ≠ [] ∧ s = .object fields := by
  cases fields <;> simp [asMembers]

/-- The other members come first and the merged object last. -/
theorem mergeObjects_eq : mergeObjects c unite threshold members =
    members.filter (!·.isObject) ++
      asMembers (mergedFields c unite threshold (members.filterMap fields?)) := by
  unfold mergeObjects
  generalize mergedFields c unite threshold (members.filterMap fields?) = fields
  cases fields with
  | nil => exact (List.append_nil _).symm
  | cons f rest => rfl

/-- A member of a consolidated list was a member before, or it is the merged object. -/
theorem mem_consolidate {s : Shape} : s ∈ consolidate c unite threshold members ↔
    (s ∈ distinct members ∧ s.isObject = false) ∨
      (mergedFields c unite threshold ((distinct members).filterMap fields?) ≠ [] ∧
        s = .object (mergedFields c unite threshold ((distinct members).filterMap fields?))) := by
  simp [consolidate, mergeObjects_eq, mem_asMembers]

/-- A consolidated list is distinct. -/
theorem areDistinct_consolidate : AreDistinct (consolidate c unite threshold members) := by
  have hothers : AreDistinct ((distinct members).filter (!·.isObject)) :=
    (areDistinct_distinct members).sublist List.filter_sublist
  rw [consolidate, mergeObjects_eq]
  generalize mergedFields c unite threshold ((distinct members).filterMap fields?) = fields
  cases fields with
  | nil => simpa [asMembers] using hothers
  | cons f rest => exact hothers.concat_object _

/-- A member that is no object stays when it is distinct from the rest. -/
theorem consolidate_singleton {m : Shape} (hv : m.isVacuous = false) (ho : m.isObject = false) :
    consolidate c unite threshold [m] = [m] := by
  have hd : distinct [m] = [m] := distinct_of_areDistinct
    ⟨fun s hs => by rw [List.mem_singleton.1 hs, hv], List.pairwise_singleton _ _⟩
  have hn : [m].filterMap fields? = [] := by
    rw [List.eq_nil_iff_forall_not_mem]
    intro fields hf
    rw [mem_filterMap_fields?, List.mem_singleton] at hf
    rw [← hf] at ho
    simp [isObject] at ho
  rw [consolidate, hd, mergeObjects_eq, hn, mergedFields_eq_nil_iff.2 (by simp)]
  simp [ho, asMembers]

/-- What consolidating leaves is consolidated already, when its merged object is
merged to itself. -/
theorem consolidate_consolidate
    (h : mergedFields c unite threshold
        [mergedFields c unite threshold ((distinct members).filterMap fields?)] =
      mergedFields c unite threshold ((distinct members).filterMap fields?)) :
    consolidate c unite threshold (consolidate c unite threshold members) =
      consolidate c unite threshold members := by
  conv_lhs => rw [consolidate, distinct_of_areDistinct areDistinct_consolidate]
  generalize hf : mergedFields c unite threshold ((distinct members).filterMap fields?) = fields
    at h
  have hothers : ((distinct members).filter (!·.isObject)).filterMap fields? = [] := by
    rw [List.eq_nil_iff_forall_not_mem]
    intro fs hfs
    rw [mem_filterMap_fields?, List.mem_filter] at hfs
    simp [isObject] at hfs
  rw [consolidate, mergeObjects_eq, mergeObjects_eq, hf, List.filter_append, List.filter_filter,
    List.filterMap_append, hothers]
  cases fields with
  | nil => simp [asMembers, mergedFields_eq_nil_iff.2]
  | cons f rest => simp [asMembers, fields?, isObject, h]

end Objects

section Flatten

variable {c : Connective} {members : List Shape}

theorem innerMembers_eq_flatMap : innerMembers c members = members.flatMap (spliced c) := by
  induction members with
  | nil => rfl
  | cons m rest ih => rw [innerMembers, ih, List.flatMap_cons]

/-- Only a shape joined by the connective has members to splice in. -/
theorem spliced_joined {inner : List Shape} :
    (Shape.joined c inner).spliced c = flatten c inner := by
  rw [spliced, if_pos rfl, flatten]

theorem mem_spliced {s m : Shape} (h : s ∈ m.spliced c) :
    ∃ inner, m = .joined c inner ∧ s ∈ flatten c inner := by
  cases m with
  | joined d inner =>
    by_cases hd : d = c
    · subst hd
      exact ⟨inner, rfl, by rwa [spliced_joined] at h⟩
    · simp [spliced, hd] at h
  | _ => simp [spliced] at h

/-- A spliced list holds members that were not nested, and those inside nested ones. -/
theorem mem_flatten {s : Shape} : s ∈ flatten c members ↔
    (s ∈ members ∧ s.isJoinedBy c = false) ∨ ∃ m ∈ members, s ∈ m.spliced c := by
  simp [flatten, innerMembers_eq_flatMap]

/-- What passes from a nested shape to its members holds of everything spliced in. -/
theorem forall_mem_spliced {M : Shape → Prop} (inner : ∀ ms, M (.joined c ms) → ∀ m ∈ ms, M m)
    (m : Shape) (h : M m) : ∀ s ∈ m.spliced c, M s ∧ s.isJoinedBy c = false := by
  induction m using tree_induction with
  | joined d ms ih =>
    intro s hs
    obtain ⟨ms', he, hs⟩ := mem_spliced hs
    cases he
    rcases mem_flatten.1 hs with ⟨hm, hn⟩ | ⟨m, hm, hs⟩
    · exact ⟨inner ms h s hm, hn⟩
    · exact ih m hm (inner ms h m hm) s hs
  | _ => intro s hs; simp [spliced] at hs

/-- What passes from a nested shape to its members is kept by splicing. -/
theorem forall_mem_flatten {M : Shape → Prop} (inner : ∀ ms, M (.joined c ms) → ∀ m ∈ ms, M m)
    (h : ∀ m ∈ members, M m) : ∀ s ∈ flatten c members, M s := by
  intro s hs
  rcases mem_flatten.1 hs with ⟨hm, -⟩ | ⟨m, hm, hs⟩
  · exact h s hm
  · exact (forall_mem_spliced inner m (h m hm) s hs).1

/-- Splicing leaves nothing nested. -/
theorem isJoinedBy_of_mem_flatten {s : Shape} (h : s ∈ flatten c members) :
    s.isJoinedBy c = false := by
  rcases mem_flatten.1 h with ⟨-, hn⟩ | ⟨m, -, hs⟩
  · exact hn
  · exact (forall_mem_spliced (M := fun _ => True) (fun _ _ _ _ => trivial) m trivial s hs).2

/-- A list with nothing nested in it has nothing to splice in. -/
theorem flatten_eq_self (h : ∀ m ∈ members, m.isJoinedBy c = false) :
    flatten c members = members := by
  have hinner : members.flatMap (spliced c) = [] := by
    rw [List.flatMap_eq_nil_iff]
    intro m hm
    rw [List.eq_nil_iff_forall_not_mem]
    intro s hs
    obtain ⟨ms, rfl, -⟩ := mem_spliced hs
    simpa [isJoinedBy] using h _ hm
  have hkeep : members.filter (!·.isJoinedBy c) = members :=
    List.filter_eq_self.2 fun m hm => by simp [h m hm]
  rw [flatten, innerMembers_eq_flatMap, hinner, hkeep, List.append_nil]

/-- Without anything nested in it, a nested shape is spliced in whole. -/
theorem flatten_singleton_joined {inner : List Shape} (h : ∀ m ∈ inner, m.isJoinedBy c = false) :
    flatten c [.joined c inner] = inner := by
  rw [flatten, innerMembers_eq_flatMap, List.flatMap_singleton, spliced_joined, flatten_eq_self h]
  simp [isJoinedBy]

end Flatten

/-- The members of a joined shape: consolidated, and once more when there was
anything to splice in. -/
def joinedMembers (c : Connective) (unite : List Shape → Shape) (threshold : Nat)
    (members : List Shape) : List Shape :=
  let once := consolidate c unite threshold members
  if once.any (isJoinedBy c) then consolidate c unite threshold (flatten c once) else once

/-- Joining consolidates the members, and what that leaves once more when there is anything to
splice in. -/
inductive Consolidates (c : Connective) (unite : List Shape → Shape) (threshold : Nat)
    (members : List Shape) : List Shape → Prop where
  /-- The members themselves. -/
  | first : Consolidates c unite threshold members members
  /-- What is left of them, spliced. -/
  | again (hnested : (consolidate c unite threshold members).any (isJoinedBy c) = true) :
    Consolidates c unite threshold members (flatten c (consolidate c unite threshold members))

/-- A property `M` of members and a property `V` of the values inside their
objects that joining carries from the members to the joined ones. -/
structure JoinInvariant (c : Connective) (unite : List Shape → Shape) (threshold : Nat)
    (M V : Shape → Prop) : Prop where
  /-- It passes from a nested shape to its members. -/
  inner : ∀ ms, M (.joined c ms) → ∀ m ∈ ms, M m
  /-- The values inside an object have the property of values. -/
  value : ∀ fields, M (.object fields) → ∀ f ∈ fields, V f.value
  /-- Uniting preserves the property of values. -/
  preserves : Preserves unite V
  /-- An object merged of objects with the property has it. -/
  merged : ∀ objects, (∀ fields ∈ objects, M (.object fields)) →
    mergedFields c unite threshold objects ≠ [] →
    M (.object (mergedFields c unite threshold objects))

section JoinedMembers

variable {c : Connective} {unite unite' : List Shape → Shape} {threshold : Nat}
  {M V : Shape → Prop} {members : List Shape}

theorem join_eq : join c unite threshold members =
    ofMembers c (joinedMembers c unite threshold members) := rfl

/-- What holds of members, and of the object that is merged of them, holds of what
consolidating leaves. -/
theorem forall_mem_consolidate (h : ∀ m ∈ members, M m)
    (merged : mergedFields c unite threshold ((distinct members).filterMap fields?) ≠ [] →
      M (.object (mergedFields c unite threshold ((distinct members).filterMap fields?)))) :
    ∀ m ∈ consolidate c unite threshold members, M m := by
  intro m hm
  rcases mem_consolidate.1 hm with ⟨hm, -⟩ | ⟨hne, rfl⟩
  · exact h m (mem_of_mem_distinct hm)
  · exact merged hne

section Consolidates

variable (inner : ∀ ms, M (.joined c ms) → ∀ m ∈ ms, M m)
  (merged : ∀ list, Consolidates c unite threshold members list → (∀ m ∈ list, M m) →
    mergedFields c unite threshold ((distinct list).filterMap fields?) ≠ [] →
    M (.object (mergedFields c unite threshold ((distinct list).filterMap fields?))))
  (h : ∀ m ∈ members, M m)

include inner merged h

/-- What holds of members, and of the objects that are merged on the way, holds of all lists
that joining consolidates. -/
theorem forall_mem_of_consolidates {list : List Shape}
    (hlist : Consolidates c unite threshold members list) : ∀ m ∈ list, M m := by
  cases hlist with
  | first => exact h
  | again => exact forall_mem_flatten inner (forall_mem_consolidate h (merged members .first h))

/-- What holds of members, and of the objects that are merged on the way, holds of what
joining leaves. -/
theorem forall_mem_joinedMembers : ∀ m ∈ joinedMembers c unite threshold members, M m := by
  unfold joinedMembers
  dsimp only
  split
  · rename_i hnested
    have hlist := forall_mem_of_consolidates inner merged h (.again hnested)
    exact forall_mem_consolidate hlist (merged _ (.again hnested) hlist)
  · exact forall_mem_consolidate h (merged members .first h)

end Consolidates

/-- An object that is merged of objects among members with the property has it. -/
theorem JoinInvariant.object (hI : JoinInvariant c unite threshold M V) {list : List Shape}
    (h : ∀ m ∈ list, M m)
    (hne : mergedFields c unite threshold ((distinct list).filterMap fields?) ≠ []) :
    M (.object (mergedFields c unite threshold ((distinct list).filterMap fields?))) :=
  hI.merged _ (fun _ hf => h _ (mem_of_mem_distinct (mem_filterMap_fields?.1 hf))) hne

/-- Consolidating carries the property. -/
theorem JoinInvariant.consolidate (hI : JoinInvariant c unite threshold M V)
    (h : ∀ m ∈ members, M m) : ∀ m ∈ consolidate c unite threshold members, M m :=
  forall_mem_consolidate h (hI.object h)

/-- Joining carries the property. -/
theorem JoinInvariant.joinedMembers (hI : JoinInvariant c unite threshold M V)
    (h : ∀ m ∈ members, M m) : ∀ m ∈ joinedMembers c unite threshold members, M m :=
  forall_mem_joinedMembers hI.inner (fun _ _ => hI.object) h

/-- Joining carries the property through every list that it consolidates. -/
theorem JoinInvariant.consolidates {list : List Shape} (hI : JoinInvariant c unite threshold M V)
    (h : ∀ m ∈ members, M m) (hlist : Consolidates c unite threshold members list) :
    ∀ m ∈ list, M m :=
  forall_mem_of_consolidates hI.inner (fun _ _ => hI.object) h hlist

/-- Joining asks the uniting function only about what the lists that it consolidates unite. -/
theorem join_congr (h : ∀ list, Consolidates c unite threshold members list → ∀ keys vs,
      Unites c unite threshold ((distinct list).filterMap fields?) keys vs →
      unite vs = unite' vs) :
    join c unite threshold members = join c unite' threshold members := by
  have hconsolidate : ∀ list, Consolidates c unite threshold members list →
      consolidate c unite threshold list = consolidate c unite' threshold list :=
    fun list hlist => by
      rw [consolidate, consolidate, mergeObjects_eq, mergeObjects_eq,
        mergedFields_congr (h list hlist)]
  rw [join_eq, join_eq]
  unfold Shape.joinedMembers
  dsimp only
  rw [← hconsolidate members .first]
  split
  · rename_i hnested
    rw [hconsolidate _ (.again hnested)]
  · rfl

/-- Joining asks the uniting function only about values at hand. -/
theorem JoinInvariant.join_congr (hI : JoinInvariant c unite threshold M V)
    (he : AgreeOn V unite unite') (h : ∀ m ∈ members, M m) :
    join c unite threshold members = join c unite' threshold members := by
  refine Shape.join_congr fun list hlist keys vs hunites => ?_
  have hobjects : ∀ fields ∈ (distinct list).filterMap fields?, ∀ f ∈ fields, V f.value :=
    fun fields hf =>
      hI.value fields (hI.consolidates h hlist _ (mem_of_mem_distinct (mem_filterMap_fields?.1 hf)))
  obtain ⟨hne, hvalues⟩ := hunites.forall_value hI.preserves hobjects
  exact he vs hne hvalues

/-- Nothing is left nested. -/
theorem isJoinedBy_of_mem_joinedMembers {m : Shape}
    (h : m ∈ joinedMembers c unite threshold members) : m.isJoinedBy c = false := by
  unfold joinedMembers at h
  dsimp only at h
  split at h
  · rcases mem_consolidate.1 h with ⟨hm, -⟩ | ⟨-, rfl⟩
    · exact isJoinedBy_of_mem_flatten (mem_of_mem_distinct hm)
    · rfl
  · rename_i hn
    simp only [List.any_eq_true, not_exists, not_and, Bool.not_eq_true] at hn
    exact hn m h

/-- The joined members are distinct. -/
theorem areDistinct_joinedMembers : AreDistinct (joinedMembers c unite threshold members) := by
  unfold joinedMembers
  dsimp only
  split <;> exact areDistinct_consolidate

/-- Consolidating the joined members again changes nothing, when objects with the
property merge to one that is merged to itself. -/
theorem JoinInvariant.consolidate_joinedMembers (hI : JoinInvariant c unite threshold M V)
    (h : ∀ m ∈ members, M m)
    (hself : ∀ objects, (∀ fields ∈ objects, M (.object fields)) →
      mergedFields c unite threshold [mergedFields c unite threshold objects] =
        mergedFields c unite threshold objects) :
    Shape.consolidate c unite threshold (Shape.joinedMembers c unite threshold members) =
      Shape.joinedMembers c unite threshold members := by
  have hobjects : ∀ list : List Shape, (∀ m ∈ list, M m) →
      ∀ fields ∈ (distinct list).filterMap fields?, M (.object fields) :=
    fun list hl fields hf => hl _ (mem_of_mem_distinct (mem_filterMap_fields?.1 hf))
  unfold Shape.joinedMembers
  dsimp only
  split
  · refine consolidate_consolidate (hself _ (hobjects _ ?_))
    exact forall_mem_flatten hI.inner (hI.consolidate h)
  · exact consolidate_consolidate (hself _ (hobjects _ h))

/-- What is joined of several members holds them, one stands for itself, and none
is any shape. -/
theorem ofMembers_cases (members : List Shape) :
    (members = [] ∧ ofMembers c members = .any) ∨
      (∃ m, members = [m] ∧ ofMembers c members = m) ∨
      (2 ≤ members.length ∧ ofMembers c members = .joined c members) := by
  match members with
  | [] => exact Or.inl ⟨rfl, rfl⟩
  | [m] => exact Or.inr (Or.inl ⟨m, rfl, rfl⟩)
  | a :: b :: rest => exact Or.inr (Or.inr ⟨by simp, rfl⟩)

end JoinedMembers

end TypedClient.Shape
