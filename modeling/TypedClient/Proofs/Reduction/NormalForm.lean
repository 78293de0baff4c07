import TypedClient.Proofs.Reduction.Idempotence

/-!
# The normal form of reduced shapes

What can be relied on in a reduced shape: the members of its unions and
intersections are several, say something, repeat nothing and are not nested, and
their objects are merged into one that stands last and is not too wide. Keys stay
unique, and no literal is left that widening would change. That the members of a
joined part are what consolidating them leaves is the invariant behind all of
this.
-/

namespace TypedClient.Shape

/-- Whether a shape stands for all values of a kind. -/
def isGeneral (kind : Keyword) : Shape → Bool
  | .literal ⟨some value, false⟩ => value.keyword? == some kind
  | _ => false

/-- Two shapes that are constants have different values. -/
def ConstantsDiffer (a b : Shape) : Prop :=
  ∀ v w, a = .constant v → b = .constant w → v.same w = false ∧ w.same v = false

/-- The object among members has fields, not too many, and none that is nullish. -/
structure IsMergedObject (threshold : Nat) (fields : List (Field Shape)) : Prop where
  /-- There is a field. -/
  nonempty : fields ≠ []
  /-- There are no more fields than the threshold, or there is one. -/
  length_le : fields.length ≤ max 1 threshold
  /-- No value can only be null or undefined. -/
  not_nullish : ∀ f ∈ fields, f.value.isNullish = false

/-- The members of a joined shape in normal form. -/
structure NormalMembers (threshold : Nat) (c : Connective) (members : List Shape) : Prop where
  /-- There are several. -/
  two_le_length : 2 ≤ members.length
  /-- None is joined by the same connective. -/
  not_nested : ∀ inner, Shape.joined c inner ∉ members
  /-- None is anything. -/
  any_not_mem : Shape.any ∉ members
  /-- None is void. -/
  void_not_mem : Shape.void ∉ members
  /-- None is null or undefined. -/
  not_nullish : ∀ m ∈ members, m.isNullish = false
  /-- At most one stands for all values of a kind. -/
  general_le_one : ∀ kind, (members.filter (isGeneral kind)).length ≤ 1
  /-- Constants are pairwise different. -/
  constants_differ : members.Pairwise ConstantsDiffer
  /-- There is at most one object. It stands last and is merged. -/
  object_last : ∀ before fields after, members = before ++ .object fields :: after →
    after = [] ∧ IsMergedObject threshold fields

section Distinct

/-- A shape that stands for all values of a kind has the keyword of that kind. -/
theorem keyword?_of_isGeneral {kind : Keyword} {s : Shape} (h : s.isGeneral kind = true) :
    s.keyword? = some kind := by
  unfold isGeneral at h
  split at h
  · rename_i value
    rw [beq_iff_eq] at h
    cases value <;> simp_all [keyword?, Literal.keyword?, Json.keyword?]
  · contradiction

/-- Of two shapes that stand for all values of one kind, each repeats the other. -/
theorem repeats_of_isGeneral {kind : Keyword} {earlier later : Shape}
    (he : earlier.isGeneral kind = true) (hl : later.isGeneral kind = true) :
    later.repeats earlier = true := by
  unfold repeats
  simp only [keyword?_of_isGeneral hl, keyword?_of_isGeneral he, beq_self_eq_true]

/-- A constant that says something and does not repeat another has a different value. -/
theorem same_eq_false_of_repeats_eq_false {v w : Json} (hw : (constant w).isVacuous = false)
    (h : (constant w).repeats (constant v) = false) : v.same w = false := by
  have hk : (constant w).keyword? = none := by
    cases w <;> first | rfl | simp [constant, isVacuous, keyword?, Literal.keyword?,
      Keyword.isVacuous] at hw
  have hsame : (constant w).repeats (constant v) = (v.same w && (true == true)) := by
    unfold repeats
    simp only [hk]
    rfl
  rw [hsame] at h
  simpa using h

variable {members : List Shape}

/-- A distinct list has at most one member that stands for all values of a kind. -/
theorem AreDistinct.length_filter_isGeneral_le (h : AreDistinct members) (kind : Keyword) :
    (members.filter (isGeneral kind)).length ≤ 1 := by
  have hp := h.unrepeated.sublist (List.filter_sublist (p := isGeneral kind))
  have hg : ∀ m ∈ members.filter (isGeneral kind), m.isGeneral kind = true :=
    fun m hm => (List.mem_filter.1 hm).2
  generalize members.filter (isGeneral kind) = general at hp hg
  match general with
  | [] => exact Nat.zero_le _
  | [_] => exact Nat.le_refl _
  | a :: b :: rest =>
    have hr : b.repeats a = false := (List.pairwise_cons.1 hp).1 b List.mem_cons_self
    rw [repeats_of_isGeneral (hg a List.mem_cons_self)
      (hg b (List.mem_cons_of_mem a List.mem_cons_self))] at hr
    contradiction

/-- The constants in a distinct list of plain shapes are pairwise different. -/
theorem AreDistinct.constantsDiffer {precise : Bool} (h : AreDistinct members)
    (hp : ∀ m ∈ members, IsPlain precise m) : members.Pairwise ConstantsDiffer := by
  refine h.unrepeated.imp_of_mem fun {a b} ha hb hr => ?_
  rintro v w rfl rfl
  have hvw := same_eq_false_of_repeats_eq_false (h.informative _ hb) hr
  exact ⟨hvw, by rw [← Json.same_comm_of_scalar (hp _ ha).1, hvw]⟩

end Distinct

section Members

variable {c : Connective} {threshold : Nat} {members : List Shape}

/-- In a consolidated list an object stands last, and it is the merged one. -/
theorem eq_of_consolidate_eq_append {unite : List Shape → Shape} {before after : List Shape}
    {fields : List (Field Shape)}
    (h : consolidate c unite threshold members = before ++ .object fields :: after) :
    after = [] ∧ fields ≠ [] ∧
      fields = mergedFields c unite threshold ((distinct members).filterMap fields?) := by
  rw [consolidate, mergeObjects_eq] at h
  have hothers : Shape.object fields ∉ (distinct members).filter (!·.isObject) := by
    simp [isObject]
  generalize (distinct members).filter (!·.isObject) = others at h hothers
  generalize mergedFields c unite threshold ((distinct members).filterMap fields?) = merged at h ⊢
  cases merged with
  | nil =>
    rw [asMembers, List.append_nil] at h
    exact absurd (h ▸ by simp) hothers
  | cons f rest =>
    rcases List.eq_nil_or_concat after with rfl | ⟨init, last, rfl⟩
    · obtain ⟨-, hlast⟩ := List.append_inj' h rfl
      cases hlast
      exact ⟨rfl, List.cons_ne_nil _ _, rfl⟩
    · have hsplit : others ++ [.object (f :: rest)] =
          (before ++ .object fields :: init) ++ [last] := by
        rw [List.concat_eq_append] at h
        rw [List.append_assoc, List.cons_append]
        exact h
      obtain ⟨hinit, -⟩ := List.append_inj' hsplit rfl
      exact absurd (hinit ▸ by simp) hothers

/-- Members that joining leaves as they are, with plain literals, are in normal form. -/
theorem normalMembers_of_isJoined {precise : Bool} (h : IsJoined threshold (.joined c members))
    (hp : ∀ m ∈ members, IsPlain precise m) : NormalMembers threshold c members := by
  obtain ⟨hlen, hnest, hself⟩ := h
  have hd : AreDistinct members := hself ▸ areDistinct_consolidate
  refine ⟨hlen, fun inner hm => ?_, fun hm => ?_, fun hm => ?_, fun m hm => ?_,
    hd.length_filter_isGeneral_le, hd.constantsDiffer hp, fun before fields after he => ?_⟩
  · simpa [isJoinedBy] using hnest _ hm
  · exact absurd (hd.informative _ hm) (by simp [isVacuous, keyword?, Keyword.isVacuous])
  · exact absurd (hd.informative _ hm) (by simp [isVacuous, keyword?, Keyword.isVacuous])
  · by_contra hn
    have hv := hd.informative m hm
    rw [isVacuous_of_isNullish (by simpa using hn)] at hv
    contradiction
  · obtain ⟨hafter, hne, hmerged⟩ := eq_of_consolidate_eq_append (hself.trans he)
    refine ⟨hafter, hne, ?_, fun f hf => ?_⟩
    · rw [hmerged]
      exact length_mergedFields_le
    · exact isNullish_mergedFields isNullish_united (hmerged ▸ hf)

end Members

/-- The normal form of reduced shapes: every joined part has members in normal
form, every object has its keys once, and no literal is composite, nor constant
when precision is not kept. -/
theorem normal_reduce (reduction : Reduction) (s : Shape)
    (unique : ∀ fields, Occurs (.object fields) s → (Field.keys fields).Nodup) :
    (∀ c members, Occurs (.joined c members) (s.reduce reduction) →
      NormalMembers reduction.dictionaryThreshold c members) ∧
    (∀ fields, Occurs (.object fields) (s.reduce reduction) → (Field.keys fields).Nodup) ∧
    ∀ l, Occurs (.literal l) (s.reduce reduction) →
      l.isComposite = false ∧ (reduction.precise = false → l.constant = false) := by
  have hkeys : Everywhere HasUniqueKeys s := by
    intro t ht
    cases t with
    | object fields => exact unique fields ht
    | _ => trivial
  have hplain := everywhere_isPlain_reduce reduction s
  refine ⟨fun c members hm => ?_, fun fields hf => ?_, fun l hl => ?_⟩
  · have hjoined : IsJoined reduction.dictionaryThreshold (.joined c members) :=
      isSettled_settle (s.widen reduction.precise) _ hm
    have hmembers : ∀ m ∈ members, IsPlain reduction.precise m :=
      fun m hmem => hplain m (Occurs.trans (.member hmem .whole) hm)
    exact normalMembers_of_isJoined hjoined hmembers
  · exact everywhere_hasUniqueKeys_reduce reduction hkeys _ hf
  · obtain ⟨hs, hc⟩ := hplain _ hl
    refine ⟨hs, fun hp => ?_⟩
    by_contra hconst
    rw [hc (by simpa using hconst)] at hp
    contradiction

/-- Of a union with unions nested in it, one text and one object are left, and the
object stands last. -/
theorem normal_reduce_union :
    let s : Shape := .joined .or [.string,
      .joined .and [.joined .or [.object [.named "id" .number],
        .object [.named "id" .string, .named "owner" .null]]],
      .joined .or [.constant (.string "sold"), .object [.named "tag" .boolean]]]
    (∀ fields, Occurs (.object fields) s → (Field.keys fields).Nodup) ∧
      NormalMembers 20 .or [.string, .object [
        { Field.named "id" (.joined .or [.number, .string]) with optional := true },
        { Field.named "owner" .any with optional := true },
        { Field.named "tag" .boolean with optional := true }]] := by
  intro s
  have unique : ∀ fields, Occurs (.object fields) s → (Field.keys fields).Nodup := by
    intro fields h
    have hs : Everywhere HasUniqueKeys s := by
      simp [s, HasUniqueKeys, Field.keys, Field.named, string, number, boolean, null, constant]
    exact hs _ h
  have hr : s.reduce {} = .joined .or [.string, .object [
      { Field.named "id" (.joined .or [.number, .string]) with optional := true },
      { Field.named "owner" .any with optional := true },
      { Field.named "tag" .boolean with optional := true }]] := by cbv
  refine ⟨unique, (normal_reduce {} s unique).1 .or _ ?_⟩
  rw [hr]
  exact .whole

end TypedClient.Shape
