import Mathlib.Data.Multiset.ZeroCons
import TypedClient.Proofs.Reduction.Alternatives

/-!
# What splicing leaves

Joining makes members distinct and merges their objects, and when members are spliced in
it does both once more. The members other than objects are those that making all of them
distinct at once leaves, and in which order they are is seen in the order of what is left
and in which one of several is kept, but in nothing else. The objects that stand beside a
nested member are merged before those inside of it join them.
-/

namespace TypedClient.Shape

/-! ### Members that say the same -/

/-- Two shapes say the same when they are one shape, stand for all values of one kind, or
are equal constants. -/
inductive SaysSame : Shape → Shape → Prop where
  /-- A shape says what it says. -/
  | refl (s : Shape) : SaysSame s s
  /-- All values of one kind. -/
  | kind {a b : Shape} {k : Keyword} (ha : a.keyword? = some k) (hb : b.keyword? = some k) :
    SaysSame a b
  /-- Equal constants. -/
  | constant {v w : Json} (hv : v.isComposite = false) (h : v.same w = true) :
    SaysSame (.literal ⟨some v, true⟩) (.literal ⟨some w, true⟩)

/-- Whether a shape is of those that a list of members has once. -/
def isKeptOnce : Shape → Bool
  | .any | .void | .literal _ => true
  | _ => false

section SaysSame

variable {a b m : Shape} {precise : Bool}

/-- Equal constants are of one kind. -/
theorem keyword?_constant {v w : Json} (h : v.same w = true) :
    (Shape.literal ⟨some v, true⟩).keyword? = (Shape.literal ⟨some w, true⟩).keyword? :=
  keyword?_of_same (same_literal.2 ⟨h, rfl⟩)

/-- Shapes that say the same have the same keyword, if any. -/
theorem SaysSame.keyword?_eq (h : SaysSame a b) : a.keyword? = b.keyword? := by
  cases h with
  | refl => rfl
  | kind ha hb => exact ha.trans hb.symm
  | constant _ h => exact keyword?_constant h

theorem SaysSame.symm (h : SaysSame a b) : SaysSame b a := by
  cases h with
  | refl => exact .refl _
  | kind ha hb => exact .kind hb ha
  | constant hv h =>
    exact .constant ((Json.isComposite_eq_of_same h).symm.trans hv)
      ((Json.same_comm_of_scalar hv _).symm.trans h)

theorem SaysSame.trans {c : Shape} (h : SaysSame a b) (h' : SaysSame b c) : SaysSame a c := by
  cases h with
  | refl => exact h'
  | kind ha hb => exact .kind ha (h'.keyword?_eq ▸ hb)
  | constant hv h =>
    cases h' with
    | refl => exact .constant hv h
    | kind hb hc => exact .kind ((keyword?_constant h).trans hb) hc
    | constant _ h' => exact .constant hv (Json.same_trans_of_scalar hv h h')

instance : IsTrans Shape SaysSame := ⟨fun _ _ _ => SaysSame.trans⟩

/-- A shape with a keyword is kept once. -/
theorem isKeptOnce_of_keyword? {k : Keyword} (h : a.keyword? = some k) : a.isKeptOnce = true := by
  cases a <;> first | rfl | cases h

theorem SaysSame.isKeptOnce_eq (h : SaysSame a b) : a.isKeptOnce = b.isKeptOnce := by
  cases h with
  | refl => rfl
  | kind ha hb => rw [isKeptOnce_of_keyword? ha, isKeptOnce_of_keyword? hb]
  | constant => rfl

/-- What says nothing is kept once, if at all. -/
theorem isKeptOnce_of_isVacuous (h : a.isVacuous = true) : a.isKeptOnce = true := by
  unfold isVacuous at h
  split at h
  · rename_i k hk
    exact isKeptOnce_of_keyword? hk
  · cases h

/-- A constant is equal to the shapes that say the same only. -/
theorem same_constant_iff {v : Json} (hv : v.isComposite = false)
    (hk : (Shape.literal ⟨some v, true⟩).keyword? = none) :
    (a == Shape.literal ⟨some v, true⟩) = true ↔ SaysSame a (.literal ⟨some v, true⟩) := by
  constructor
  · intro h
    cases a with
    | literal l =>
      obtain ⟨value, constant⟩ := l
      obtain ⟨hvalue, rfl⟩ : _ ∧ constant = true := same_literal.1 h
      cases value with
      | none => cases hvalue
      | some w => exact .constant ((Json.isComposite_eq_of_same hvalue).trans hv) hvalue
    | _ => cases h
  · intro h
    cases h with
    | refl => exact same_literal.2 ⟨Json.same_self_of_scalar hv, rfl⟩
    | kind _ hb => cases hk.symm.trans hb
    | constant _ h => exact same_literal.2 ⟨h, rfl⟩

/-- A plain member repeats the shapes that say the same, if it is kept once. -/
theorem repeats_iff (hm : IsPlain precise m) :
    m.repeats a = true ↔ m.isKeptOnce = true ∧ SaysSame a m := by
  unfold repeats
  split
  · rename_i k hk
    rw [beq_iff_eq, isKeptOnce_of_keyword? hk]
    exact ⟨fun ha => ⟨rfl, .kind ha hk⟩, fun h => h.2.keyword?_eq.trans hk⟩
  · rename_i hk
    split
    · obtain ⟨v, rfl, hv⟩ := eq_constant_of_keyword?_eq_none hm.1 hk
      rw [same_constant_iff hv hk]
      exact ⟨fun h => ⟨rfl, h⟩, fun h => h.2⟩
    · rename_i hne
      refine ⟨fun h => (nomatch h), fun h => ?_⟩
      cases m with
      | any | void => cases hk
      | literal l => exact absurd rfl (hne l)
      | _ => cases h.1

/-- Of two plain members both repeat each other or neither does. -/
theorem repeats_comm (ha : IsPlain precise a) (hb : IsPlain precise b) :
    a.repeats b = b.repeats a := by
  rw [Bool.eq_iff_iff, repeats_iff ha, repeats_iff hb]
  exact ⟨fun h => ⟨h.2.isKeptOnce_eq.trans h.1, h.2.symm⟩,
    fun h => ⟨h.2.isKeptOnce_eq.trans h.1, h.2.symm⟩⟩

/-- A plain member repeats both of two shapes that say the same, or neither. -/
theorem SaysSame.repeats_eq (h : SaysSame a b) (hm : IsPlain precise m) :
    m.repeats a = m.repeats b := by
  rw [Bool.eq_iff_iff, repeats_iff hm, repeats_iff hm]
  exact and_congr_right fun _ => ⟨h.symm.trans, h.trans⟩

/-- Only what is kept once repeats anything or is repeated. -/
theorem isKeptOnce_of_repeats (h : m.repeats a = true) :
    m.isKeptOnce = true ∧ a.isKeptOnce = true := by
  unfold repeats at h
  split at h
  · rename_i k hk
    exact ⟨isKeptOnce_of_keyword? hk, isKeptOnce_of_keyword? (by simpa using h)⟩
  · split at h
    · refine ⟨rfl, ?_⟩
      cases a <;> first | rfl | cases h
    · cases h

end SaysSame

/-! ### Making parts of a list distinct -/

section Distinct

variable {seen seen' members members' : List Shape} {precise : Bool}

/-- What was seen counts by what it makes a member a repetition only. -/
theorem distinctFrom_congr
    (h : ∀ m ∈ members, seen.any (m.repeats ·) = seen'.any (m.repeats ·)) :
    distinctFrom seen members = distinctFrom seen' members := by
  induction members generalizing seen seen' with
  | nil => rfl
  | cons m rest ih =>
    obtain ⟨hm, hrest⟩ := List.forall_mem_cons.1 h
    have hseen : ∀ n ∈ rest, (m :: seen).any (n.repeats ·) = (m :: seen').any (n.repeats ·) :=
      fun n hn => by rw [List.any_cons, List.any_cons, hrest n hn]
    rw [distinctFrom, distinctFrom, hm, ih hrest, ih hseen]

/-- The second part of a list is compared with what is kept of the first. -/
theorem distinctFrom_append : distinctFrom seen (members ++ members') =
    distinctFrom seen members ++
      distinctFrom ((distinctFrom seen members).reverse ++ seen) members' := by
  induction members generalizing seen with
  | nil => rfl
  | cons m rest ih =>
    rw [List.cons_append, distinctFrom, distinctFrom]
    split
    · exact ih
    · rw [ih, List.cons_append, List.reverse_cons, List.append_assoc]
      rfl

/-- Making the first part of a list distinct beforehand changes nothing. -/
theorem distinct_distinct_append (members members' : List Shape) :
    distinct (distinct members ++ members') = distinct (members ++ members') := by
  have hself : distinctFrom [] (distinct members) = distinct members :=
    distinct_of_areDistinct (areDistinct_distinct members)
  rw [distinct, distinctFrom_append, hself, distinct, distinct, distinctFrom_append]

/-- A test that all pass that are kept once may come before or after. -/
theorem filter_distinctFrom {p : Shape → Bool} (hp : ∀ m, m.isKeptOnce = true → p m = true) :
    (distinctFrom seen members).filter p = distinctFrom seen (members.filter p) := by
  induction members generalizing seen with
  | nil => rfl
  | cons m rest ih =>
    cases hm : p m with
    | true =>
      rw [List.filter_cons_of_pos hm, distinctFrom, distinctFrom]
      split
      · exact ih
      · rw [List.filter_cons_of_pos hm, ih]
    | false =>
      have hmany : ¬ m.isKeptOnce = true := fun h => by simp [hp m h] at hm
      have hfails : ¬ p m = true := by simp [hm]
      rw [List.filter_cons_of_neg hfails, distinctFrom]
      split
      · exact ih
      · -- it is seen from here on, but nothing repeats it
        rw [List.filter_cons_of_neg hfails, ih]
        refine distinctFrom_congr fun n _ => ?_
        have hn : n.repeats m = false := by
          by_contra h
          exact hmany (isKeptOnce_of_repeats (by simpa using h)).2
        rw [List.any_cons, hn, Bool.false_or]

theorem filter_distinct {p : Shape → Bool} (hp : ∀ m, m.isKeptOnce = true → p m = true) :
    (distinct members).filter p = distinct (members.filter p) :=
  filter_distinctFrom hp

/-- Parts that only members have that are always kept are all kept. -/
theorem flatMap_distinctFrom {α : Type} {g : Shape → List α}
    (hg : ∀ m, m.isKeptOnce = true → g m = []) :
    (distinctFrom seen members).flatMap g = members.flatMap g := by
  induction members generalizing seen with
  | nil => rfl
  | cons m rest ih =>
    rw [distinctFrom]
    split
    · rename_i hdropped
      have honce : m.isKeptOnce = true := by
        rcases Bool.or_eq_true _ _ ▸ hdropped with hv | hr
        · exact isKeptOnce_of_isVacuous hv
        · obtain ⟨a, -, ha⟩ := List.any_eq_true.1 hr
          exact (isKeptOnce_of_repeats ha).1
      rw [List.flatMap_cons, hg m honce, List.nil_append, ih]
    · rw [List.flatMap_cons, List.flatMap_cons, ih]

/-- Whether a member is left out, after some were seen. -/
def isDropped (seen : List Shape) (m : Shape) : Bool := m.isVacuous || seen.any (m.repeats ·)

theorem distinctFrom_cons_of_isDropped {m : Shape} (h : isDropped seen m = true) :
    distinctFrom seen (m :: members) = distinctFrom seen members :=
  if_pos h

theorem distinctFrom_cons_of_not_isDropped {m : Shape} (h : isDropped seen m = false) :
    distinctFrom seen (m :: members) = m :: distinctFrom (m :: seen) members :=
  if_neg (by simpa [isDropped] using h)

/-- With one more seen, a member is left out too when it repeats that one. -/
theorem isDropped_cons (a m : Shape) :
    isDropped (a :: seen) m = (m.repeats a || isDropped seen m) := by
  rw [isDropped, isDropped, List.any_cons, Bool.or_left_comm]

/-- Two neighbours in the other order leave the same, up to which one of the two is kept. -/
theorem rel_distinctFrom_swap {a b : Shape} (ha : IsPlain precise a) (hb : IsPlain precise b)
    (hplain : ∀ m ∈ members, IsPlain precise m) :
    Multiset.Rel SaysSame (distinctFrom seen (b :: a :: members))
      (distinctFrom seen (a :: b :: members)) := by
  have hrefl : ∀ list : List Shape, Multiset.Rel SaysSame list list :=
    fun list => Multiset.rel_refl_of_refl_on fun s _ => .refl s
  cases hda : isDropped seen a with
  | true =>
    have hda' : isDropped (b :: seen) a = true := by rw [isDropped_cons, hda, Bool.or_true]
    rw [distinctFrom_cons_of_isDropped hda]
    cases hdb : isDropped seen b with
    | true =>
      rw [distinctFrom_cons_of_isDropped hdb, distinctFrom_cons_of_isDropped hda,
        distinctFrom_cons_of_isDropped hdb]
      exact hrefl _
    | false =>
      rw [distinctFrom_cons_of_not_isDropped hdb, distinctFrom_cons_of_isDropped hda',
        distinctFrom_cons_of_not_isDropped hdb]
      exact hrefl _
  | false =>
    rw [distinctFrom_cons_of_not_isDropped hda]
    cases hdb : isDropped seen b with
    | true =>
      have hdb' : isDropped (a :: seen) b = true := by rw [isDropped_cons, hdb, Bool.or_true]
      rw [distinctFrom_cons_of_isDropped hdb, distinctFrom_cons_of_isDropped hdb',
        distinctFrom_cons_of_not_isDropped hda]
      exact hrefl _
    | false =>
      have hdb' : isDropped (a :: seen) b = a.repeats b := by
        rw [isDropped_cons, hdb, Bool.or_false, repeats_comm hb ha]
      have hda' : isDropped (b :: seen) a = a.repeats b := by
        rw [isDropped_cons, hda, Bool.or_false]
      rw [distinctFrom_cons_of_not_isDropped hdb]
      cases hr : a.repeats b with
      | true =>
        -- one of the two stands for both, and what follows repeats the one or the other alike
        have hsame : SaysSame b a := ((repeats_iff ha).1 hr).2
        have hseen : distinctFrom (b :: seen) members = distinctFrom (a :: seen) members :=
          distinctFrom_congr fun m hm => by
            rw [List.any_cons, List.any_cons, hsame.repeats_eq (hplain m hm)]
        rw [distinctFrom_cons_of_isDropped (hda'.trans hr),
          distinctFrom_cons_of_isDropped (hdb'.trans hr), hseen]
        exact .cons hsame (hrefl _)
      | false =>
        have hseen : distinctFrom (a :: b :: seen) members =
            distinctFrom (b :: a :: seen) members :=
          distinctFrom_congr fun m _ => by simp only [List.any_cons, Bool.or_left_comm]
        rw [distinctFrom_cons_of_not_isDropped (hda'.trans hr),
          distinctFrom_cons_of_not_isDropped (hdb'.trans hr), hseen,
          Multiset.coe_eq_coe.2 (List.Perm.swap a b _)]
        exact hrefl _

/-- In another order the same is left, in another order and up to which one is kept of
those that say the same. -/
theorem rel_distinctFrom_of_perm (hperm : members.Perm members')
    (hplain : ∀ m ∈ members, IsPlain precise m) (seen : List Shape) :
    Multiset.Rel SaysSame (distinctFrom seen members) (distinctFrom seen members') := by
  induction hperm generalizing seen with
  | nil => exact .zero
  | cons m _ ih =>
    have ih := ih fun n hn => hplain n (List.mem_cons_of_mem _ hn)
    rw [distinctFrom, distinctFrom]
    split
    · exact ih seen
    · exact .cons (.refl m) (ih (m :: seen))
  | swap a b rest =>
    exact rel_distinctFrom_swap (hplain a (by simp)) (hplain b (by simp)) fun m hm =>
      hplain m (by simp [hm])
  | trans h _ ih ih' =>
    exact (ih hplain seen).trans _ (ih' (fun m hm => hplain m (h.mem_iff.2 hm)) seen)

end Distinct

/-! ### What joining leaves -/

/-- The objects that are left of objects: the one that they are merged into, if it has
fields. -/
def merge (c : Connective) (unite : List Shape → Shape) (threshold : Nat)
    (objects : List (List (Field Shape))) : List (List (Field Shape)) :=
  (asMembers (mergedFields c unite threshold objects)).filterMap fields?

/-- The objects that are merged before anything is spliced in: those beside a nested member. -/
def earlyObjects (c : Connective) (members : List Shape) : List (List (Field Shape)) :=
  if members.any (isJoinedBy c) then members.filterMap fields? else []

/-- The other objects, merged with what these are merged into: those inside of nested members,
or all when there is no nested one. -/
def lateObjects (c : Connective) (members : List Shape) : List (List (Field Shape)) :=
  if members.any (isJoinedBy c) then (innerMembers c members).filterMap fields?
  else members.filterMap fields?

section Joined

variable {c : Connective} {unite : List Shape → Shape} {threshold : Nat} {members : List Shape}
  {objects : List (List (Field Shape))}

theorem mem_merge {fields : List (Field Shape)} : fields ∈ merge c unite threshold objects ↔
    mergedFields c unite threshold objects ≠ [] ∧
      fields = mergedFields c unite threshold objects := by
  rw [merge, mem_filterMap_fields?, mem_asMembers, object.injEq]

/-- Objects with fields are merged into one. -/
theorem merge_of_ne_nil (h : mergedFields c unite threshold objects ≠ []) :
    merge c unite threshold objects = [mergedFields c unite threshold objects] := by
  rw [merge]
  generalize mergedFields c unite threshold objects = merged at h ⊢
  cases merged with
  | nil => exact absurd rfl h
  | cons f rest => rfl

@[simp] theorem merge_nil : merge c unite threshold [] = [] := by
  rw [merge, mergedFields_eq_nil_iff.2 (by simp)]
  rfl

/-- Parts that only members have that pass a test are those of the members that pass it. -/
theorem flatMap_filter {α : Type} {p : Shape → Bool} {g : Shape → List α}
    (hg : ∀ m, p m = false → g m = []) : (members.filter p).flatMap g = members.flatMap g := by
  induction members with
  | nil => rfl
  | cons m rest ih =>
    cases hm : p m with
    | true => rw [List.filter_cons_of_pos hm, List.flatMap_cons, List.flatMap_cons, ih]
    | false =>
      rw [List.filter_cons_of_neg (by simp [hm]), List.flatMap_cons, hg m hm, ih, List.nil_append]

/-- The objects of a distinct list are all. -/
theorem filterMap_fields?_distinct :
    (distinct members).filterMap fields? = members.filterMap fields? := by
  rw [List.filterMap_eq_flatMap_toList, List.filterMap_eq_flatMap_toList]
  refine flatMap_distinctFrom fun m hm => ?_
  cases m <;> first | rfl | cases hm

/-- The objects of a consolidated list are merged. -/
theorem filterMap_fields?_consolidate : (consolidate c unite threshold members).filterMap fields? =
    merge c unite threshold (members.filterMap fields?) := by
  have hothers : ((distinct members).filter (!·.isObject)).filterMap fields? = [] := by
    rw [List.eq_nil_iff_forall_not_mem]
    intro fields hf
    rw [mem_filterMap_fields?, List.mem_filter] at hf
    simp [isObject] at hf
  rw [consolidate, mergeObjects_eq, List.filterMap_append, hothers, List.nil_append,
    filterMap_fields?_distinct]
  rfl

/-- What is no object in a consolidated list is what making the members distinct leaves. -/
theorem filter_isObject_consolidate : (consolidate c unite threshold members).filter (!·.isObject) =
    distinct (members.filter (!·.isObject)) := by
  have hmerged : ∀ fields, (asMembers fields).filter (!·.isObject) = [] := by
    intro fields
    cases fields <;> rfl
  rw [consolidate, mergeObjects_eq, List.filter_append, hmerged, List.append_nil,
    List.filter_filter, ← filter_distinct]
  · simp
  · intro m hm
    cases m <;> first | rfl | cases hm

/-- Consolidating leaves what there is to splice in. -/
theorem innerMembers_consolidate :
    innerMembers c (consolidate c unite threshold members) = innerMembers c members := by
  have hmerged : ∀ fields, (asMembers fields).flatMap (spliced c) = [] := by
    intro fields
    cases fields <;> rfl
  have hothers : ((distinct members).filter (!·.isObject)).flatMap (spliced c) =
      (distinct members).flatMap (spliced c) := by
    refine flatMap_filter fun m hm => ?_
    cases m <;> first | rfl | cases hm
  rw [innerMembers_eq_flatMap, innerMembers_eq_flatMap, consolidate, mergeObjects_eq,
    List.flatMap_append, hmerged, List.append_nil, hothers]
  refine flatMap_distinctFrom fun m hm => ?_
  cases m <;> first | rfl | cases hm

/-- Consolidating leaves a nested member when there is one. -/
theorem any_isJoinedBy_consolidate :
    (consolidate c unite threshold members).any (isJoinedBy c) = members.any (isJoinedBy c) := by
  rw [Bool.eq_iff_iff, List.any_eq_true, List.any_eq_true]
  constructor
  · rintro ⟨m, hm, hnested⟩
    rcases mem_consolidate.1 hm with ⟨hm, -⟩ | ⟨-, rfl⟩
    · exact ⟨m, mem_of_mem_distinct hm, hnested⟩
    · cases hnested
  · rintro ⟨m, hm, hnested⟩
    cases m with
    | joined d inner =>
      obtain ⟨k, hk, rfl | hr⟩ := exists_of_mem_distinct hm rfl
      · exact ⟨_, mem_consolidate.2 (Or.inl ⟨hk, rfl⟩), hnested⟩
      · cases (isKeptOnce_of_repeats hr).1
    | _ => cases hnested

/-- Of members that are joined the ones that are no objects are those that making all
members distinct leaves, the nested ones spliced in. -/
theorem filter_isObject_joinedMembers :
    (joinedMembers c unite threshold members).filter (!·.isObject) =
      distinct ((flatten c members).filter (!·.isObject)) := by
  unfold joinedMembers
  dsimp only
  rw [any_isJoinedBy_consolidate]
  split
  · have honce : ((consolidate c unite threshold members).filter (!·.isJoinedBy c)).filter
        (!·.isObject) = distinct ((members.filter (!·.isJoinedBy c)).filter (!·.isObject)) := by
      rw [List.filter_comm, filter_isObject_consolidate, filter_distinct, List.filter_comm]
      intro m hm
      cases m <;> first | rfl | cases hm
    rw [filter_isObject_consolidate, flatten, innerMembers_consolidate, List.filter_append, honce,
      distinct_distinct_append, flatten, List.filter_append]
  · rename_i hflat
    rw [filter_isObject_consolidate, flatten_eq_self]
    simpa using hflat

/-- An object is not nested. -/
theorem filterMap_fields?_filter :
    (members.filter (!·.isJoinedBy c)).filterMap fields? = members.filterMap fields? := by
  rw [List.filterMap_eq_flatMap_toList, List.filterMap_eq_flatMap_toList]
  refine flatMap_filter fun m hm => ?_
  cases m <;> first | rfl | cases hm

/-- The objects of members, those inside of nested ones too. -/
theorem filterMap_fields?_flatten : (flatten c members).filterMap fields? =
    earlyObjects c members ++ lateObjects c members := by
  unfold earlyObjects lateObjects
  split
  · rw [flatten, List.filterMap_append, filterMap_fields?_filter]
  · rename_i hflat
    rw [flatten_eq_self (by simpa using hflat), List.nil_append]

/-- The objects of members that are joined are merged, those beside a nested member before
those inside of it join them. -/
theorem filterMap_fields?_joinedMembers : (joinedMembers c unite threshold members).filterMap
    fields? = merge c unite threshold
      (merge c unite threshold (earlyObjects c members) ++ lateObjects c members) := by
  unfold joinedMembers earlyObjects lateObjects
  dsimp only
  rw [any_isJoinedBy_consolidate]
  split
  · rw [filterMap_fields?_consolidate, flatten, innerMembers_consolidate, List.filterMap_append,
      filterMap_fields?_filter, filterMap_fields?_consolidate]
  · rw [filterMap_fields?_consolidate, merge_nil, List.nil_append]

end Joined

end TypedClient.Shape
