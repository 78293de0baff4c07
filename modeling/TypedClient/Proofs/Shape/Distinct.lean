import TypedClient.Shape.Distinct

/-!
# Lists of distinct members

A list is distinct when every member says something and none repeats an earlier
one. Making a list distinct keeps a part of it in order, the result is distinct,
a list that is distinct already stays as it is, and every member that says
something is kept or repeats one that is.
-/

namespace TypedClient.Shape

/-- Every member says something and none repeats an earlier one. -/
structure AreDistinct (members : List Shape) : Prop where
  /-- No member is left out for saying nothing. -/
  informative : ∀ m ∈ members, m.isVacuous = false
  /-- No member repeats an earlier one. -/
  unrepeated : members.Pairwise fun earlier later => later.repeats earlier = false

@[simp] theorem isVacuous_object (fields : List (Field Shape)) :
    (Shape.object fields).isVacuous = false := rfl

/-- An object repeats nothing. -/
@[simp] theorem repeats_object (fields : List (Field Shape)) (earlier : Shape) :
    (Shape.object fields).repeats earlier = false := rfl

/-- A part of a distinct list is distinct. -/
theorem AreDistinct.sublist {kept members : List Shape} (h : AreDistinct members)
    (hs : kept.Sublist members) : AreDistinct kept :=
  ⟨fun m hm => h.informative m (hs.subset hm), h.unrepeated.sublist hs⟩

/-- An object may stand at the end of any distinct list. -/
theorem AreDistinct.concat_object {members : List Shape} (h : AreDistinct members)
    (fields : List (Field Shape)) : AreDistinct (members ++ [.object fields]) := by
  refine ⟨fun m hm => ?_, List.pairwise_append.2 ⟨h.unrepeated, List.pairwise_singleton _ _, ?_⟩⟩
  · rcases List.mem_append.1 hm with hm | hm
    · exact h.informative m hm
    · rw [List.mem_singleton.1 hm, isVacuous_object]
  · intro m _ o ho
    rw [List.mem_singleton.1 ho, repeats_object]

/-- Nothing that is kept repeats a member seen before. -/
theorem repeats_eq_false_of_mem_distinctFrom {seen members : List Shape} {s a : Shape}
    (h : s ∈ distinctFrom seen members) (ha : a ∈ seen) : s.repeats a = false := by
  induction members generalizing seen with
  | nil => simp [distinctFrom] at h
  | cons m rest ih =>
    unfold distinctFrom at h
    split at h
    · exact ih h ha
    · rename_i hm
      rcases List.mem_cons.1 h with rfl | h
      · simp only [Bool.or_eq_true, not_or, Bool.not_eq_true, List.any_eq_false] at hm
        exact hm.2 a ha
      · exact ih h (List.mem_cons_of_mem _ ha)

/-- What is kept is distinct. -/
theorem areDistinct_distinctFrom (seen members : List Shape) :
    AreDistinct (distinctFrom seen members) := by
  refine ⟨fun m hm => isVacuous_of_mem_distinctFrom hm, ?_⟩
  induction members generalizing seen with
  | nil => exact List.Pairwise.nil
  | cons m rest ih =>
    unfold distinctFrom
    split
    · exact ih seen
    · refine List.pairwise_cons.2 ⟨fun a ha => ?_, ih (m :: seen)⟩
      exact repeats_eq_false_of_mem_distinctFrom ha List.mem_cons_self

/-- A distinct list without repetitions of what was seen is kept whole. -/
theorem distinctFrom_of_areDistinct {seen members : List Shape} (h : AreDistinct members)
    (hs : ∀ m ∈ members, ∀ a ∈ seen, m.repeats a = false) :
    distinctFrom seen members = members := by
  induction members generalizing seen with
  | nil => rfl
  | cons m rest ih =>
    obtain ⟨hfirst, hrest⟩ := List.pairwise_cons.1 h.unrepeated
    have hv : m.isVacuous = false := h.informative m List.mem_cons_self
    have ha : seen.any (m.repeats ·) = false := by
      simpa using hs m List.mem_cons_self
    rw [distinctFrom, hv, ha]
    simp only [Bool.or_self, Bool.false_eq_true, if_false, List.cons.injEq, true_and]
    refine ih (h.sublist (List.sublist_cons_self m rest)) fun a hm b hb => ?_
    rcases List.mem_cons.1 hb with rfl | hb
    · exact hfirst a hm
    · exact hs a (List.mem_cons_of_mem _ hm) b hb

/-- A member that says something is kept, or repeats one that is kept or was seen. -/
theorem exists_of_mem_distinctFrom (seen : List Shape) {members : List Shape} {m : Shape}
    (hm : m ∈ members) (hv : m.isVacuous = false) :
    ∃ k, (k ∈ distinctFrom seen members ∨ k ∈ seen) ∧ (k = m ∨ m.repeats k = true) := by
  induction members generalizing seen with
  | nil => simp at hm
  | cons a rest ih =>
    by_cases hd : (a.isVacuous || seen.any (a.repeats ·)) = true
    · rw [distinctFrom, if_pos hd]
      rcases List.mem_cons.1 hm with rfl | hm
      · simp only [hv, Bool.false_or, List.any_eq_true] at hd
        obtain ⟨k, hk, hr⟩ := hd
        exact ⟨k, Or.inr hk, Or.inr hr⟩
      · exact ih seen hm
    · rw [distinctFrom, if_neg hd]
      rcases List.mem_cons.1 hm with rfl | hm
      · exact ⟨m, Or.inl List.mem_cons_self, Or.inl rfl⟩
      · obtain ⟨k, hk, hr⟩ := ih (a :: seen) hm
        refine ⟨k, ?_, hr⟩
        rcases hk with hk | hk
        · exact Or.inl (List.mem_cons_of_mem _ hk)
        · rcases List.mem_cons.1 hk with rfl | hk
          · exact Or.inl List.mem_cons_self
          · exact Or.inr hk

/-- What making a list distinct keeps is distinct. -/
theorem areDistinct_distinct (members : List Shape) : AreDistinct (distinct members) :=
  areDistinct_distinctFrom [] members

/-- Every member that is kept was there. -/
theorem mem_of_mem_distinct {members : List Shape} {s : Shape} (h : s ∈ distinct members) :
    s ∈ members :=
  mem_of_mem_distinctFrom h

/-- A distinct list stays as it is. -/
theorem distinct_of_areDistinct {members : List Shape} (h : AreDistinct members) :
    distinct members = members :=
  distinctFrom_of_areDistinct h (by simp)

/-- A member that says something is kept, or repeats one that is. -/
theorem exists_of_mem_distinct {members : List Shape} {m : Shape} (hm : m ∈ members)
    (hv : m.isVacuous = false) : ∃ k ∈ distinct members, k = m ∨ m.repeats k = true := by
  obtain ⟨k, hk, hr⟩ := exists_of_mem_distinctFrom [] hm hv
  exact ⟨k, hk.resolve_right List.not_mem_nil, hr⟩

end TypedClient.Shape
