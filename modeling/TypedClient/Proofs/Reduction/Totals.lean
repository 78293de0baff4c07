import TypedClient.Proofs.Reduction.Inheritance
import TypedClient.Proofs.Shape.Total

/-!
# Totals that reduction keeps

Reducing moves leaves: under the key of a merged field, into the value of a
dictionary, out of a nested union. An absorbed weight has the same total before
and after each of these moves, so settling a shape does not change its total.
Widening puts another shape in the place of a literal, and changes no total when
that shape weighs what the literal did.
-/

namespace TypedClient.Shape

/-- A function unites some shapes with a property to one of the same total. -/
def KeepsTotal {M : Type} [AddCommMonoid M] (weight : Shape → M) (V : Shape → Prop)
    (unite : List Shape → Shape) : Prop :=
  ∀ vs, vs ≠ [] → (∀ v ∈ vs, V v) → (unite vs).total weight = totalAll weight vs

section Moves

variable {M : Type} [AddCommMonoid M] {weight : Shape → M} {V P : Shape → Prop}
  {c : Connective} {unite : List Shape → Shape} {threshold : Nat} {members : List Shape}

/-- What the values of merged fields weigh together. -/
def totalMerged (weight : Shape → M) (merged : List Merged) : M :=
  totalAll weight (merged.map fun m => m.field.value)

/-- An absorbed field weighs what it weighed by itself. -/
theorem totalMerged_absorb (hU : KeepsTotal weight V unite) {field : Field Shape}
    {acc : List Merged} (hf : V field.value) (h : ∀ m ∈ acc, V m.field.value) :
    totalMerged weight (absorb unite field acc) =
      totalMerged weight acc + field.value.total weight := by
  induction acc with
  | nil => simp [absorb, totalMerged]
  | cons e rest ih =>
    by_cases hk : e.field.key = field.key
    · have hunited : (unite [e.field.value, field.value]).total weight =
          e.field.value.total weight + field.value.total weight := by
        have hpair := hU [e.field.value, field.value] (by simp)
          (by simpa using ⟨h e List.mem_cons_self, hf⟩)
        simpa using hpair
      simp only [absorb, if_pos hk, totalMerged, uniteFields, List.map_cons, totalAll_cons, hunited]
      ac_rfl
    · have hrest := ih fun m hm => h m (List.mem_cons_of_mem _ hm)
      simp only [totalMerged] at hrest
      simp only [absorb, if_neg hk, totalMerged, List.map_cons, totalAll_cons, hrest, add_assoc]

/-- Merging fields keeps what their values weigh together. -/
theorem totalMerged_mergeAll (hP : Preserves unite V) (hU : KeepsTotal weight V unite)
    {fields : List (Field Shape)} (h : ∀ f ∈ fields, V f.value) :
    totalMerged weight (mergeAll unite fields) = totalAll weight (fields.map Field.value) := by
  induction fields using List.reverseRecOn with
  | nil => rfl
  | append_singleton fields field ih =>
    have hs : ∀ f ∈ fields, V f.value := fun f hf => h f (by simp [hf])
    have hfield : V field.value := h field (by simp)
    rw [mergeAll_concat, totalMerged_absorb hU hfield (value_mergeAll hP hs), ih hs]
    simp

/-- Opening nullish values changes no total. -/
theorem total_toField_value (hw : IsAbsorbed weight) {sources : Nat} (m : Merged) :
    (m.toField c sources).value.total weight = m.field.value.total weight := by
  rw [Merged.toField_value]
  split
  · rename_i hn
    have hv := isVacuous_of_isNullish hn
    have hany : (Shape.any).isVacuous = true := rfl
    rw [total_of_isVacuous hv, total_of_isVacuous hany, hw.vacuous _ hv, hw.vacuous _ hany]
  · rfl

/-- The fields of a merged object weigh what those of the objects do. -/
theorem totalFields_mergedFields (hw : IsAbsorbed weight) (hP : Preserves unite V)
    (hU : KeepsTotal weight V unite) {objects : List (List (Field Shape))}
    (h : ∀ fields ∈ objects, ∀ f ∈ fields, V f.value) :
    totalFields weight (mergedFields c unite threshold objects) =
      totalFields weight objects.flatten := by
  have hflat : ∀ f ∈ objects.flatten, V f.value := by
    intro f hf
    obtain ⟨fields, hfields, hf⟩ := List.mem_flatten.1 hf
    exact h fields hfields f hf
  have hwide : totalAll weight ((wideFields c unite objects).map Field.value) =
      totalFields weight objects.flatten := by
    rw [totalFields_eq_totalAll, ← totalMerged_mergeAll hP hU hflat, wideFields, totalMerged,
      totalAll_eq_sum, totalAll_eq_sum]
    refine congrArg List.sum ?_
    simp only [List.map_map]
    exact List.map_congr_left fun m _ => total_toField_value hw m
  rw [mergedFields_eq]
  split
  · rename_i hl
    have hvalues : ∀ v ∈ (wideFields c unite objects).map Field.value, V v := by
      intro v hv
      obtain ⟨f, hf, rfl⟩ := List.mem_map.1 hv
      exact value_wideFields hP h f hf
    have hunited := hU _ (values_ne_nil_of_lt hl) hvalues
    rw [totalFields_eq_totalAll]
    simp only [List.map_cons, List.map_nil, dictionaryField, totalAll_cons, totalAll_nil, add_zero]
    rw [hunited, hwide]
  · rw [totalFields_eq_totalAll, hwide]

/-- An object as a list of members weighs what its fields do. -/
theorem totalAll_asMembers (hw : WeighsLeaves weight) (fields : List (Field Shape)) :
    totalAll weight (asMembers fields) = totalFields weight fields := by
  cases fields with
  | nil => rfl
  | cons f rest =>
    rw [asMembers, totalAll_cons, totalAll_nil, add_zero, hw.total_object]
    simp

/-- Members weigh what those that are no objects and the fields of the objects do. -/
theorem totalAll_eq_others_add_fields (hw : WeighsLeaves weight) (members : List Shape) :
    totalAll weight members = totalAll weight (members.filter (!·.isObject)) +
      totalFields weight (members.filterMap fields?).flatten := by
  have happend : ∀ fields others : List (Field Shape),
      totalFields weight (fields ++ others) =
        totalFields weight fields + totalFields weight others := by
    intro fields others
    simp only [totalFields_eq_totalAll, List.map_append, totalAll_append]
  induction members with
  | nil => simp [totalFields]
  | cons m rest ih =>
    cases m with
    | object fields =>
      simp only [totalAll_cons, hw.total_object, ih, isObject, fields?, List.filter_cons,
        List.filterMap_cons, List.flatten_cons, happend]
      simp only [Bool.not_true, Bool.false_eq_true, if_false]
      ac_rfl
    | _ =>
      simp only [totalAll_cons, ih, isObject, fields?, List.filter_cons, List.filterMap_cons,
        Bool.not_false, if_true, add_assoc]

/-- Consolidating keeps what members weigh together. -/
theorem totalAll_consolidate (hw : IsAbsorbed weight) (hI : JoinInvariant c unite threshold P V)
    (hU : KeepsTotal weight V unite) (h : ∀ m ∈ members, P m) :
    totalAll weight (consolidate c unite threshold members) = totalAll weight members := by
  have hvalues : ∀ fields ∈ (distinct members).filterMap fields?, ∀ f ∈ fields, V f.value :=
    fun fields hf => hI.value fields (h _ (mem_of_mem_distinct (mem_filterMap_fields?.1 hf)))
  rw [consolidate, mergeObjects_eq, totalAll_append, totalAll_asMembers hw.toWeighsLeaves,
    totalFields_mergedFields hw hI.preserves hU hvalues,
    ← totalAll_eq_others_add_fields hw.toWeighsLeaves, hw.totalAll_distinct]

/-- Splicing keeps what members weigh together, when the nested ones keep theirs. -/
theorem totalAll_flatten_of_spliced
    (h : ∀ m ∈ members, m.isJoinedBy c = true →
      totalAll weight (m.spliced c) = m.total weight) :
    totalAll weight (flatten c members) = totalAll weight members := by
  have hinner : totalAll weight (members.flatMap (spliced c)) =
      totalAll weight (members.filter (isJoinedBy c)) := by
    induction members with
    | nil => rfl
    | cons m rest ih =>
      have hrest := ih fun m hm => h m (List.mem_cons_of_mem _ hm)
      rw [List.flatMap_cons, totalAll_append, hrest]
      by_cases hm : m.isJoinedBy c = true
      · rw [List.filter_cons, if_pos hm, totalAll_cons, h m List.mem_cons_self hm]
      · have hnone : m.spliced c = [] := by
          rw [List.eq_nil_iff_forall_not_mem]
          intro s hs
          obtain ⟨inner, rfl, -⟩ := mem_spliced hs
          simp [isJoinedBy] at hm
        rw [List.filter_cons, if_neg hm, hnone, totalAll_nil, zero_add]
  have hsplit :
      (members.filter (!·.isJoinedBy c) ++ members.filter (isJoinedBy c)).Perm members := by
    have hperm := List.filter_append_perm (isJoinedBy c) members
    exact List.perm_append_comm.trans hperm
  rw [flatten, innerMembers_eq_flatMap, totalAll_append, hinner, ← totalAll_append,
    totalAll_perm hsplit]

/-- What is inside a nested shape weighs what the shape does. -/
theorem totalAll_spliced (hw : WeighsLeaves weight) (m : Shape) :
    m.isJoinedBy c = true → totalAll weight (m.spliced c) = m.total weight := by
  induction m using tree_induction with
  | joined d inner ih =>
    intro hm
    obtain rfl : d = c := by simpa [isJoinedBy] using hm
    rw [spliced_joined, totalAll_flatten_of_spliced ih, hw.total_joined]
  | _ => simp [isJoinedBy]

/-- Splicing keeps what members weigh together. -/
theorem totalAll_flatten (hw : WeighsLeaves weight) (members : List Shape) :
    totalAll weight (flatten c members) = totalAll weight members :=
  totalAll_flatten_of_spliced fun m _ => totalAll_spliced hw m

/-- Joining keeps what members weigh together. -/
theorem total_join (hw : IsAbsorbed weight) (hI : JoinInvariant c unite threshold P V)
    (hU : KeepsTotal weight V unite) (h : ∀ m ∈ members, P m) :
    (join c unite threshold members).total weight = totalAll weight members := by
  have honce := totalAll_consolidate hw hI hU h
  have hjoined : totalAll weight (joinedMembers c unite threshold members) =
      totalAll weight members := by
    unfold joinedMembers
    dsimp only
    split
    · have hflat := forall_mem_flatten hI.inner (hI.consolidate h)
      rw [totalAll_consolidate hw hI hU hflat, totalAll_flatten hw.toWeighsLeaves, honce]
    · exact honce
  rw [join_eq, ← hjoined]
  rcases ofMembers_cases (c := c) (joinedMembers c unite threshold members) with
    ⟨hm, he⟩ | ⟨m, hm, he⟩ | ⟨-, he⟩
  · have hany : (Shape.any).isVacuous = true := rfl
    rw [he, hm, total_of_isVacuous hany, hw.vacuous _ hany, totalAll_nil]
  · rw [he, hm, totalAll_cons, totalAll_nil, add_zero]
  · rw [he, hw.total_joined]

/-- Settling keeps what the leaves weigh together. -/
theorem total_settle (hw : IsAbsorbed weight) (s : Shape) :
    (s.settle threshold).total weight = s.total weight := by
  induction s using settle_induction with
  | array e ih => rw [settle_array, hw.total_array, hw.total_array, ih]
  | object fields ih =>
    rw [settle_object, hw.total_object, hw.total_object, totalFields_map_congr ih]
  | joined c members ih ihu =>
    have hI : JoinInvariant c (united threshold) threshold
        (fun m => m.nesting ≤ nestingAll members) fun v => v.nesting < nestingAll members :=
      (nestsWithin_united _).joinInvariant
    have hU : KeepsTotal weight (fun v => v.nesting < nestingAll members) (united threshold) := by
      intro vs hne hvs
      have hunion := ihu vs (nestingAll_lt hne hvs)
      rw [united, hunion, hw.total_joined]
    have hmembers : ∀ m ∈ members.map (settle threshold), m.nesting ≤ nestingAll members :=
      fun m hm => nesting_le_of_mem_map_settle hm
    rw [settle_joined, total_join hw hI hU hmembers, totalAll_map_congr ih, hw.total_joined]
  | tuple members ih =>
    rw [settle_tuple, hw.total_tuple, hw.total_tuple, totalAll_map_congr ih]
  | _ => rfl

/-- Widening keeps the total, when what a literal is widened to weighs what the
literal did. -/
theorem total_widen {weight' : Shape → M} {precise : Bool} (hw : WeighsLeaves weight)
    (hw' : WeighsLeaves weight')
    (literal : ∀ l, ((Shape.literal l).widen precise).total weight' = weight (.literal l))
    (other : ∀ s : Shape, (∀ l, s ≠ .literal l) → weight' s = weight s) (s : Shape) :
    (s.widen precise).total weight' = s.total weight := by
  have hleaf : ∀ s : Shape, s.widen precise = s → s.parts = [] → (∀ l, s ≠ .literal l) →
      (s.widen precise).total weight' = s.total weight := by
    intro s hwiden hs hl
    rw [hwiden, total_of_parts_eq_nil hs, total_of_parts_eq_nil hs, other s hl]
  induction s using tree_induction with
  | literal l => rw [literal l, total_of_parts_eq_nil rfl]
  | array e ih => rw [widen, hw'.total_array, hw.total_array, ih]
  | object fields ih =>
    rw [widen, widenFields_eq_map, hw'.total_object, hw.total_object, totalFields_map_congr ih]
  | joined c members ih =>
    rw [widen, widenAll_eq_map, hw'.total_joined, hw.total_joined, totalAll_map_congr ih]
  | tuple members ih =>
    rw [widen, widenAll_eq_map, hw'.total_tuple, hw.total_tuple, totalAll_map_congr ih]
  | _ => exact hleaf _ (by simp [widen]) rfl (by simp)

end Moves

end TypedClient.Shape
