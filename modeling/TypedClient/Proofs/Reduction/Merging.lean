import Mathlib.Data.List.Induction
import TypedClient.Proofs.Shape.Parts
import TypedClient.Shape.Reduce

/-!
# Merging the fields of objects

Fields are absorbed one after the other into a list that has every key once. A
merged field counts the fields with its key, is optional when one of them is,
and its value is made of theirs by a function that unites shapes. Nothing here
depends on how that function works: a property of values that it preserves holds
of the values of the merged object, and two such functions that agree on those
values merge alike.
-/

namespace TypedClient.Shape

/-- Opening nullish values and uniting shapes stay within the shapes that have a property. -/
structure Preserves (unite : List Shape → Shape) (V : Shape → Prop) : Prop where
  /-- A nullish value is opened to any value. -/
  any : ∀ v, V v → V .any
  /-- Some shapes with the property unite to one with the property. -/
  unite : ∀ vs, vs ≠ [] → (∀ v ∈ vs, V v) → V (unite vs)

/-- Two functions unite some shapes with a property alike. -/
def AgreeOn (V : Shape → Prop) (unite unite' : List Shape → Shape) : Prop :=
  ∀ vs, vs ≠ [] → (∀ v ∈ vs, V v) → unite vs = unite' vs

/-- Whether a shape is the null or the undefined literal. -/
def isNullish : Shape → Bool
  | .literal l => l.isNullish
  | _ => false

/-- A nullish shape says nothing. -/
theorem isVacuous_of_isNullish {s : Shape} (h : s.isNullish = true) : s.isVacuous = true := by
  cases s with
  | literal l =>
    obtain ⟨value, constant⟩ := l
    cases value with
    | none => rfl
    | some value =>
      cases value <;> first | rfl | simp [isNullish, Literal.isNullish, Json.isNull] at h
  | _ => simp [isNullish] at h

/-- The keys of merged fields. -/
def Merged.keys (merged : List Merged) : List Key := merged.map fun m => m.field.key

@[simp] theorem Merged.keys_nil : Merged.keys [] = [] := rfl

@[simp] theorem Merged.keys_cons (m : Merged) (rest : List Merged) :
    Merged.keys (m :: rest) = m.field.key :: Merged.keys rest := rfl

section Absorb

variable {unite unite' : List Shape → Shape} {V : Shape → Prop} {field : Field Shape}
  {acc : List Merged}

@[simp] theorem uniteFields_key (unite : List Shape → Shape) (f g : Field Shape) :
    (uniteFields unite f g).key = f.key := rfl

@[simp] theorem uniteFields_value (unite : List Shape → Shape) (f g : Field Shape) :
    (uniteFields unite f g).value = unite [f.value, g.value] := rfl

/-- What absorbing a field leaves: an old merged field, the new one by itself, or
an old one united with it. -/
theorem mem_absorb {m : Merged} (h : m ∈ absorb unite field acc) :
    m ∈ acc ∨ m = ⟨field, 1⟩ ∨ ∃ e ∈ acc, e.field.key = field.key ∧
      m = ⟨uniteFields unite e.field field, e.count + 1⟩ := by
  induction acc with
  | nil => exact Or.inr (Or.inl (List.mem_singleton.1 h))
  | cons e rest ih =>
    by_cases hk : e.field.key = field.key
    · rw [absorb, if_pos hk] at h
      rcases List.mem_cons.1 h with h | h
      · exact Or.inr (Or.inr ⟨e, List.mem_cons_self, hk, h⟩)
      · exact Or.inl (List.mem_cons_of_mem _ h)
    · rw [absorb, if_neg hk] at h
      rcases List.mem_cons.1 h with rfl | h
      · exact Or.inl List.mem_cons_self
      · rcases ih h with h | h | ⟨e', he', hk', h⟩
        · exact Or.inl (List.mem_cons_of_mem _ h)
        · exact Or.inr (Or.inl h)
        · exact Or.inr (Or.inr ⟨e', List.mem_cons_of_mem _ he', hk', h⟩)

/-- Absorbing a field adds its key at the end unless it is there. -/
theorem keys_absorb :
    Merged.keys (absorb unite field acc) =
      if field.key ∈ Merged.keys acc then Merged.keys acc else Merged.keys acc ++ [field.key] := by
  induction acc with
  | nil => rfl
  | cons e rest ih =>
    by_cases hk : e.field.key = field.key
    · simp [absorb, uniteFields, hk]
    · rw [absorb, if_neg hk, Merged.keys_cons, Merged.keys_cons, ih]
      by_cases hm : field.key ∈ Merged.keys rest
      · rw [if_pos hm, if_pos (List.mem_cons_of_mem _ hm)]
      · rw [if_neg hm, if_neg (by simpa using ⟨fun h => hk h.symm, hm⟩), List.cons_append]

/-- A field with a new key is added at the end by itself. -/
theorem absorb_of_not_mem_keys (h : field.key ∉ Merged.keys acc) :
    absorb unite field acc = acc ++ [⟨field, 1⟩] := by
  induction acc with
  | nil => rfl
  | cons e rest ih =>
    rw [Merged.keys_cons, List.mem_cons, not_or] at h
    rw [absorb, if_neg fun he => h.1 he.symm, ih h.2, List.cons_append]

/-- Absorbing keeps the keys pairwise different. -/
theorem nodup_keys_absorb (h : (Merged.keys acc).Nodup) :
    (Merged.keys (absorb unite field acc)).Nodup := by
  rw [keys_absorb]
  split
  · exact h
  · rename_i hk
    exact List.nodup_append.2 ⟨h, by simp, fun a ha b hb he =>
      hk (by rw [← List.mem_singleton.1 hb, ← he]; exact ha)⟩

/-- Absorbing preserves what uniting preserves. -/
theorem value_absorb (hU : Preserves unite V) (hf : V field.value)
    (h : ∀ m ∈ acc, V m.field.value) : ∀ m ∈ absorb unite field acc, V m.field.value := by
  intro m hm
  rcases mem_absorb hm with hm | rfl | ⟨e, he, -, rfl⟩
  · exact h m hm
  · exact hf
  · exact hU.unite _ (by simp) (by simpa using ⟨h e he, hf⟩)

/-- What absorbing leaves of a list that has every key once: the merged fields with
other keys, and the field by itself or united with the one that has its key. -/
theorem mem_absorb_of_nodup {m : Merged} (hk : (Merged.keys acc).Nodup)
    (h : m ∈ absorb unite field acc) :
    (m ∈ acc ∧ m.field.key ≠ field.key) ∨ (field.key ∉ Merged.keys acc ∧ m = ⟨field, 1⟩) ∨
      ∃ e ∈ acc, e.field.key = field.key ∧
        m = ⟨uniteFields unite e.field field, e.count + 1⟩ := by
  induction acc with
  | nil => exact Or.inr (Or.inl ⟨List.not_mem_nil, List.mem_singleton.1 h⟩)
  | cons e rest ih =>
    rw [Merged.keys_cons, List.nodup_cons] at hk
    by_cases he : e.field.key = field.key
    · rw [absorb, if_pos he] at h
      rcases List.mem_cons.1 h with h | h
      · exact Or.inr (Or.inr ⟨e, List.mem_cons_self, he, h⟩)
      · refine Or.inl ⟨List.mem_cons_of_mem _ h, fun hm => hk.1 ?_⟩
        rw [he, ← hm]
        exact List.mem_map_of_mem h
    · rw [absorb, if_neg he] at h
      rcases List.mem_cons.1 h with rfl | h
      · exact Or.inl ⟨List.mem_cons_self, he⟩
      · rcases ih hk.2 h with ⟨h, hm⟩ | ⟨hn, h⟩ | ⟨e', he', hk', h⟩
        · exact Or.inl ⟨List.mem_cons_of_mem _ h, hm⟩
        · refine Or.inr (Or.inl ⟨fun hm => ?_, h⟩)
          rw [Merged.keys_cons] at hm
          rcases List.mem_cons.1 hm with hm | hm
          · exact he hm.symm
          · exact hn hm
        · exact Or.inr (Or.inr ⟨e', List.mem_cons_of_mem _ he', hk', h⟩)

/-- What a merged field has and uniting keeps is kept by absorbing another field. -/
theorem exists_mem_absorb {A : Shape → Prop} {m : Merged} (hm : m ∈ acc) (ha : A m.field.value)
    (hA : m.field.key = field.key → A (unite [m.field.value, field.value])) :
    ∃ m' ∈ absorb unite field acc, m'.field.key = m.field.key ∧ A m'.field.value := by
  induction acc with
  | nil => simp at hm
  | cons e rest ih =>
    by_cases hk : e.field.key = field.key
    · rw [absorb, if_pos hk]
      rcases List.mem_cons.1 hm with rfl | hm
      · exact ⟨_, List.mem_cons_self, rfl, hA hk⟩
      · exact ⟨m, List.mem_cons_of_mem _ hm, rfl, ha⟩
    · rw [absorb, if_neg hk]
      rcases List.mem_cons.1 hm with rfl | hm
      · exact ⟨m, List.mem_cons_self, rfl, ha⟩
      · obtain ⟨m', hm', hkey, ha'⟩ := ih hm
        exact ⟨m', List.mem_cons_of_mem _ hm', hkey, ha'⟩

/-- What the absorbed field has and uniting keeps is there afterwards. -/
theorem exists_mem_absorb_self {A : Shape → Prop} (ha : A field.value)
    (hA : ∀ m ∈ acc, m.field.key = field.key → A (unite [m.field.value, field.value])) :
    ∃ m ∈ absorb unite field acc, m.field.key = field.key ∧ A m.field.value := by
  induction acc with
  | nil => exact ⟨_, List.mem_singleton_self _, rfl, ha⟩
  | cons e rest ih =>
    by_cases hk : e.field.key = field.key
    · rw [absorb, if_pos hk]
      exact ⟨_, List.mem_cons_self, hk, hA e List.mem_cons_self hk⟩
    · rw [absorb, if_neg hk]
      obtain ⟨m, hm, hkey, ha'⟩ := ih fun m hm => hA m (List.mem_cons_of_mem _ hm)
      exact ⟨m, List.mem_cons_of_mem _ hm, hkey, ha'⟩

/-- Absorbing asks the uniting function only about two values of one key. -/
theorem absorb_congr (h : ∀ m ∈ acc, m.field.key = field.key →
      unite [m.field.value, field.value] = unite' [m.field.value, field.value]) :
    absorb unite field acc = absorb unite' field acc := by
  induction acc with
  | nil => rfl
  | cons e rest ih =>
    by_cases hk : e.field.key = field.key
    · simp only [absorb, if_pos hk, uniteFields, h e List.mem_cons_self hk]
    · simp only [absorb, if_neg hk, ih fun m hm => h m (List.mem_cons_of_mem _ hm)]

end Absorb

section MergeAll

variable {unite unite' : List Shape → Shape} {V : Shape → Prop} {fields : List (Field Shape)}

@[simp] theorem mergeAll_nil : mergeAll unite [] = [] := rfl

@[simp] theorem mergeAll_concat (field : Field Shape) :
    mergeAll unite (fields ++ [field]) = absorb unite field (mergeAll unite fields) := by
  simp [mergeAll]

/-- Every key is merged once. -/
theorem nodup_keys_mergeAll (fields : List (Field Shape)) :
    (Merged.keys (mergeAll unite fields)).Nodup := by
  induction fields using List.reverseRecOn with
  | nil => exact List.nodup_nil
  | append_singleton fields field ih =>
    rw [mergeAll_concat]
    exact nodup_keys_absorb ih

/-- The merged keys are those of the fields. -/
theorem mem_keys_mergeAll {k : Key} :
    k ∈ Merged.keys (mergeAll unite fields) ↔ k ∈ Field.keys fields := by
  induction fields using List.reverseRecOn with
  | nil => rfl
  | append_singleton fields field ih =>
    rw [mergeAll_concat, keys_absorb]
    simp only [Field.keys, List.map_append, List.map_cons, List.map_nil, List.mem_append,
      List.mem_singleton] at ih ⊢
    split
    · rename_i hk
      rw [ih]
      refine ⟨Or.inl, ?_⟩
      rintro (h | rfl)
      · exact h
      · exact ih.1 hk
    · simp only [List.mem_append, List.mem_singleton, ih]

/-- Merging preserves what uniting preserves. -/
theorem value_mergeAll (hU : Preserves unite V) (h : ∀ f ∈ fields, V f.value) :
    ∀ m ∈ mergeAll unite fields, V m.field.value := by
  induction fields using List.reverseRecOn with
  | nil => simp
  | append_singleton fields field ih =>
    rw [mergeAll_concat]
    refine value_absorb hU (h field (by simp)) (ih fun f hf => h f (by simp [hf]))

/-- What holds of each field, and of two of one key united when it holds of both, holds of
the merged fields. -/
theorem forall_mem_mergeAll {F : Field Shape → Prop}
    (unites : ∀ f g : Field Shape, f.key = g.key → F f → F g → F (uniteFields unite f g))
    (h : ∀ f ∈ fields, F f) : ∀ m ∈ mergeAll unite fields, F m.field := by
  induction fields using List.reverseRecOn with
  | nil => simp
  | append_singleton fields field ih =>
    intro m hm
    have hfields := ih fun f hf => h f (by simp [hf])
    have hfield : F field := h field (by simp)
    rw [mergeAll_concat] at hm
    rcases mem_absorb hm with hm | rfl | ⟨e, he, hkey, rfl⟩
    · exact hfields m hm
    · exact hfield
    · exact unites _ _ hkey (hfields e he) hfield

/-- Merging asks the uniting function only about a field and what is merged before it under
its key. -/
theorem mergeAll_congr (h : ∀ before field after m, fields = before ++ field :: after →
      m ∈ mergeAll unite before → m.field.key = field.key →
      unite [m.field.value, field.value] = unite' [m.field.value, field.value]) :
    mergeAll unite fields = mergeAll unite' fields := by
  induction fields using List.reverseRecOn with
  | nil => rfl
  | append_singleton fields field ih =>
    have hfields : mergeAll unite fields = mergeAll unite' fields :=
      ih fun before f after m he => h before f (after ++ [field]) m (by simp [he])
    have hfield := absorb_congr fun m hm => h fields field [] m rfl hm
    rw [mergeAll_concat, mergeAll_concat, ← hfields, hfield]

/-- What a field has and uniting keeps is kept by the merged field with its key. -/
theorem exists_mem_mergeAll {A : Shape → Prop}
    (hA : ∀ before field after m, fields = before ++ field :: after →
      m ∈ mergeAll unite before → m.field.key = field.key → A m.field.value ∨ A field.value →
      A (unite [m.field.value, field.value]))
    {f : Field Shape} (hf : f ∈ fields) (ha : A f.value) :
    ∃ m ∈ mergeAll unite fields, m.field.key = f.key ∧ A m.field.value := by
  induction fields using List.reverseRecOn with
  | nil => simp at hf
  | append_singleton fields field ih =>
    have hlast : ∀ m ∈ mergeAll unite fields, m.field.key = field.key →
        A m.field.value ∨ A field.value → A (unite [m.field.value, field.value]) :=
      fun m => hA fields field [] m rfl
    rw [mergeAll_concat]
    rcases List.mem_append.1 hf with hf | hf
    · obtain ⟨m, hm, hk, ha'⟩ :=
        ih (fun before f' after m he => hA before f' (after ++ [field]) m (by simp [he])) hf
      obtain ⟨m', hm', hk', ha''⟩ :=
        exists_mem_absorb hm ha' fun hk => hlast m hm hk (Or.inl ha')
      exact ⟨m', hm', hk'.trans hk, ha''⟩
    · rw [List.mem_singleton.1 hf] at ha ⊢
      exact exists_mem_absorb_self ha fun m hm hk => hlast m hm hk (Or.inr ha)

/-- A merged field counts the fields with its key. -/
theorem count_mergeAll {m : Merged} (h : m ∈ mergeAll unite fields) :
    m.count = (Field.keys fields).count m.field.key := by
  induction fields using List.reverseRecOn generalizing m with
  | nil => simp at h
  | append_singleton fields field ih =>
    have hkeys : Field.keys (fields ++ [field]) = Field.keys fields ++ [field.key] := by
      simp [Field.keys]
    rw [mergeAll_concat] at h
    rw [hkeys, List.count_append]
    rcases mem_absorb_of_nodup (nodup_keys_mergeAll fields) h with ⟨h, hk⟩ | ⟨hk, rfl⟩ |
      ⟨e, he, hk, rfl⟩
    · rw [ih h, List.count_singleton, if_neg (by simpa using fun h => hk h.symm), Nat.add_zero]
    · rw [mem_keys_mergeAll] at hk
      simp [List.count_eq_zero.2 hk]
    · have hc := ih he
      simp only [uniteFields, hk] at hc ⊢
      rw [hc, List.count_singleton_self]

/-- A merged field that has to be present comes of fields that all have to be. -/
theorem optional_mergeAll {m : Merged} (h : m ∈ mergeAll unite fields)
    (ho : m.field.optional = false) {f : Field Shape} (hf : f ∈ fields)
    (hk : f.key = m.field.key) : f.optional = false := by
  induction fields using List.reverseRecOn generalizing m with
  | nil => simp at hf
  | append_singleton fields field ih =>
    rw [mergeAll_concat] at h
    rcases mem_absorb_of_nodup (nodup_keys_mergeAll fields) h with ⟨h, hne⟩ | ⟨hne, rfl⟩ |
      ⟨e, he, hek, rfl⟩
    · rcases List.mem_append.1 hf with hf | hf
      · exact ih h ho hf hk
      · rw [List.mem_singleton.1 hf] at hk
        exact absurd hk.symm hne
    · rcases List.mem_append.1 hf with hf | hf
      · rw [mem_keys_mergeAll] at hne
        exact absurd (hk ▸ List.mem_map_of_mem hf) hne
      · rw [List.mem_singleton.1 hf]
        exact ho
    · simp only [uniteFields, Bool.or_eq_false_iff] at ho hk
      rcases List.mem_append.1 hf with hf | hf
      · exact ih he ho.1 hf hk
      · rw [List.mem_singleton.1 hf]
        exact ho.2

/-- Fields with pairwise different keys are merged each by itself. -/
theorem mergeAll_of_nodup (h : (Field.keys fields).Nodup) :
    mergeAll unite fields = fields.map fun f => ⟨f, 1⟩ := by
  induction fields using List.reverseRecOn with
  | nil => rfl
  | append_singleton fields field ih =>
    simp only [Field.keys, List.map_append, List.map_cons, List.map_nil] at h ih
    obtain ⟨hfields, -, hne⟩ := List.nodup_append.1 h
    have hnew : field.key ∉ Merged.keys (mergeAll unite fields) := by
      rw [mem_keys_mergeAll]
      exact fun hk => hne field.key hk field.key (List.mem_singleton_self _) rfl
    rw [mergeAll_concat, absorb_of_not_mem_keys hnew, ih hfields, List.map_append]
    rfl

end MergeAll

section OpenNullish

@[simp] theorem openNullish_key (field : Field Shape) : (openNullish field).key = field.key := by
  unfold openNullish
  split
  · split <;> rfl
  · rfl

/-- Opening replaces a nullish value by any value. -/
theorem openNullish_value (field : Field Shape) :
    (openNullish field).value = if field.value.isNullish then .any else field.value := by
  unfold openNullish isNullish
  split
  · rename_i l hl
    simp only [hl]
    split <;> simp_all
  · split <;> simp_all

/-- A field whose value is not nullish stays as it is. -/
theorem openNullish_of_not_isNullish {field : Field Shape} (h : field.value.isNullish = false) :
    openNullish field = field := by
  unfold openNullish
  split
  · rename_i l hl
    rw [hl] at h
    rw [if_neg (by simpa [isNullish] using h)]
  · rfl

variable {c : Connective} {sources : Nat} {m : Merged}

@[simp] theorem Merged.toField_key : (m.toField c sources).key = m.field.key := by
  unfold Merged.toField
  rw [openNullish_key]
  split <;> rfl

/-- Only opening changes the value of a merged field. -/
theorem Merged.toField_value :
    (m.toField c sources).value = if m.field.value.isNullish then .any else m.field.value := by
  unfold Merged.toField
  rw [openNullish_value]
  split <;> rfl

/-- No value is nullish any more. -/
theorem Merged.isNullish_toField_value : (m.toField c sources).value.isNullish = false := by
  rw [Merged.toField_value]
  split
  · rfl
  · rename_i h
    simpa using h

/-- A field that its only object has stays as it is, unless its value is nullish. -/
theorem Merged.toField_single {field : Field Shape} (h : field.value.isNullish = false) :
    Merged.toField c 1 ⟨field, 1⟩ = field := by
  unfold Merged.toField
  rw [if_neg (by simp), openNullish_of_not_isNullish h]

/-- A field of the merged object that has to be present is one in the merged
fields, and in a union every object has it. -/
theorem Merged.optional_toField (h : (m.toField c sources).optional = false) :
    m.field.optional = false ∧ (c = .or → sources ≤ m.count) := by
  unfold Merged.toField at h
  by_cases hc : c = .or ∧ m.count < sources
  · rw [if_pos hc, openNullish] at h
    split at h
    · split at h <;> cases h
    · cases h
  · rw [if_neg hc] at h
    refine ⟨?_, fun hor => Nat.le_of_not_lt fun hlt => hc ⟨hor, hlt⟩⟩
    unfold openNullish at h
    split at h
    · split at h
      · cases h
      · exact h
    · exact h

theorem count_keys_flatten_cons (k : Key) (fields : List (Field Shape))
    (objects : List (List (Field Shape))) :
    (Field.keys (fields :: objects).flatten).count k =
      (Field.keys fields).count k + (Field.keys objects.flatten).count k := by
  simp [Field.keys]

/-- Objects none of which has a key twice have it no more often than there are objects. -/
theorem count_keys_flatten_le {k : Key} {objects : List (List (Field Shape))}
    (hk : ∀ fields ∈ objects, (Field.keys fields).count k ≤ 1) :
    (Field.keys objects.flatten).count k ≤ objects.length := by
  induction objects with
  | nil => exact Nat.le_refl 0
  | cons fields rest ih =>
    have hfirst := hk fields List.mem_cons_self
    have htail := ih fun fs hfs => hk fs (List.mem_cons_of_mem _ hfs)
    rw [count_keys_flatten_cons, List.length_cons]
    omega

/-- All objects have a key that is counted as often as there are objects, when none has it
twice. -/
theorem mem_keys_of_length_le_count {objects : List (List (Field Shape))} {k : Key}
    (hk : ∀ fields ∈ objects, (Field.keys fields).count k ≤ 1)
    (h : objects.length ≤ (Field.keys objects.flatten).count k) :
    ∀ fields ∈ objects, k ∈ Field.keys fields := by
  induction objects with
  | nil => simp
  | cons fields rest ih =>
    have hfirst := hk fields List.mem_cons_self
    have hrest : ∀ fs ∈ rest, (Field.keys fs).count k ≤ 1 :=
      fun fs hfs => hk fs (List.mem_cons_of_mem _ hfs)
    have htail := count_keys_flatten_le hrest
    rw [count_keys_flatten_cons, List.length_cons] at h
    refine List.forall_mem_cons.2 ⟨List.count_pos_iff.1 (by omega), ih hrest (by omega)⟩

end OpenNullish

/-- The merged fields of objects before a dictionary is made of too many. -/
def wideFields (c : Connective) (unite : List Shape → Shape)
    (objects : List (List (Field Shape))) : List (Field Shape) :=
  (mergeAll unite objects.flatten).map (Merged.toField c objects.length)

section MergedFields

variable {c : Connective} {unite unite' : List Shape → Shape} {threshold : Nat}
  {V : Shape → Prop} {objects : List (List (Field Shape))}

theorem mergedFields_eq : mergedFields c unite threshold objects =
    if threshold < (wideFields c unite objects).length
    then [dictionaryField unite (wideFields c unite objects)] else wideFields c unite objects :=
  rfl

@[simp] theorem keys_wideFields :
    Field.keys (wideFields c unite objects) = Merged.keys (mergeAll unite objects.flatten) := by
  simp [wideFields, Field.keys, Merged.keys, Function.comp_def]

/-- The keys of the merged fields are those of the objects. -/
theorem mem_keys_wideFields {k : Key} :
    k ∈ Field.keys (wideFields c unite objects) ↔ ∃ fields ∈ objects, k ∈ Field.keys fields := by
  rw [keys_wideFields, mem_keys_mergeAll, Field.keys, List.map_flatten, List.mem_flatten]
  constructor
  · rintro ⟨keys, hkeys, hk⟩
    obtain ⟨fields, hfields, rfl⟩ := List.mem_map.1 hkeys
    exact ⟨fields, hfields, hk⟩
  · rintro ⟨fields, hfields, hk⟩
    exact ⟨Field.keys fields, List.mem_map_of_mem hfields, hk⟩

/-- What holds of each field, of two of one key united, and of a field that is opened or
made optional, holds of the fields of the merged object. -/
theorem forall_mem_wideFields {F : Field Shape → Prop}
    (unites : ∀ f g : Field Shape, f.key = g.key → F f → F g → F (uniteFields unite f g))
    (opens : ∀ (m : Merged) sources, F m.field → F (m.toField c sources))
    (h : ∀ fields ∈ objects, ∀ f ∈ fields, F f) : ∀ f ∈ wideFields c unite objects, F f := by
  intro f hf
  obtain ⟨m, hm, rfl⟩ := List.mem_map.1 hf
  refine opens m _ (forall_mem_mergeAll unites (fun f hf => ?_) m hm)
  obtain ⟨fields, hfields, hf⟩ := List.mem_flatten.1 hf
  exact h fields hfields f hf

/-- Opening a merged field preserves what uniting preserves. -/
theorem Preserves.toField_value (hU : Preserves unite V) {m : Merged} {sources : Nat}
    (h : V m.field.value) : V (m.toField c sources).value := by
  rw [Merged.toField_value]
  split
  · exact hU.any _ h
  · exact h

/-- The values of merged fields have what uniting preserves. -/
theorem value_wideFields (hU : Preserves unite V)
    (h : ∀ fields ∈ objects, ∀ f ∈ fields, V f.value) :
    ∀ f ∈ wideFields c unite objects, V f.value := by
  intro f hf
  obtain ⟨m, hm, rfl⟩ := List.mem_map.1 hf
  refine hU.toField_value (value_mergeAll hU (fun f hf => ?_) m hm)
  obtain ⟨fields, hfields, hf⟩ := List.mem_flatten.1 hf
  exact h fields hfields f hf

/-- No value of a merged field is nullish. -/
theorem isNullish_wideFields {f : Field Shape} (h : f ∈ wideFields c unite objects) :
    f.value.isNullish = false := by
  obtain ⟨m, -, rfl⟩ := List.mem_map.1 h
  exact Merged.isNullish_toField_value

/-- Values that go into a dictionary are there. -/
theorem values_ne_nil_of_lt {fields : List (Field Shape)} (h : threshold < fields.length) :
    fields.map Field.value ≠ [] := by
  cases fields with
  | nil => simp at h
  | cons f rest => simp

/-- A property that uniting preserves holds of the values of the merged object. -/
theorem value_mergedFields (hU : Preserves unite V)
    (h : ∀ fields ∈ objects, ∀ f ∈ fields, V f.value) :
    ∀ f ∈ mergedFields c unite threshold objects, V f.value := by
  have hw := value_wideFields (c := c) hU h
  rw [mergedFields_eq]
  split
  · rename_i hl
    intro f hf
    rw [List.mem_singleton.1 hf]
    refine hU.unite _ (values_ne_nil_of_lt hl) fun v hv => ?_
    obtain ⟨f, hf, rfl⟩ := List.mem_map.1 hv
    exact hw f hf
  · exact hw

/-- Merging objects unites values that are found under some keys: what is merged so far under
the key of a field with the value of the field, or the values of too many fields. -/
inductive Unites (c : Connective) (unite : List Shape → Shape) (threshold : Nat)
    (objects : List (List (Field Shape))) : List Key → List Shape → Prop where
  /-- Two values of one key. -/
  | shared {before after : List (Field Shape)} {field : Field Shape} {m : Merged}
    (hfields : objects.flatten = before ++ field :: after) (hm : m ∈ mergeAll unite before)
    (hkey : m.field.key = field.key) :
    Unites c unite threshold objects [field.key] [m.field.value, field.value]
  /-- The values of a dictionary. -/
  | dictionary (hwide : threshold < (wideFields c unite objects).length) :
    Unites c unite threshold objects (Field.keys (wideFields c unite objects))
      ((wideFields c unite objects).map Field.value)

/-- There are values to unite, and what holds of each field, of two of one key united, and of
a field that is opened or made optional, holds of the fields that they are the values of. -/
theorem Unites.forall_field {F : Field Shape → Prop} {keys : List Key} {vs : List Shape}
    (unites : ∀ f g : Field Shape, f.key = g.key → F f → F g → F (uniteFields unite f g))
    (opens : ∀ (m : Merged) sources, F m.field → F (m.toField c sources))
    (h : ∀ fields ∈ objects, ∀ f ∈ fields, F f) (hu : Unites c unite threshold objects keys vs) :
    vs ≠ [] ∧ ∀ v ∈ vs, ∃ f, f.key ∈ keys ∧ f.value = v ∧ F f := by
  cases hu with
  | @shared before after field m hfields hm hkey =>
    have hall : ∀ f ∈ before ++ field :: after, F f := by
      intro f hf
      obtain ⟨fields, hobject, hf⟩ := List.mem_flatten.1 (hfields ▸ hf)
      exact h fields hobject f hf
    have hmerged : F m.field :=
      forall_mem_mergeAll unites (fun f hf => hall f (List.mem_append_left _ hf)) m hm
    refine ⟨by simp, List.forall_mem_cons.2 ⟨?_, List.forall_mem_singleton.2 ?_⟩⟩
    · exact ⟨m.field, by simp [hkey], rfl, hmerged⟩
    · exact ⟨field, by simp, rfl, hall field (by simp)⟩
  | dictionary hwide =>
    refine ⟨values_ne_nil_of_lt hwide, fun v hv => ?_⟩
    obtain ⟨f, hf, rfl⟩ := List.mem_map.1 hv
    exact ⟨f, List.mem_map_of_mem hf, rfl, forall_mem_wideFields unites opens h f hf⟩

/-- A property that uniting preserves holds of the values that are united. -/
theorem Unites.forall_value {keys : List Key} {vs : List Shape} (hU : Preserves unite V)
    (h : ∀ fields ∈ objects, ∀ f ∈ fields, V f.value)
    (hu : Unites c unite threshold objects keys vs) : vs ≠ [] ∧ ∀ v ∈ vs, V v := by
  obtain ⟨hne, hall⟩ := hu.forall_field (F := fun f => V f.value)
    (fun f g _ hf hg => hU.unite _ (by simp) (by simpa using ⟨hf, hg⟩))
    (fun _ _ hv => hU.toField_value hv) h
  refine ⟨hne, fun v hv => ?_⟩
  obtain ⟨f, -, rfl, hf⟩ := hall v hv
  exact hf

/-- Merging objects asks the uniting function about nothing else. -/
theorem mergedFields_congr (h : ∀ keys vs, Unites c unite threshold objects keys vs →
      unite vs = unite' vs) :
    mergedFields c unite threshold objects = mergedFields c unite' threshold objects := by
  have hwide : wideFields c unite objects = wideFields c unite' objects := by
    rw [wideFields, wideFields, mergeAll_congr fun _ _ _ _ he hm hk => h _ _ (.shared he hm hk)]
  rw [mergedFields_eq, mergedFields_eq, ← hwide]
  split
  · rename_i hl
    rw [dictionaryField, dictionaryField, h _ _ (.dictionary hl)]
  · rfl

/-- What holds of the values of the objects, and of what values that are united on the way
unite to, holds of the values of the merged object. -/
theorem value_mergedFields_of_unites (any : V .any)
    (unites : ∀ keys vs, Unites c unite threshold objects keys vs → (∀ v ∈ vs, V v) → V (unite vs))
    (h : ∀ fields ∈ objects, ∀ f ∈ fields, V f.value) :
    ∀ f ∈ mergedFields c unite threshold objects, V f.value := by
  classical
  -- values that are not united on the way do not matter
  let restricted : List Shape → Shape := fun vs =>
    if ∃ keys, Unites c unite threshold objects keys vs then unite vs else .any
  have hsame : mergedFields c unite threshold objects =
      mergedFields c restricted threshold objects :=
    mergedFields_congr fun keys vs hu => (if_pos ⟨keys, hu⟩).symm
  rw [hsame]
  refine value_mergedFields ⟨fun _ _ => any, fun vs _ hvs => ?_⟩ h
  dsimp only [restricted]
  split
  · rename_i hu
    obtain ⟨keys, hkeys⟩ := hu
    exact unites keys vs hkeys hvs
  · exact any

/-- A merged object has every key once. -/
theorem nodup_keys_mergedFields :
    (Field.keys (mergedFields c unite threshold objects)).Nodup := by
  rw [mergedFields_eq]
  split
  · simp [Field.keys]
  · rw [keys_wideFields]
    exact nodup_keys_mergeAll _

/-- A merged object has no more fields than the threshold, or it is a dictionary. -/
theorem length_mergedFields_le :
    (mergedFields c unite threshold objects).length ≤ max 1 threshold := by
  rw [mergedFields_eq]
  split
  · exact Nat.le_max_left _ _
  · omega

/-- No value in a merged object is nullish, if uniting never makes one so. -/
theorem isNullish_mergedFields (hU : ∀ vs, (unite vs).isNullish = false) {f : Field Shape}
    (h : f ∈ mergedFields c unite threshold objects) : f.value.isNullish = false := by
  rw [mergedFields_eq] at h
  split at h
  · rw [List.mem_singleton.1 h]
    exact hU _
  · exact isNullish_wideFields h

/-- Objects without a field merge to none. -/
theorem mergedFields_eq_nil_iff :
    mergedFields c unite threshold objects = [] ↔ ∀ fields ∈ objects, fields = [] := by
  have hw : wideFields c unite objects = [] ↔ ∀ fields ∈ objects, fields = [] := by
    have hk : Field.keys (wideFields c unite objects) =
        Merged.keys (mergeAll unite objects.flatten) := keys_wideFields
    rw [← List.flatten_eq_nil_iff]
    constructor
    · intro h
      rw [List.eq_nil_iff_forall_not_mem]
      intro f hf
      have hm : f.key ∈ Merged.keys (mergeAll unite objects.flatten) :=
        mem_keys_mergeAll.2 (List.mem_map_of_mem hf)
      rw [← hk, h] at hm
      simp [Field.keys] at hm
    · intro h
      rw [wideFields, h]
      rfl
  rw [← hw, mergedFields_eq]
  split
  · rename_i hl
    refine ⟨fun h => by simp at h, fun h => ?_⟩
    rw [h] at hl
    simp at hl
  · rfl

/-- A single object with pairwise different keys and no nullish value is merged
to itself, or to a dictionary. -/
theorem mergedFields_singleton {fields : List (Field Shape)} (hk : (Field.keys fields).Nodup)
    (hv : ∀ f ∈ fields, f.value.isNullish = false) :
    mergedFields c unite threshold [fields] =
      if threshold < fields.length then [dictionaryField unite fields] else fields := by
  have hw : wideFields c unite [fields] = fields := by
    have hf : ∀ f ∈ fields,
        (Merged.toField c [fields].length ∘ fun f => (⟨f, 1⟩ : Merged)) f = f :=
      fun f hf => Merged.toField_single (hv f hf)
    unfold wideFields
    rw [List.flatten_singleton, mergeAll_of_nodup hk, List.map_map, List.map_congr_left hf,
      List.map_id']
  rw [mergedFields_eq, hw]

/-- A merged object is merged to itself, when uniting a united value once more
changes nothing. -/
theorem mergedFields_mergedFields (hU : Preserves unite V)
    (hnullish : ∀ vs, (unite vs).isNullish = false)
    (hself : ∀ vs, vs ≠ [] → (∀ v ∈ vs, V v) → unite [unite vs] = unite vs)
    (h : ∀ fields ∈ objects, ∀ f ∈ fields, V f.value) :
    mergedFields c unite threshold [mergedFields c unite threshold objects] =
      mergedFields c unite threshold objects := by
  rw [mergedFields_singleton nodup_keys_mergedFields fun f hf => isNullish_mergedFields hnullish hf]
  rw [mergedFields_eq]
  by_cases hl : threshold < (wideFields c unite objects).length
  · have hvalues : unite [unite ((wideFields c unite objects).map Field.value)] =
        unite ((wideFields c unite objects).map Field.value) := by
      refine hself _ (values_ne_nil_of_lt hl) fun v hv => ?_
      obtain ⟨f, hf, rfl⟩ := List.mem_map.1 hv
      exact value_wideFields hU h f hf
    rw [if_pos hl]
    split
    · simp only [dictionaryField, List.map_cons, List.map_nil, hvalues]
    · rfl
  · rw [if_neg hl, if_neg hl]

end MergedFields

end TypedClient.Shape
