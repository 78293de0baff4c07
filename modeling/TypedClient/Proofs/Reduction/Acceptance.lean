import TypedClient.Proofs.Reduction.Inheritance
import TypedClient.Proofs.Shape.Acceptance

/-!
# What joined members accept

The shape that says nothing is read here as accepting blank values alone, so that leaving
it out of a union loses nothing. A name that one object of a union leaves to its index
signature may have a field of its own in another one, so index signatures have to stand for
such a name even where it has a field. A name that one object has two fields for is counted
twice, so it has to be dispensable where another object lacks it and the merged one requires
it. And where an object without fields is left out, the empty object has to be blank. In such a
reading every step of joining accepts at least as
much as the step before: making members distinct, merging their objects, and splicing nested
ones.
-/

namespace TypedClient

/-- A reading in which the shape that says nothing has no value of its own. -/
def Reading.IsSilent (r : Reading) : Prop := ∀ value, ¬ r.anything value

namespace Shape

section Scalars

variable {r : Reading} {value : Json}

/-- A shape that says nothing accepts blank values alone. -/
theorem isBlank_of_isVacuous (hr : r.IsSilent) {m : Shape} (hv : m.isVacuous = true)
    (h : Accepts r m value) : r.IsBlank value := by
  cases m with
  | any => exact (accepts_any.1 h).resolve_right (hr value)
  | void => exact accepts_void.1 h
  | literal l =>
    obtain ⟨sample, constant⟩ := l
    have hl : Literal.isComposite ⟨sample, constant⟩ = false := by
      match sample with
      | none | some .null | some (.bool _) | some (.number _) | some (.string _) => rfl
      | some (.array _) | some (.object _) =>
        cases constant <;> simp [isVacuous, keyword?, Literal.keyword?, Json.keyword?] at hv
    rcases (accepts_literal hl).1 h with hblank | hadmits
    · exact hblank
    · match sample with
      | none => exact Or.inl hadmits
      | some .null =>
        refine Or.inl ?_
        cases constant <;> cases value <;> simp_all [Literal.Admits, Json.same, Json.keyword?]
      | some (.bool _) | some (.number _) | some (.string _) | some (.array _) | some (.object _) =>
        cases constant <;> simp [isVacuous, keyword?, Literal.keyword?, Json.keyword?,
          Keyword.isVacuous] at hv
  | _ => simp [isVacuous, keyword?] at hv

/-- A shape with a keyword that says something is a general literal of that kind. -/
theorem eq_literal_of_keyword? {m : Shape} {k : Keyword} (h : m.keyword? = some k)
    (hk : k.isVacuous = false) :
    ∃ sample : Json, m = .literal ⟨some sample, false⟩ ∧ sample.keyword? = some k := by
  cases m with
  | literal l =>
    obtain ⟨sample, constant⟩ := l
    match sample with
    | none | some .null => cases h; simp [Keyword.isVacuous] at hk
    | some (.bool b) | some (.number b) | some (.string b) =>
      cases constant with
      | false => exact ⟨_, rfl, h⟩
      | true => simp [keyword?, Literal.keyword?] at h
    | some (.array b) | some (.object b) =>
      cases constant <;> simp [keyword?, Literal.keyword?, Json.keyword?] at h
  | any | void => cases h; simp [Keyword.isVacuous] at hk
  | _ => simp [keyword?] at h

/-- A literal without a keyword that is not composite is a constant. -/
theorem eq_constant_of_keyword?_eq_none {l : Literal} (hl : l.isComposite = false)
    (hk : (Shape.literal l).keyword? = none) :
    ∃ sample : Json, l = ⟨some sample, true⟩ ∧ sample.isComposite = false := by
  obtain ⟨sample, constant⟩ := l
  match sample with
  | none | some .null => simp [keyword?, Literal.keyword?] at hk
  | some (.bool b) | some (.number b) | some (.string b) =>
    cases constant with
    | true => exact ⟨_, rfl, rfl⟩
    | false => simp [keyword?, Literal.keyword?, Json.keyword?] at hk
  | some (.array b) | some (.object b) => simp [Literal.isComposite, Json.isComposite] at hl

/-- What a member accepts, the kept one that it repeats accepts. -/
theorem accepts_of_repeats (hr : r.IsSilent) {precise : Bool} {m k : Shape}
    (hm : IsPlain precise m) (hk : IsPlain precise k) (h : m.repeats k = true)
    (ha : Accepts r m value) : Accepts r k value := by
  unfold repeats at h
  split at h
  · rename_i kind hkind
    rw [beq_iff_eq] at h
    by_cases hv : kind.isVacuous = true
    · exact .blank k (isBlank_of_isVacuous hr (by rw [isVacuous, hkind]; exact hv) ha)
    · rw [Bool.not_eq_true] at hv
      obtain ⟨sample, rfl, hs⟩ := eq_literal_of_keyword? hkind hv
      obtain ⟨sample', rfl, hs'⟩ := eq_literal_of_keyword? h hv
      rw [accepts_literal hk.1]
      refine ((accepts_literal hm.1).1 ha).imp_right fun hadmits => ?_
      have hsample : sample'.keyword? = sample.keyword? := hs'.trans hs.symm
      exact hsample.trans hadmits
  · rename_i hkind
    split at h
    · rename_i l
      obtain ⟨sample, rfl, hs⟩ := eq_constant_of_keyword?_eq_none hm.1 hkind
      cases k with
      | literal l' =>
        obtain ⟨sample', constant⟩ := l'
        have hsame : Literal.same ⟨sample', constant⟩ ⟨some sample, true⟩ = true := h
        rw [Literal.same, Bool.and_eq_true, beq_iff_eq] at hsame
        obtain ⟨hsame, rfl⟩ := hsame
        cases sample' with
        | none => simp [Json.sameOption] at hsame
        | some sample' =>
          rw [accepts_literal hk.1]
          refine ((accepts_literal hm.1).1 ha).imp_right fun hadmits => ?_
          exact Json.same_trans_of_scalar hk.1 hsame hadmits
      | _ => cases h
    · cases h

end Scalars

section Merging

variable {r : Reading} {c : Connective} {unite : List Shape → Shape} {threshold : Nat}
  {objects : List (List (Field Shape))} {members : List (String × Json)} {value : Json}

/-- What a value of a field accepts, the value of the merged field accepts. -/
theorem accepts_toField_value (hr : r.IsSilent) {m : Merged} {sources : Nat}
    (h : Accepts r m.field.value value) : Accepts r (m.toField c sources).value value := by
  rw [Merged.toField_value]
  split
  · rename_i hn
    exact .blank _ (isBlank_of_isVacuous hr (isVacuous_of_isNullish hn) h)
  · exact h

/-- What a reading asks for when objects are merged. -/
structure AllowsMerging (r : Reading) (c : Connective) (unite : List Shape → Shape)
    (threshold : Nat) (objects : List (List (Field Shape))) : Prop where
  /-- In a union, index signatures stand for the names that one object leaves to its own and
  another has a field for. -/
  lenient : c = .or → ∀ fields ∈ objects, ∀ fields' ∈ objects, ∀ name,
    .wildcard ∈ Field.keys fields → .named name ∉ Field.keys fields →
    .named name ∈ Field.keys fields' → r.lenient name
  /-- In a union, an object may lack the names that one object has more than one field for and
  another has none for. -/
  missing : c = .or → ∀ fields ∈ objects, ∀ fields' ∈ objects, ∀ name,
    .named name ∉ Field.keys fields → 1 < (Field.keys fields').count (.named name) →
    r.missing name
  /-- What one of some values that are united accepts, they accept together. -/
  unites : ∀ keys vs, Unites c unite threshold objects keys vs → ∀ v ∈ vs, ∀ w,
    Accepts r v w → Accepts r (unite vs) w

/-- Among the keys of merged objects, too, some field stands for a name and accepts the value of
a member, when the members are accepted by one of the objects, in an intersection by all. -/
theorem exists_standsFor_wideFields (h : AllowsMerging r c unite threshold objects)
    (hsome : ∃ fields ∈ objects, AcceptsMembers r fields members)
    (hall : c = .and → ∀ fields ∈ objects, AcceptsMembers r fields members)
    {p : String × Json} (hp : p ∈ members) :
    ∃ fields ∈ objects, ∃ f ∈ fields,
      r.StandsFor (Field.keys (wideFields c unite objects)) f.key p.1 ∧ Accepts r f.value p.2 := by
  obtain ⟨fields, hfields, haccepts⟩ := hsome
  by_cases hname : Key.named p.1 ∈ Field.keys (wideFields c unite objects)
  · obtain ⟨fields', hfields', hname'⟩ := mem_keys_wideFields.1 hname
    cases c with
    | or =>
      cases haccepts.covered p hp with
      | @field _ f _ hf hs hv =>
        refine ⟨fields, hfields, f, hf, ?_, hv⟩
        rcases hs with hs | ⟨hw, hl | hfree⟩
        · exact Or.inl hs
        · exact Or.inr ⟨hw, Or.inl hl⟩
        · have hwildcard : Key.wildcard ∈ Field.keys fields := hw ▸ List.mem_map_of_mem hf
          exact Or.inr ⟨hw, Or.inl
            (h.lenient rfl fields hfields fields' hfields' p.1 hwildcard hfree hname')⟩
    | and =>
      -- an object that has the name reads it by the field, or leaves it to its index signature
      cases (hall rfl fields' hfields').covered p hp with
      | @field _ f _ hf hs hv =>
        refine ⟨fields', hfields', f, hf, ?_, hv⟩
        rcases hs with hs | ⟨hw, hl | hfree⟩
        · exact Or.inl hs
        · exact Or.inr ⟨hw, Or.inl hl⟩
        · exact absurd hname' hfree
  · cases haccepts.covered p hp with
    | @field _ f _ hf hs hv =>
      exact ⟨fields, hfields, f, hf, hs.imp_right fun hs => ⟨hs.1, Or.inr hname⟩, hv⟩

/-- A field that has to be present in the merged object is one of an object that accepts the
members, and has to be present there. Otherwise its name may be missing. -/
theorem required_wideFields (h : AllowsMerging r c unite threshold objects)
    (hsome : ∃ fields ∈ objects, AcceptsMembers r fields members)
    (hall : c = .and → ∀ fields ∈ objects, AcceptsMembers r fields members)
    {g : Field Shape} (hg : g ∈ wideFields c unite objects) {name : String}
    (hname : g.key = .named name) (ho : g.optional = false) :
    name ∈ members.map Prod.fst ∨ r.missing name := by
  obtain ⟨fields, hfields, haccepts⟩ := hsome
  obtain ⟨m, hm, rfl⟩ := List.mem_map.1 hg
  obtain ⟨hrequired, hcount⟩ := Merged.optional_toField ho
  rw [Merged.toField_key] at hname
  have hhas : ∀ fs ∈ objects, AcceptsMembers r fs members → .named name ∈ Field.keys fs →
      name ∈ members.map Prod.fst ∨ r.missing name := by
    intro fs hfs hfsaccepts hkey
    obtain ⟨f, hf, he⟩ := List.mem_map.1 hkey
    have hfrequired : f.optional = false :=
      optional_mergeAll hm hrequired (List.mem_flatten.2 ⟨fs, hfs, hf⟩) (he.trans hname.symm)
    exact hfsaccepts.required f hf name he hfrequired
  cases c with
  | or =>
    by_cases hkey : Key.named name ∈ Field.keys fields
    · exact hhas fields hfields haccepts hkey
    -- the name is counted as often as there are objects, so another object has it twice
    have hle := hcount rfl
    rw [count_mergeAll hm, hname] at hle
    have htwice : ∃ fields' ∈ objects, 1 < (Field.keys fields').count (.named name) := by
      by_contra! honce
      exact hkey (mem_keys_of_length_le_count honce hle fields hfields)
    obtain ⟨fields', hfields', htwice⟩ := htwice
    exact Or.inr (h.missing rfl fields hfields fields' hfields' name hkey htwice)
  | and =>
    have hkey : m.field.key ∈ Field.keys objects.flatten :=
      mem_keys_mergeAll.1 (List.mem_map_of_mem hm)
    obtain ⟨f, hf, he⟩ := List.mem_map.1 hkey
    obtain ⟨fs, hfs, hf⟩ := List.mem_flatten.1 hf
    exact hhas fs hfs (hall rfl fs hfs) ((he.trans hname) ▸ List.mem_map_of_mem hf)

/-- The merged fields of objects accept the members of one of them. In an
intersection they have to be accepted by all of them, because every required field
stays required. -/
theorem acceptsMembers_wideFields (hr : r.IsSilent) (h : AllowsMerging r c unite threshold objects)
    (hsome : ∃ fields ∈ objects, AcceptsMembers r fields members)
    (hall : c = .and → ∀ fields ∈ objects, AcceptsMembers r fields members) :
    AcceptsMembers r (wideFields c unite objects) members := by
  refine ⟨fun g hg name hname ho => required_wideFields h hsome hall hg hname ho, fun p hp => ?_⟩
  obtain ⟨fields, hfields, f, hf, hs, hv⟩ := exists_standsFor_wideFields h hsome hall hp
  have hunites : ∀ before field after m, objects.flatten = before ++ field :: after →
      m ∈ mergeAll unite before → m.field.key = field.key →
      Accepts r m.field.value p.2 ∨ Accepts r field.value p.2 →
      Accepts r (unite [m.field.value, field.value]) p.2 := by
    intro before field after m hfields hm hkey hv
    have hunite := h.unites _ _ (.shared hfields hm hkey)
    exact hv.elim (hunite _ (by simp) p.2) (hunite _ (by simp) p.2)
  obtain ⟨m, hm, hkey, hmv⟩ :=
    exists_mem_mergeAll (A := fun s => Accepts r s p.2) hunites
      (List.mem_flatten.2 ⟨fields, hfields, hf⟩) hv
  refine .field (List.mem_map_of_mem hm) ?_ (accepts_toField_value hr hmv)
  rwa [Merged.toField_key, hkey]

/-- The object that objects are merged into accepts what one of them accepts, in an
intersection what all of them accept. -/
theorem accepts_mergedFields (hr : r.IsSilent) (h : AllowsMerging r c unite threshold objects)
    (hsome : ∃ fields ∈ objects, Accepts r (.object fields) value)
    (hall : c = .and → ∀ fields ∈ objects, Accepts r (.object fields) value) :
    Accepts r (.object (mergedFields c unite threshold objects)) value := by
  by_cases hblank : r.IsBlank value
  · exact .blank _ hblank
  obtain ⟨fields, hfields, ha⟩ := hsome
  obtain ⟨members, rfl, haccepts⟩ := (accepts_object.1 ha).resolve_left hblank
  have hmembers : ∀ fs, Accepts r (.object fs) (.object members) →
      AcceptsMembers r fs members := by
    intro fs hfs
    obtain ⟨members', he, hfs⟩ := (accepts_object.1 hfs).resolve_left hblank
    cases he
    exact hfs
  have hwide := acceptsMembers_wideFields hr h ⟨fields, hfields, haccepts⟩
    fun hc fs hfs => hmembers fs (hall hc fs hfs)
  rw [mergedFields_eq]
  split
  · -- every value is among those of the dictionary, and no name has a field any more
    rename_i hl
    refine .object (by simp [dictionaryField]) fun p hp => ?_
    cases hwide.covered p hp with
    | @field _ f _ hf hs hv =>
      refine .field List.mem_cons_self (Or.inr ⟨rfl, Or.inr ?_⟩) ?_
      · simp [Field.keys, dictionaryField]
      · exact h.unites _ _ (.dictionary hl) f.value (List.mem_map_of_mem hf) p.2 hv
  · exact .object hwide.required hwide.covered

end Merging

section Joining

variable {precise : Bool} {r : Reading} {c : Connective} {unite : List Shape → Shape}
  {threshold : Nat} {members list : List Shape} {value : Json}

/-- Members that are joined accept a value: one of them in a union, all of them in
an intersection. Without any member they accept blank values. -/
structure AcceptsAmong (r : Reading) (c : Connective) (members : List Shape) (value : Json) :
    Prop where
  /-- What is joined of them accepts it. -/
  joined : Accepts r (.joined c members) value
  /-- Without any member it is blank. -/
  nil : members = [] → r.IsBlank value

/-- A blank value is accepted by any members. -/
theorem AcceptsAmong.of_isBlank (h : r.IsBlank value) : AcceptsAmong r c members value :=
  ⟨.blank _ h, fun _ => h⟩

/-- Members accept together what one of them accepts, in an intersection what all
of them accept. -/
theorem AcceptsAmong.of_mem {m : Shape} (hm : m ∈ members) (h : Accepts r m value)
    (hall : c = .and → ∀ m ∈ members, Accepts r m value) : AcceptsAmong r c members value := by
  refine ⟨?_, fun hnil => absurd hm (hnil ▸ List.not_mem_nil)⟩
  cases c with
  | or => exact .union hm h
  | and => exact .intersection (hall rfl)

/-- Some member accepts, in an intersection all of them do, unless the value is blank. -/
theorem AcceptsAmong.exists (h : AcceptsAmong r c members value) (hblank : ¬ r.IsBlank value) :
    (∃ m ∈ members, Accepts r m value) ∧ (c = .and → ∀ m ∈ members, Accepts r m value) := by
  cases c with
  | or => exact ⟨(accepts_or.1 h.joined).resolve_left hblank, fun hc => nomatch hc⟩
  | and =>
    have hall := accepts_and.1 h.joined
    obtain ⟨m, hm⟩ := List.exists_mem_of_ne_nil members fun he => hblank (h.nil he)
    exact ⟨⟨m, hm, hall m hm⟩, fun _ => hall⟩

/-- Making members distinct keeps what they accept. -/
theorem AcceptsAmong.distinct (hr : r.IsSilent) (hp : ∀ m ∈ members, IsPlain precise m)
    (h : AcceptsAmong r c members value) :
    AcceptsAmong r c (Shape.distinct members) value := by
  by_cases hblank : r.IsBlank value
  · exact .of_isBlank hblank
  · obtain ⟨⟨m, hm, ha⟩, hall⟩ := h.exists hblank
    by_cases hv : m.isVacuous = true
    · exact absurd (isBlank_of_isVacuous hr hv ha) hblank
    · obtain ⟨k, hk, hrepeats⟩ := exists_of_mem_distinct hm (by simpa using hv)
      have hka : Accepts r k value := by
        rcases hrepeats with rfl | hrepeats
        · exact ha
        · exact accepts_of_repeats hr (hp m hm) (hp k (mem_of_mem_distinct hk)) hrepeats ha
      exact .of_mem hk hka fun hc m hm => hall hc m (mem_of_mem_distinct hm)

/-- An object without fields accepts the empty object only, besides blank values. -/
theorem eq_empty_of_accepts_object_nil (h : Accepts r (.object []) value)
    (hblank : ¬ r.IsBlank value) : value = .object [] := by
  obtain ⟨members, rfl, haccepts⟩ := (accepts_object.1 h).resolve_left hblank
  cases members with
  | nil => rfl
  | cons m rest =>
    cases haccepts.covered m List.mem_cons_self with
    | field hf => cases hf

/-- What a reading asks for when members are consolidated. -/
structure AllowsJoining (r : Reading) (precise : Bool) (c : Connective)
    (unite : List Shape → Shape) (threshold : Nat) (list : List Shape) : Prop where
  /-- Literals are plain. -/
  plain : ∀ m ∈ list, IsPlain precise m
  /-- Objects may be merged. -/
  merges : AllowsMerging r c unite threshold ((distinct list).filterMap fields?)
  /-- The empty object is blank where an object without fields is left out. -/
  blank : [] ∈ (distinct list).filterMap fields? →
    (∀ fields ∈ (distinct list).filterMap fields?, fields = []) → r.blank (.object [])

/-- The merged object has a field, unless it comes of objects without fields and the value of
each is blank. -/
theorem mergedFields_ne_nil (h : AllowsJoining r precise c unite threshold list)
    {fields : List (Field Shape)} (hfields : Shape.object fields ∈ distinct list)
    (ha : Accepts r (.object fields) value) (hblank : ¬ r.IsBlank value) :
    mergedFields c unite threshold ((distinct list).filterMap fields?) ≠ [] := by
  intro hnil
  have hall := mergedFields_eq_nil_iff.1 hnil
  obtain rfl : fields = [] := hall fields (mem_filterMap_fields?.2 hfields)
  obtain rfl := eq_empty_of_accepts_object_nil ha hblank
  exact hblank (Or.inr (h.blank (mem_filterMap_fields?.2 hfields) hall))

/-- Consolidating members keeps what they accept. -/
theorem AcceptsAmong.consolidate (hr : r.IsSilent)
    (hjoins : AllowsJoining r precise c unite threshold list) (h : AcceptsAmong r c list value) :
    AcceptsAmong r c (Shape.consolidate c unite threshold list) value := by
  by_cases hblank : r.IsBlank value
  · exact .of_isBlank hblank
  have hdistinct := h.distinct hr hjoins.plain
  obtain ⟨⟨m, hmem, ha⟩, hall⟩ := hdistinct.exists hblank
  -- the merged object accepts as soon as one of the objects does
  have hmerged : ∀ fields, Shape.object fields ∈ Shape.distinct list →
      Accepts r (.object fields) value → Accepts r (.object (mergedFields c unite threshold
        ((Shape.distinct list).filterMap fields?))) value := by
    intro fields hfields haccepts
    refine accepts_mergedFields hr hjoins.merges
      ⟨fields, mem_filterMap_fields?.2 hfields, haccepts⟩ fun hc fs hfs => ?_
    exact hall hc _ (mem_filterMap_fields?.1 hfs)
  have hkept : ∃ k ∈ Shape.consolidate c unite threshold list, Accepts r k value := by
    by_cases ho : m.isObject = false
    · exact ⟨m, mem_consolidate.2 (Or.inl ⟨hmem, ho⟩), ha⟩
    · cases m with
      | object fields =>
        have hne := mergedFields_ne_nil hjoins hmem ha hblank
        exact ⟨_, mem_consolidate.2 (Or.inr ⟨hne, rfl⟩), hmerged fields hmem ha⟩
      | _ => exact absurd rfl ho
  obtain ⟨k, hk, hka⟩ := hkept
  refine .of_mem hk hka fun hc s hs => ?_
  rcases mem_consolidate.1 hs with ⟨hs, -⟩ | ⟨hmergedne, rfl⟩
  · exact hall hc s hs
  · have hexists : ∃ fields, Shape.object fields ∈ Shape.distinct list := by
      by_contra hnone
      refine hmergedne (mergedFields_eq_nil_iff.2 fun fields hf => ?_)
      exact absurd ⟨fields, mem_filterMap_fields?.1 hf⟩ hnone
    obtain ⟨fields, hfields⟩ := hexists
    exact hmerged fields hfields (hall hc _ hfields)

/-- A shape that is no empty intersection. -/
def HasMembers : Shape → Prop
  | .joined c members => c = .and → members ≠ []
  | _ => True

/-- A joined shape that is no empty intersection accepts what its members accept together. -/
theorem acceptsAmong_of_accepts (hne : c = .and → members ≠ [])
    (h : Accepts r (.joined c members) value) : AcceptsAmong r c members value := by
  refine ⟨h, fun hnil => ?_⟩
  cases c with
  | or =>
    refine (accepts_or.1 h).resolve_right ?_
    rintro ⟨m, hm, -⟩
    rw [hnil] at hm
    exact List.not_mem_nil hm
  | and => exact absurd hnil (hne rfl)

/-- Splicing keeps what members accept, when it does so inside the nested ones. -/
theorem AcceptsAmong.flatten_of_spliced
    (hspliced : ∀ m ∈ members, m.isJoinedBy c = true → Accepts r m value →
      AcceptsAmong r c (m.spliced c) value)
    (h : AcceptsAmong r c members value) : AcceptsAmong r c (flatten c members) value := by
  by_cases hblank : r.IsBlank value
  · exact .of_isBlank hblank
  · obtain ⟨⟨m, hm, ha⟩, hall⟩ := h.exists hblank
    have hkept : ∃ k ∈ flatten c members, Accepts r k value := by
      by_cases hj : m.isJoinedBy c = true
      · obtain ⟨⟨k, hk, hka⟩, -⟩ := (hspliced m hm hj ha).exists hblank
        exact ⟨k, mem_flatten.2 (Or.inr ⟨m, hm, hk⟩), hka⟩
      · exact ⟨m, mem_flatten.2 (Or.inl ⟨hm, by simpa using hj⟩), ha⟩
    obtain ⟨k, hk, hka⟩ := hkept
    refine .of_mem hk hka fun hc s hs => ?_
    rcases mem_flatten.1 hs with ⟨hs, -⟩ | ⟨nested, hn, hs⟩
    · exact hall hc s hs
    · obtain ⟨inner, rfl, -⟩ := mem_spliced hs
      exact ((hspliced _ hn (by simp [isJoinedBy]) (hall hc _ hn)).exists hblank).2 hc s hs

/-- The members spliced out of a nested shape accept what the shape accepts. -/
theorem acceptsAmong_spliced (m : Shape) (hp : Everywhere HasMembers m)
    (hj : m.isJoinedBy c = true) (h : Accepts r m value) :
    AcceptsAmong r c (m.spliced c) value := by
  induction m using tree_induction with
  | joined d inner ih =>
    obtain rfl : d = c := by simpa [isJoinedBy] using hj
    obtain ⟨hmembers, hinner⟩ := everywhere_joined.1 hp
    rw [spliced_joined]
    refine (acceptsAmong_of_accepts hmembers h).flatten_of_spliced fun m hm hj' h' => ?_
    exact ih m hm (hinner m hm) hj' h'
  | _ => cases hj

/-- What is made of members accepts what they accept. -/
theorem AcceptsAmong.ofMembers (h : AcceptsAmong r c members value) :
    Accepts r (Shape.ofMembers c members) value := by
  rcases ofMembers_cases (c := c) members with ⟨hnil, -⟩ | ⟨m, rfl, he⟩ | ⟨-, he⟩
  · exact .blank _ (h.nil hnil)
  · rw [he]
    cases c with
    | or =>
      rcases accepts_or.1 h.joined with hb | ⟨m', hm', ha⟩
      · exact .blank _ hb
      · rwa [← List.mem_singleton.1 hm']
    | and => exact accepts_and.1 h.joined m (List.mem_singleton_self m)
  · rw [he]
    exact h.joined

/-- Joining members keeps what they accept. -/
theorem AcceptsAmong.join (hr : r.IsSilent)
    (hjoins : ∀ list, Consolidates c unite threshold members list →
      AllowsJoining r precise c unite threshold list)
    (hnested : ∀ m ∈ Shape.consolidate c unite threshold members, Everywhere HasMembers m)
    (h : AcceptsAmong r c members value) :
    Accepts r (Shape.join c unite threshold members) value := by
  have honce := h.consolidate hr (hjoins members .first)
  rw [join_eq]
  refine AcceptsAmong.ofMembers ?_
  unfold joinedMembers
  dsimp only
  split
  · rename_i hany
    have hflat := honce.flatten_of_spliced fun m hm hj ha =>
      acceptsAmong_spliced m (hnested m hm) hj ha
    exact hflat.consolidate hr (hjoins _ (.again hany))
  · exact honce

end Joining

end Shape

end TypedClient
