import TypedClient.Proofs.Reduction.Alternatives
import TypedClient.Proofs.Reduction.Runs

/-!
# Index signatures of reduced shapes

Objects are merged key by key, and an index signature is one more key. So a merged object
may have named fields beside an index signature, and nothing in the merging makes the one
fit the others. When no object of a shape has both, an object of the reduced shape that has
both was made by merging objects that stand together at one place on the way.

Whether its index signature then offers what its named fields do is a matter of the values
that these objects have under the keys. Uniting loses no alternative that says something and
is no object, and it adds none, so such alternatives can be looked up in the values one by
one. Objects are different: a union merges them, and what counts is the merged one.
-/

namespace TypedClient.Shape

variable {s a : Shape} {threshold : Nat} {reduction : Reduction}

/-- An object has no named field beside an index signature. -/
def KeepsApart : Shape → Prop
  | .object fields => .wildcard ∈ Field.keys fields → ∀ k ∈ Field.keys fields, k = .wildcard
  | _ => True

/-! ### Values of one key -/

/-- The values that objects have under a key, in order. -/
def valuesUnder (key : Key) (objects : List (List (Field Shape))) : List Shape :=
  (objects.flatten.filter (·.key = key)).map Field.value

/-- Values united one after the other. -/
def uniteInTurn (unite : List Shape → Shape) : List Shape → Shape
  | [] => .any
  | v :: vs => vs.foldl (fun u v => unite [u, v]) v

/-- The value that a merged object has under a key: those of the objects united one after the
other, and anything in the place of what can only be null or undefined. -/
def mergedValue (unite : List Shape → Shape) (vs : List Shape) : Shape :=
  if (uniteInTurn unite vs).isNullish then .any else uniteInTurn unite vs

/-- The values under a name agree with those under the index signature beside it. -/
structure Agree (unite : List Shape → Shape) (named signature : List Shape) : Prop where
  /-- What one of them offers under the name, one offers under the index signature, if it says
  something and is no object. -/
  offered : ∀ v ∈ named, ∀ a ∈ v.alternatives, a.isVacuous = false → a.isObject = false →
    ∃ w ∈ signature, w.Offers a
  /-- The object that unions make of the objects under the name is the one that they make of
  those under the index signature. And what says nothing is offered there too. -/
  merged : ∀ a ∈ (mergedValue unite named).alternatives, a.isVacuous = true ∨ a.isObject = true →
    (mergedValue unite signature).Offers a

section Values

variable {c : Connective} {unite : List Shape → Shape} {fields : List (Field Shape)}
  {objects : List (List (Field Shape))} {v : Shape} {vs : List Shape}

theorem uniteInTurn_concat (h : vs ≠ []) :
    uniteInTurn unite (vs ++ [v]) = unite [uniteInTurn unite vs, v] := by
  cases vs with
  | nil => exact absurd rfl h
  | cons u vs => simp [uniteInTurn]

/-- Absorbing the fields one by one unites the values of one key one after the other. -/
theorem value_of_mem_mergeAll {m : Merged} (h : m ∈ mergeAll unite fields) :
    m.field.value =
      uniteInTurn unite ((fields.filter (·.key = m.field.key)).map Field.value) := by
  induction fields using List.reverseRecOn generalizing m with
  | nil => cases h
  | append_singleton fields field ih =>
    rw [mergeAll_concat] at h
    rw [List.filter_append, List.map_append]
    rcases mem_absorb_of_nodup (nodup_keys_mergeAll fields) h with ⟨hm, hk⟩ | ⟨hk, rfl⟩ |
      ⟨e, he, hk, rfl⟩
    · simpa [Ne.symm hk] using ih hm
    · have hnone : fields.filter (·.key = field.key) = [] := by
        refine List.filter_eq_nil_iff.2 fun f hf hkey => hk (mem_keys_mergeAll.2 ?_)
        exact (of_decide_eq_true hkey) ▸ List.mem_map_of_mem hf
      simp [hnone, uniteInTurn]
    · have hsome : (fields.filter (·.key = e.field.key)).map Field.value ≠ [] := by
        have hkey : e.field.key ∈ Field.keys fields := mem_keys_mergeAll.1 (List.mem_map_of_mem he)
        obtain ⟨f, hf, hfk⟩ := List.mem_map.1 hkey
        exact List.ne_nil_of_mem (List.mem_map_of_mem (List.mem_filter.2 ⟨hf, by simpa using hfk⟩))
      have hlast : [field].filter (·.key = e.field.key) = [field] := by simp [hk]
      rw [uniteFields_value, uniteFields_key, hlast, List.map_singleton, uniteInTurn_concat hsome,
        ← ih he]

/-- A field of a merged object has the merged value of its key. -/
theorem value_of_mem_wideFields {f : Field Shape} (h : f ∈ wideFields c unite objects) :
    f.value = mergedValue unite (valuesUnder f.key objects) := by
  obtain ⟨m, hm, rfl⟩ := List.mem_map.1 h
  rw [Merged.toField_value, Merged.toField_key, mergedValue, valuesUnder,
    ← value_of_mem_mergeAll hm]

end Values

/-! ### What united values offer -/

/-- What reducing leaves: joined parts that joining does not change, and standard literals. -/
def IsReduced (threshold : Nat) (s : Shape) : Prop :=
  Everywhere (fun t => IsJoined threshold t ∧ IsStandard t) s

section Offered

variable {unite : List Shape → Shape} {v : Shape} {vs named signature : List Shape}

theorem IsReduced.isSettled (h : IsReduced threshold s) : IsSettled threshold s :=
  fun t ht => (h t ht).1

theorem IsReduced.isStandard (h : IsReduced threshold s) : Everywhere IsStandard s :=
  fun t ht => (h t ht).2

theorem IsReduced.settle (h : IsReduced threshold s) : s.settle threshold = s :=
  settle_of_isSettled h.isSettled

/-- Settling shapes with standard literals leaves reduced ones. -/
theorem isReduced_settle (standard : Everywhere IsStandard s) :
    IsReduced threshold (s.settle threshold) :=
  fun t ht => ⟨isSettled_settle s t ht, standard.settle inherited_isStandard t ht⟩

/-- The settled union of reduced shapes is reduced. -/
theorem isReduced_united (h : ∀ v ∈ vs, IsReduced threshold v) :
    IsReduced threshold (united threshold vs) :=
  isReduced_settle (everywhere_joined.2 ⟨trivial, fun v hv => (h v hv).isStandard⟩)

variable (unites : ∀ vs, (∀ v ∈ vs, IsReduced threshold v) → unite vs = united threshold vs)

include unites

/-- What reduced values are united to is reduced. -/
theorem isReduced_uniteInTurn (h : ∀ v ∈ vs, IsReduced threshold v) :
    IsReduced threshold (uniteInTurn unite vs) := by
  induction vs using List.reverseRecOn with
  | nil => exact everywhere_any.2 ⟨trivial, trivial⟩
  | append_singleton vs v ih =>
    by_cases hne : vs = []
    · subst hne
      exact h v (by simp)
    · have hpair : ∀ u ∈ [uniteInTurn unite vs, v], IsReduced threshold u :=
        List.forall_mem_cons.2 ⟨ih fun u hu => h u (by simp [hu]),
          List.forall_mem_singleton.2 (h v (by simp))⟩
      rw [uniteInTurn_concat hne, unites _ hpair]
      exact isReduced_united hpair

/-- One value more is united with what those before it are united to, and both are reduced. -/
theorem uniteInTurn_concat_of_isReduced (h : ∀ u ∈ vs ++ [v], IsReduced threshold u)
    (hne : vs ≠ []) : (∀ u ∈ [uniteInTurn unite vs, v], IsReduced threshold u) ∧
      uniteInTurn unite (vs ++ [v]) = united threshold [uniteInTurn unite vs, v] := by
  have hpair : ∀ u ∈ [uniteInTurn unite vs, v], IsReduced threshold u :=
    List.forall_mem_cons.2 ⟨isReduced_uniteInTurn unites fun u hu => h u (by simp [hu]),
      List.forall_mem_singleton.2 (h v (by simp))⟩
  exact ⟨hpair, by rw [uniteInTurn_concat hne, unites _ hpair]⟩

/-- Uniting reduced values one after the other adds no alternative, objects apart. -/
theorem exists_mem_of_mem_uniteInTurn (h : ∀ v ∈ vs, IsReduced threshold v)
    (ha : a ∈ (uniteInTurn unite vs).alternatives) (hs : a.isVacuous = false)
    (ho : a.isObject = false) : ∃ v ∈ vs, a ∈ v.alternatives := by
  induction vs using List.reverseRecOn with
  | nil =>
    obtain rfl := List.mem_singleton.1 ha
    cases hs
  | append_singleton vs v ih =>
    by_cases hne : vs = []
    · subst hne
      exact ⟨v, by simp, ha⟩
    · obtain ⟨hpair, heq⟩ := uniteInTurn_concat_of_isReduced unites h hne
      rw [heq] at ha
      obtain ⟨u, hu, hau⟩ := exists_mem_alternatives_of_united ha hs ho
      rw [(hpair u hu).settle] at hau
      rcases List.mem_pair.1 hu with rfl | rfl
      · obtain ⟨w, hw, haw⟩ := ih (fun w hw => h w (by simp [hw])) hau
        exact ⟨w, by simp [hw], haw⟩
      · exact ⟨u, by simp, hau⟩

/-- Uniting reduced values one after the other loses no alternative, objects apart. -/
theorem exists_standsIn_uniteInTurn (h : ∀ v ∈ vs, IsReduced threshold v) (hv : v ∈ vs)
    (ha : a ∈ v.alternatives) (hs : a.isVacuous = false) (ho : a.isObject = false) :
    ∃ k ∈ (uniteInTurn unite vs).alternatives, StandsIn k a := by
  induction vs using List.reverseRecOn with
  | nil => cases hv
  | append_singleton vs w ih =>
    by_cases hne : vs = []
    · subst hne
      obtain rfl := List.mem_singleton.1 hv
      exact ⟨a, ha, .refl a⟩
    · obtain ⟨hpair, heq⟩ := uniteInTurn_concat_of_isReduced unites h hne
      -- an alternative of one of the two stands in for the one at hand
      obtain ⟨u, hu, b, hb, hstands⟩ : ∃ u ∈ [uniteInTurn unite vs, w], ∃ b ∈ u.alternatives,
          StandsIn b a := by
        rcases List.mem_append.1 hv with hv | hv
        · exact ⟨_, by simp, ih (fun u hu => h u (by simp [hu])) hv⟩
        · obtain rfl := List.mem_singleton.1 hv
          exact ⟨v, by simp, a, ha, .refl a⟩
      have hb : b ∈ (u.settle threshold).alternatives := (hpair u hu).settle.symm ▸ hb
      obtain ⟨k, hk, hkb⟩ := exists_standsIn_united (fun u hu => (hpair u hu).isStandard) hu hb
        (hstands.isVacuous_eq.trans hs) (hstands.isObject_eq.trans ho)
      exact ⟨k, heq ▸ hk, hkb.trans hstands⟩

omit unites in
/-- Opening what can only be null or undefined changes no alternative that says something. -/
theorem mem_alternatives_mergedValue (hs : a.isVacuous = false) :
    a ∈ (mergedValue unite vs).alternatives ↔ a ∈ (uniteInTurn unite vs).alternatives := by
  rw [mergedValue]
  split
  · rename_i hn
    have hvacuous := isVacuous_of_isNullish hn
    have hunion : (uniteInTurn unite vs).isJoinedBy .or = false := by
      generalize uniteInTurn unite vs = u at hn
      cases u <;> first | rfl | cases hn
    rw [alternatives_of_not_union hunion, alternatives_of_not_union rfl, List.mem_singleton,
      List.mem_singleton]
    constructor <;> rintro rfl
    · cases hs
    · rw [hvacuous] at hs
      cases hs
  · rfl

/-- The merged value under the index signature is anything, or offers what the merged value
under the name does, exactly if it is anything or the values agree. -/
theorem offers_mergedValue_iff (hnamed : ∀ v ∈ named, IsReduced threshold v)
    (hsignature : ∀ v ∈ signature, IsReduced threshold v) :
    (∀ a ∈ (mergedValue unite named).alternatives, (mergedValue unite signature).Offers a) ↔
      Agree unite named signature := by
  constructor
  · refine fun h => ⟨fun v hv a ha hs ho => ?_, fun a ha _ => h a ha⟩
    obtain ⟨k, hk, hstands⟩ := exists_standsIn_uniteInTurn unites hnamed hv ha hs ho
    have hks : k.isVacuous = false := hstands.isVacuous_eq.trans hs
    obtain ⟨b, hb, hbk⟩ := h k ((mem_alternatives_mergedValue hks).2 hk)
    have hba : (b == a) = true := hstands.same_left hbk
    have hbs : b.isVacuous = false := (isVacuous_of_same hba).trans hs
    obtain ⟨w, hw, hbw⟩ := exists_mem_of_mem_uniteInTurn unites hsignature
      ((mem_alternatives_mergedValue hbs).1 hb) hbs ((isObject_of_same hba).trans ho)
    exact ⟨w, hw, b, hbw, hba⟩
  · intro h a ha
    by_cases hrest : a.isVacuous = true ∨ a.isObject = true
    · exact h.merged a ha hrest
    · obtain ⟨hs, ho⟩ : a.isVacuous = false ∧ a.isObject = false := by simpa using hrest
      obtain ⟨v, hv, hav⟩ := exists_mem_of_mem_uniteInTurn unites hnamed
        ((mem_alternatives_mergedValue hs).1 ha) hs ho
      obtain ⟨w, hw, b, hb, hba⟩ := h.offered v hv a hav hs ho
      have hbs : b.isVacuous = false := (isVacuous_of_same hba).trans hs
      obtain ⟨k, hk, hkb⟩ := exists_standsIn_uniteInTurn unites hsignature hw hb hbs
        ((isObject_of_same hba).trans ho)
      have hks : k.isVacuous = false := hkb.isVacuous_eq.trans hbs
      exact ⟨k, (mem_alternatives_mergedValue hks).2 hk, hkb.same hba⟩

end Offered

/-! ### Objects that are merged on the way -/

section Merges

variable {c : Connective} {objects : List (List (Field Shape))} {fields : List (Field Shape)}
  {w n : Field Shape} (precise : reduction.precise = true)

include precise

/-- Shapes with standard literals are only settled when precision is kept. -/
theorem reduce_of_isStandard (h : Everywhere IsStandard s) :
    s.reduce reduction = s.settle reduction.dictionaryThreshold := by
  have hplain : Everywhere (IsPlain true) s := fun t ht => isPlain_of_isStandard (h t ht)
  rw [reduce_eq, precise, widen_of_everywhere_isPlain hplain]

/-- Reduced values are united by settling their union. -/
theorem unionBy_reduce_of_isReduced {vs : List Shape}
    (h : ∀ v ∈ vs, IsReduced reduction.dictionaryThreshold v) :
    unionBy (reduce reduction) vs = united reduction.dictionaryThreshold vs :=
  reduce_of_isStandard precise
    (everywhere_joined.2 ⟨trivial, fun v hv => (h v hv).isStandard⟩)

/-- Uniting leaves reduced values. -/
theorem preserves_isReduced : Preserves (unionBy (reduce reduction))
    (IsReduced reduction.dictionaryThreshold) := by
  refine ⟨fun _ _ => everywhere_any.2 ⟨trivial, trivial⟩, fun vs _ hvs => ?_⟩
  rw [unionBy_reduce_of_isReduced precise hvs]
  exact isReduced_united hvs

omit precise in
/-- The shape of the value of a standard literal is one. -/
theorem exists_ofSample?_of_isStandard {l : Literal} (h : IsStandard (.literal l)) :
    ∃ l', ofSample? l.value = .literal l' ∧ IsStandard (.literal l') := by
  obtain ⟨_ | value, constant⟩ := l
  · exact ⟨_, rfl, rfl, fun _ => rfl⟩
  · cases value <;> first | exact ⟨_, rfl, rfl, fun _ => rfl⟩ | cases h.1

/-- The objects that are merged on the way have reduced values. -/
theorem Merges.isReduced (standard : Everywhere IsStandard s) (h : Merges reduction s c objects) :
    ∀ fields ∈ objects, ∀ f ∈ fields, IsReduced reduction.dictionaryThreshold f.value := by
  obtain ⟨members, list, hreaches, hlist, rfl⟩ := h
  have hI : JoinInvariant c (unionBy (reduce reduction)) reduction.dictionaryThreshold
      (IsReduced reduction.dictionaryThreshold) (IsReduced reduction.dictionaryThreshold) := by
    refine ⟨fun _ h => (everywhere_joined.1 h).2, fun _ h => (everywhere_object.1 h).2,
      preserves_isReduced precise, fun objects h _ => everywhere_object.2 ⟨⟨trivial, trivial⟩, ?_⟩⟩
    exact value_mergedFields (preserves_isReduced precise) fun fields hf =>
      (everywhere_object.1 (h fields hf)).2
  have hjoined : Everywhere IsStandard (.joined c members) := by
    refine hreaches.everywhere inherited_isStandard (fun l hl => ?_) standard
    obtain ⟨l', he, hl'⟩ := exists_ofSample?_of_isStandard hl
    exact he ▸ everywhere_literal.2 hl'
  have hmembers : ∀ m ∈ members.map (reduce reduction),
      IsReduced reduction.dictionaryThreshold m := by
    intro m hm
    obtain ⟨b, hb, rfl⟩ := List.mem_map.1 hm
    have hstandard := (everywhere_joined.1 hjoined).2 b hb
    rw [reduce_of_isStandard precise hstandard]
    exact isReduced_settle hstandard
  exact fun fields hf => hI.value fields
    (hI.consolidates hmembers hlist _ (mem_of_mem_distinct (mem_filterMap_fields?.1 hf)))

/-- Reducing a merged object once more changes nothing. -/
theorem Merges.map_mapValue_reduce (standard : Everywhere IsStandard s)
    (h : Merges reduction s c objects) :
    (mergedFields c (unionBy (reduce reduction)) reduction.dictionaryThreshold objects).map
        (Field.mapValue (reduce reduction)) =
      mergedFields c (unionBy (reduce reduction)) reduction.dictionaryThreshold objects := by
  have hvalues : ∀ f ∈ mergedFields c (unionBy (reduce reduction)) reduction.dictionaryThreshold
      objects, IsReduced reduction.dictionaryThreshold f.value :=
    value_mergedFields (preserves_isReduced precise) (h.isReduced precise standard)
  rw [List.map_congr_left fun f hf => ?_, List.map_id']
  rw [Field.mapValue, reduce_of_isStandard precise (hvalues f hf).isStandard, (hvalues f hf).settle]

/-- An object of the reduced shape keeps named fields and index signatures apart, or it is made
by merging objects on the way. -/
theorem keepsApart_or_merges (standard : Everywhere IsStandard s) (apart : Everywhere KeepsApart s)
    (ho : Occurs (.object fields) (s.reduce reduction)) :
    KeepsApart (.object fields) ∨ ∃ c objects, Merges reduction s c objects ∧
      fields = mergedFields c (unionBy (reduce reduction)) reduction.dictionaryThreshold
        objects := by
  let Known : Shape → Prop := fun t => IsStandard t ∧ (KeepsApart t ∨ ∃ c objects,
    Merges reduction s c objects ∧ t = .object (mergedFields c (unionBy (reduce reduction))
      reduction.dictionaryThreshold objects))
  have hknown : Everywhere Known (s.reduce reduction) := by
    refine Everywhere.reduce_of_merges (P := Known) ⟨trivial, Or.inl trivial⟩
      (fun _ => ⟨trivial, Or.inl trivial⟩) (fun _ => ⟨trivial, Or.inl trivial⟩)
      (fun _ _ => ⟨trivial, Or.inl trivial⟩) (fun l hl t ht => ?_) (fun fields hf => ?_)
      (fun c objects h => ⟨trivial, Or.inr ⟨c, objects, h, rfl⟩⟩)
      fun t ht => ⟨standard t ht, Or.inl (apart t ht)⟩
    · obtain ⟨l', he, hl'⟩ := exists_ofSample?_of_isStandard hl.1
      exact (he ▸ everywhere_literal.2 ⟨hl', Or.inl trivial⟩ : Everywhere Known _) t ht
    · refine ⟨trivial, ?_⟩
      rcases hf.2 with hf | ⟨c, objects, h, he⟩
      · exact Or.inl (by simpa [KeepsApart] using hf)
      · obtain rfl := Shape.object.inj he
        exact Or.inr ⟨c, objects, h, congrArg _ (h.map_mapValue_reduce precise standard)⟩
  obtain ⟨-, hk | ⟨c, objects, h, he⟩⟩ := hknown _ ho
  · exact Or.inl hk
  · exact Or.inr ⟨c, objects, h, Shape.object.inj he⟩

/-- Where an object of the reduced shape has a named field beside an index signature, objects
are merged that agree exactly if the index signature is for anything or offers what the named
field does. -/
theorem exists_merges_of_signature (standard : Everywhere IsStandard s)
    (apart : Everywhere KeepsApart s) (ho : Occurs (.object fields) (s.reduce reduction))
    (hw : w ∈ fields) (hkey : w.key = .wildcard) (hn : n ∈ fields) (hname : n.key ≠ .wildcard) :
    2 ≤ reduction.dictionaryThreshold ∧ ∃ c objects, Merges reduction s c objects ∧
      fields = mergedFields c (unionBy (reduce reduction)) reduction.dictionaryThreshold objects ∧
      w.value = mergedValue (unionBy (reduce reduction)) (valuesUnder .wildcard objects) ∧
      n.value = mergedValue (unionBy (reduce reduction)) (valuesUnder n.key objects) ∧
      ((∀ a ∈ n.value.alternatives, w.value.Offers a) ↔
        Agree (unionBy (reduce reduction)) (valuesUnder n.key objects)
          (valuesUnder .wildcard objects)) := by
  rcases keepsApart_or_merges precise standard apart ho with happart | ⟨c, objects, h, rfl⟩
  · have hsignature : Key.wildcard ∈ Field.keys fields := hkey ▸ List.mem_map_of_mem hw
    exact absurd (happart hsignature n.key (List.mem_map_of_mem hn)) hname
  -- a dictionary has no named field
  have hfew : ¬ reduction.dictionaryThreshold <
      (wideFields c (unionBy (reduce reduction)) objects).length := by
    intro hlt
    rw [mergedFields_eq, if_pos hlt, List.mem_singleton] at hn
    exact hname (hn ▸ rfl)
  have hfields : mergedFields c (unionBy (reduce reduction)) reduction.dictionaryThreshold objects =
      wideFields c (unionBy (reduce reduction)) objects := by
    rw [mergedFields_eq, if_neg hfew]
  rw [hfields] at hw hn
  have htwo : 2 ≤ (wideFields c (unionBy (reduce reduction)) objects).length := by
    have hne : w ≠ n := fun he => hname (he ▸ hkey)
    have hnodup : [w, n].Nodup := by simpa using hne
    have hsub : [w, n] ⊆ wideFields c (unionBy (reduce reduction)) objects := by simp [hw, hn]
    exact hnodup.length_le_of_subset hsub
  have hwvalue := value_of_mem_wideFields hw
  have hnvalue := value_of_mem_wideFields hn
  rw [hkey] at hwvalue
  have hvalues : ∀ key, ∀ v ∈ valuesUnder key objects,
      IsReduced reduction.dictionaryThreshold v := by
    intro key v hv
    obtain ⟨f, hf, rfl⟩ := List.mem_map.1 hv
    obtain ⟨fields, hfields, hf⟩ := List.mem_flatten.1 (List.mem_filter.1 hf).1
    exact h.isReduced precise standard fields hfields f hf
  refine ⟨by omega, c, objects, h, rfl, hwvalue, hnvalue, ?_⟩
  rw [hwvalue, hnvalue]
  exact offers_mergedValue_iff (fun vs => unionBy_reduce_of_isReduced precise) (hvalues _)
    (hvalues _)

end Merges

end TypedClient.Shape
