import TypedClient.Proofs.Reduction.Optionality
import TypedClient.Proofs.Shape.Depth

/-!
# Reduction comes to an end

Reduction does not only go down into the parts of a shape: it reduces unions that are parts
of none, of the values that objects have under one key, and of all values of an object that
becomes a dictionary. It comes to an end all the same, because it makes nothing deeper, and
so every such union is less deep than one of the objects that its values come from.

The level that unions are reduced within is not taken for granted here. One layer of the
reduction is a function of the results of the reductions that it starts, and which these are
is a relation. A reduction comes to an end when a layer makes its result out of results that
reductions come to an end with.
-/

namespace TypedClient.Shape

/-! ### Depth of reduced shapes -/

section Depth

variable {precise : Bool}

/-- The shape of a sample is nested no more deeply than the sample is deep. -/
theorem nesting_ofSample_le (value : Json) : (ofSample value).nesting ≤ value.depth := by
  induction value using Json.tree_induction with
  | array elements ih =>
    refine Nat.succ_le_succ (nestingAll_le_iff.2 fun m hm => ?_)
    have hsample := mem_of_mem_distinctFrom hm
    rw [ofSamples_eq_map] at hsample
    obtain ⟨v, hv, rfl⟩ := List.mem_map.1 hsample
    exact (ih v hv).trans (Json.depth_le_depthElements hv)
  | object members ih =>
    refine Nat.succ_le_succ (nestingFields_le_iff.2 fun f hf => ?_)
    have hsample := (mem_foldl_insert hf).resolve_right List.not_mem_nil
    rw [fieldsOfSample_eq_map] at hsample
    obtain ⟨m, hm, rfl⟩ := List.mem_map.1 hsample
    exact (ih m hm).trans (Json.depth_le_depthMembers hm)
  | _ => exact Nat.le_refl _

/-- The shape of the value of a literal is nested no more deeply than the literal is deep. -/
theorem nesting_ofSample?_le (l : Literal) : (ofSample? l.value).nesting ≤ l.depth := by
  rcases l with ⟨_ | value, _⟩
  · exact Nat.le_refl _
  · exact nesting_ofSample_le value

/-- A widened shape is nested no more deeply than the shape is deep. -/
theorem nesting_widen_le (s : Shape) : (s.widen precise).nesting ≤ s.depth := by
  induction s using tree_induction with
  | literal l =>
    rw [widen]
    split
    · exact nesting_ofSample?_le l
    · exact Nat.zero_le _
  | array e ih => exact Nat.succ_le_succ ih
  | object fields ih =>
    rw [widen, widenFields_eq_map]
    refine Nat.succ_le_succ (nestingFields_le_iff.2 fun g hg => ?_)
    obtain ⟨f, hf, rfl⟩ := List.mem_map.1 hg
    exact (ih f hf).trans (depthFields_le_iff.1 (Nat.le_refl _) f hf)
  | joined c members ih =>
    rw [widen, widenAll_eq_map]
    refine nestingAll_le_iff.2 fun m hm => ?_
    obtain ⟨a, ha, rfl⟩ := List.mem_map.1 hm
    exact (ih a ha).trans (depth_le_depthAll ha)
  | tuple members ih =>
    rw [widen, widenAll_eq_map]
    refine Nat.succ_le_succ (nestingAll_le_iff.2 fun m hm => ?_)
    obtain ⟨a, ha, rfl⟩ := List.mem_map.1 hm
    exact (ih a ha).trans (depth_le_depthAll ha)
  | _ => exact Nat.le_refl _

/-- With plain literals only a shape is no deeper than it is nested. -/
theorem depth_le_nesting {s : Shape} (h : Everywhere (IsPlain precise) s) :
    s.depth ≤ s.nesting := by
  induction s using tree_induction with
  | literal l =>
    rw [depth, Literal.depth_of_scalar (everywhere_literal.1 h).1]
    exact Nat.zero_le _
  | array e ih => exact Nat.succ_le_succ (ih (everywhere_array.1 h).2)
  | object fields ih =>
    have hvalues := (everywhere_object.1 h).2
    refine Nat.succ_le_succ (depthFields_le_iff.2 fun f hf => ?_)
    exact (ih f hf (hvalues f hf)).trans (nesting_le_nestingFields hf)
  | joined c members ih =>
    have hmembers := (everywhere_joined.1 h).2
    exact depthAll_le_iff.2 fun m hm => (ih m hm (hmembers m hm)).trans (nesting_le_nestingAll hm)
  | tuple members ih =>
    have hmembers := (everywhere_tuple.1 h).2
    refine Nat.succ_le_succ (depthAll_le_iff.2 fun m hm => ?_)
    exact (ih m hm (hmembers m hm)).trans (nesting_le_nestingAll hm)
  | _ => exact Nat.le_refl _

/-- The shape of the value of a literal is no deeper than the literal. -/
theorem depth_ofSample?_le (l : Literal) : (ofSample? l.value).depth ≤ l.depth :=
  (depth_le_nesting (everywhere_isPlain_ofSample? false l.value)).trans (nesting_ofSample?_le l)

/-- Reducing makes nothing deeper. -/
theorem depth_reduce_le (reduction : Reduction) (s : Shape) :
    (s.reduce reduction).depth ≤ s.depth :=
  calc (s.reduce reduction).depth
      _ ≤ (s.reduce reduction).nesting := depth_le_nesting (everywhere_isPlain_reduce reduction s)
      _ ≤ (s.widen reduction.precise).nesting := nesting_settle_le _
      _ ≤ s.depth := nesting_widen_le s

end Depth

/-! ### Depth of united values -/

section Unites

variable {c : Connective} {unite : List Shape → Shape} {threshold n : Nat}
  {objects : List (List (Field Shape))} {keys : List Key} {vs : List Shape}

/-- One of the objects has a value under the key of a field that is as deep as its value. -/
def IsMatchedIn (objects : List (List (Field Shape))) (field : Field Shape) : Prop :=
  ∃ fields ∈ objects, ∃ f ∈ fields, f.key = field.key ∧ field.value.depth ≤ f.value.depth

/-- Two matched fields of one key are matched when they are united. -/
theorem IsMatchedIn.uniteFields (hU : ∀ vs, (unite vs).depth ≤ depthAll vs) {f g : Field Shape}
    (hkey : f.key = g.key) (hf : IsMatchedIn objects f) (hg : IsMatchedIn objects g) :
    IsMatchedIn objects (uniteFields unite f g) := by
  have hle : (unite [f.value, g.value]).depth ≤ max f.value.depth g.value.depth := by
    simpa [depthAll] using hU [f.value, g.value]
  rcases Nat.le_total f.value.depth g.value.depth with h | h
  · obtain ⟨fields, hfields, d, hd, hk, hdeep⟩ := hg
    exact ⟨fields, hfields, d, hd, hk.trans hkey.symm,
      hle.trans (Nat.max_le.2 ⟨h.trans hdeep, hdeep⟩)⟩
  · obtain ⟨fields, hfields, d, hd, hk, hdeep⟩ := hf
    exact ⟨fields, hfields, d, hd, hk, hle.trans (Nat.max_le.2 ⟨hdeep, h.trans hdeep⟩)⟩

/-- A merged field that is matched is matched when it is opened. -/
theorem IsMatchedIn.toField {m : Merged} {sources : Nat} (h : IsMatchedIn objects m.field) :
    IsMatchedIn objects (m.toField c sources) := by
  obtain ⟨fields, hfields, d, hd, hk, hdeep⟩ := h
  refine ⟨fields, hfields, d, hd, by simpa using hk, ?_⟩
  rw [Merged.toField_value]
  split
  · exact Nat.zero_le _
  · exact hdeep

/-- A union of values that merging unites is less deep than one of the objects, which has one
of the keys that the values are found under. -/
theorem Unites.exists_deeper (hU : ∀ vs, (unite vs).depth ≤ depthAll vs)
    (h : Unites c unite threshold objects keys vs) :
    ∃ fields ∈ objects, (∃ k ∈ keys, k ∈ Field.keys fields) ∧
      (Shape.joined .or vs).depth < (Shape.object fields).depth := by
  obtain ⟨hne, hall⟩ := h.forall_field (fun f g hk => IsMatchedIn.uniteFields hU hk)
    (fun m sources => IsMatchedIn.toField)
    fun fields hfields f hf => ⟨fields, hfields, f, hf, rfl, Nat.le_refl _⟩
  obtain ⟨v, hv, hdeepest⟩ := exists_depthAll_le hne
  obtain ⟨f, hkey, rfl, fields, hfields, d, hd, hk, hle⟩ := hall v hv
  refine ⟨fields, hfields, ⟨f.key, hkey, hk ▸ List.mem_map_of_mem hd⟩, ?_⟩
  exact (hdeepest.trans hle).trans_lt (depth_value_lt hd)

/-- Joining members up to a depth stays up to it. -/
theorem depth_joinInvariant (hU : ∀ vs, (unite vs).depth ≤ depthAll vs) :
    JoinInvariant c unite threshold (fun m => m.depth ≤ n) fun v => v.depth < n := by
  have hpreserves : Preserves unite fun v => v.depth < n :=
    ⟨fun _ hv => Nat.zero_lt_of_lt hv, fun vs hne h => (hU vs).trans_lt (depthAll_lt hne h)⟩
  refine ⟨fun _ h m hm => (depth_le_depthAll hm).trans h,
    fun _ h f hf => (depth_value_lt hf).trans_le h, hpreserves, fun objects h hne => ?_⟩
  refine depth_object_le hne (value_mergedFields hpreserves fun fields hf f hm => ?_)
  exact (depth_value_lt hm).trans_le (h fields hf)

end Unites

/-! ### The reductions that a layer starts -/

/-- Values are united by what results of reducing their union. -/
def unionBy (result : Shape → Shape) (vs : List Shape) : Shape := result (.joined .or vs)

/-- One layer of the reduction of a shape, made of the results of the reductions that it
starts. -/
def layer (reduction : Reduction) (result : Shape → Shape) : Shape → Shape
  | .literal l =>
    if l.isComposite || (l.constant && !reduction.precise) then result (ofSample? l.value)
    else .literal l
  | .array element => .array (result element)
  | .object fields => .object (fields.map (Field.mapValue result))
  | .joined c members =>
    join c (unionBy result) reduction.dictionaryThreshold (members.map result)
  | .tuple members => .tuple (members.map result)
  | s => s

/-- Reducing a shape starts the reduction of another, when the reductions before it have given
their results. -/
inductive Starts (reduction : Reduction) (result : Shape → Shape) : Shape → Shape → Prop where
  /-- A literal that is not left alone starts that of the shape of its value. -/
  | sample {l : Literal} (hwide : (l.isComposite || (l.constant && !reduction.precise)) = true) :
    Starts reduction result (.literal l) (ofSample? l.value)
  /-- A list starts that of its element. -/
  | element {e : Shape} : Starts reduction result (.array e) e
  /-- An object starts those of its values. -/
  | value {fields : List (Field Shape)} {field : Field Shape} (h : field ∈ fields) :
    Starts reduction result (.object fields) field.value
  /-- A joined shape starts those of its members. -/
  | member {c : Connective} {members : List Shape} {m : Shape} (h : m ∈ members) :
    Starts reduction result (.joined c members) m
  /-- Once these have their results, it starts those of the unions that merging them makes. -/
  | union {c : Connective} {members list : List Shape} {keys : List Key} {vs : List Shape}
    (hlist : Consolidates c (unionBy result) reduction.dictionaryThreshold (members.map result)
      list)
    (hunites : Unites c (unionBy result) reduction.dictionaryThreshold
      ((distinct list).filterMap fields?) keys vs) :
    Starts reduction result (.joined c members) (.joined .or vs)
  /-- A tuple starts those of its positions. -/
  | position {members : List Shape} {m : Shape} (h : m ∈ members) :
    Starts reduction result (.tuple members) m

/-- Reducing a shape comes to an end with a result: what a layer makes when every reduction
that it starts has come to an end. -/
inductive Ends (reduction : Reduction) : Shape → Shape → Prop where
  /-- One layer more. -/
  | layer {s : Shape} (result : Shape → Shape)
    (h : ∀ t, Starts reduction result s t → Ends reduction t (result t)) :
    Ends reduction s (s.layer reduction result)

section Layer

variable {reduction : Reduction} {result result' : Shape → Shape} {s t : Shape}

/-- A layer asks for no other results than those of the reductions that it starts. -/
theorem layer_congr (h : ∀ t, Starts reduction result s t → result t = result' t) :
    s.layer reduction result = s.layer reduction result' := by
  cases s with
  | literal l =>
    rw [layer, layer]
    split
    · rename_i hwide
      exact h _ (.sample hwide)
    · rfl
  | array e => exact congrArg Shape.array (h e .element)
  | object fields =>
    refine congrArg Shape.object (List.map_congr_left fun f hf => ?_)
    rw [Field.mapValue, Field.mapValue, h _ (.value hf)]
  | joined c members =>
    have hmembers : members.map result = members.map result' :=
      List.map_congr_left fun m hm => h m (.member hm)
    rw [layer, layer, ← hmembers]
    exact join_congr fun list hlist keys vs hunites => h _ (.union hlist hunites)
  | tuple members =>
    exact congrArg Shape.tuple (List.map_congr_left fun m hm => h m (.position hm))
  | _ => rfl

/-- The settled union of plain shapes is the reduced one. -/
theorem unionBy_reduce {vs : List Shape} (h : ∀ v ∈ vs, Everywhere (IsPlain reduction.precise) v) :
    united reduction.dictionaryThreshold vs = unionBy (reduce reduction) vs := by
  have hplain : Everywhere (IsPlain reduction.precise) (.joined .or vs) :=
    everywhere_joined.2 ⟨trivial, h⟩
  rw [unionBy, reduce_eq, widen_of_everywhere_isPlain hplain, united]

/-- The reduced shape is a layer over reduced shapes. -/
theorem reduce_eq_layer (reduction : Reduction) (s : Shape) :
    s.reduce reduction = s.layer reduction (reduce reduction) := by
  cases s with
  | literal l =>
    have hplain := everywhere_isPlain_ofSample? reduction.precise l.value
    rw [layer, reduce_eq, reduce_eq, widen, widen_of_everywhere_isPlain hplain]
    split <;> rfl
  | array e => rw [layer, reduce_eq, widen, settle_array, reduce_eq]
  | object fields =>
    rw [layer, reduce_eq, widen, widenFields_eq_map, settle_object, List.map_map]
    rfl
  | joined c members =>
    have hmembers : ∀ m ∈ members.map (reduce reduction), Everywhere (IsPlain reduction.precise) m ∧
        m.nesting ≤ nestingAll (members.map (reduce reduction)) := by
      intro m hm
      refine ⟨?_, nesting_le_nestingAll hm⟩
      obtain ⟨a, -, rfl⟩ := List.mem_map.1 hm
      exact everywhere_isPlain_reduce reduction a
    rw [layer, reduce_joined, ← join_eq]
    exact (inherited_isPlain reduction).joinInvariant.join_congr
      (fun vs _ hvs => unionBy_reduce fun v hv => (hvs v hv).1) hmembers
  | tuple members =>
    rw [layer, reduce_eq, widen, widenAll_eq_map, settle_tuple, List.map_map]
    rfl
  | _ => rfl

/-- A union that is reduced on the way is less deep than one of the objects that it comes
from, and these are no deeper than the shape. -/
theorem depth_union_lt {c : Connective} {members list : List Shape} {keys : List Key}
    {vs : List Shape}
    (hlist : Consolidates c (unionBy (reduce reduction)) reduction.dictionaryThreshold
      (members.map (reduce reduction)) list)
    (hunites : Unites c (unionBy (reduce reduction)) reduction.dictionaryThreshold
      ((distinct list).filterMap fields?) keys vs) :
    ∃ fields, Shape.object fields ∈ list ∧ (∃ k ∈ keys, k ∈ Field.keys fields) ∧
      (Shape.joined .or vs).depth < (Shape.object fields).depth ∧
      (Shape.object fields).depth ≤ (Shape.joined c members).depth := by
  have hU : ∀ vs, (unionBy (reduce reduction) vs).depth ≤ depthAll vs :=
    fun vs => depth_reduce_le reduction (.joined .or vs)
  have hmembers : ∀ m ∈ members.map (reduce reduction), m.depth ≤ depthAll members := by
    intro m hm
    obtain ⟨a, ha, rfl⟩ := List.mem_map.1 hm
    exact (depth_reduce_le reduction a).trans (depth_le_depthAll ha)
  obtain ⟨fields, hfields, hkey, hlt⟩ := hunites.exists_deeper hU
  have hobject := mem_of_mem_distinct (mem_filterMap_fields?.1 hfields)
  exact ⟨fields, hobject, hkey, hlt,
    (depth_joinInvariant hU).consolidates hmembers hlist _ hobject⟩

/-- The shape of a sample is a general scalar, a list or an object. -/
theorem ofSample?_cases (value : Option Json) :
    (∃ l : Literal, ofSample? value = .literal l ∧ l.isComposite = false ∧ l.constant = false) ∨
      (∃ e, ofSample? value = .array e) ∨ ∃ fields, ofSample? value = .object fields := by
  rcases value with _ | _ | _ | _ | _ | _ | _
  case none | some.null | some.bool | some.number | some.string =>
    exact Or.inl ⟨_, rfl, rfl, rfl⟩
  case some.array => exact Or.inr (Or.inl ⟨_, rfl⟩)
  case some.object => exact Or.inr (Or.inr ⟨_, rfl⟩)

/-- The shape of a sample starts reductions of less deep shapes only. -/
theorem Starts.depth_lt_ofSample? {value : Option Json}
    (h : Starts reduction result (ofSample? value) t) : t.depth < (ofSample? value).depth := by
  rcases ofSample?_cases value with ⟨l, he, hscalar, hgeneral⟩ | ⟨e, he⟩ | ⟨fields, he⟩
  · rw [he] at h
    cases h with
    | sample hwide => simp [hscalar, hgeneral] at hwide
  · rw [he] at h ⊢
    cases h with
    | element => exact Nat.lt_succ_self _
  · rw [he] at h ⊢
    cases h with
    | value hf => exact depth_value_lt hf

/-- No reductions start one another forever. -/
theorem wellFounded_starts (reduction : Reduction) :
    WellFounded fun t s => Starts reduction (reduce reduction) s t := by
  suffices h : ∀ n (s : Shape), s.depth ≤ n →
      Acc (fun t s => Starts reduction (reduce reduction) s t) s from
    ⟨fun s => h _ s (Nat.le_refl _)⟩
  intro n
  induction n using Nat.strongRecOn with
  | ind n ihn =>
    have hbelow : ∀ t : Shape, t.depth < n →
        Acc (fun t s => Starts reduction (reduce reduction) s t) t :=
      fun t ht => ihn t.depth ht t (Nat.le_refl _)
    -- only members and the shapes of literals can be as deep as what starts them
    intro s
    induction s using tree_induction with
    | literal l =>
      refine fun h => ⟨_, fun t ht => ?_⟩
      cases ht with
      | sample =>
        refine ⟨_, fun u hu => hbelow u ?_⟩
        exact hu.depth_lt_ofSample?.trans_le ((depth_ofSample?_le l).trans h)
    | array e =>
      refine fun h => ⟨_, fun t ht => ?_⟩
      cases ht with
      | element => exact hbelow e h
    | object fields =>
      refine fun h => ⟨_, fun t ht => ?_⟩
      cases ht with
      | value hf => exact hbelow _ ((depth_value_lt hf).trans_le h)
    | joined c members ih =>
      refine fun h => ⟨_, fun t ht => ?_⟩
      cases ht with
      | member hm => exact ih t hm ((depth_le_depthAll hm).trans h)
      | union hlist hunites =>
        obtain ⟨fields, -, -, hlt, hle⟩ := depth_union_lt hlist hunites
        exact hbelow _ (hlt.trans_le (hle.trans h))
    | tuple members =>
      refine fun h => ⟨_, fun t ht => ?_⟩
      cases ht with
      | position hm => exact hbelow t ((Nat.lt_succ_of_le (depth_le_depthAll hm)).trans_le h)
    | _ => exact fun _ => ⟨_, fun t ht => by cases ht⟩

/-- Reducing comes to an end with the reduced shape. -/
theorem ends_reduce (reduction : Reduction) (s : Shape) :
    Ends reduction s (s.reduce reduction) := by
  induction s using (wellFounded_starts reduction).induction with
  | _ s ih =>
    rw [reduce_eq_layer]
    exact .layer (reduce reduction) ih

/-- It comes to an end with nothing else. -/
theorem Ends.eq_reduce (h : Ends reduction s t) : t = s.reduce reduction := by
  induction h with
  | layer result _ ih => rw [reduce_eq_layer, layer_congr ih]

/-- Reducing makes no shape deeper. So a union of values that objects have under one key, or of
all values of an object that becomes a dictionary, is less deep than an object that it comes
from, and this object is no deeper than the shape that is reduced. And so no reductions start
one another forever, and reducing a shape comes to an end, with one result, whatever the
shape, the precision and the threshold. -/
theorem reduce_ends (reduction : Reduction) :
    (∀ s : Shape, (s.reduce reduction).depth ≤ s.depth) ∧
      (∀ c members list keys vs,
        Consolidates c (unionBy (reduce reduction)) reduction.dictionaryThreshold
          (members.map (reduce reduction)) list →
        Unites c (unionBy (reduce reduction)) reduction.dictionaryThreshold
          ((distinct list).filterMap fields?) keys vs →
        ∃ fields, Shape.object fields ∈ list ∧ (∃ k ∈ keys, k ∈ Field.keys fields) ∧
          (Shape.joined .or vs).depth < (Shape.object fields).depth ∧
          (Shape.object fields).depth ≤ (Shape.joined c members).depth) ∧
      (WellFounded fun t s => Starts reduction (reduce reduction) s t) ∧
      ∀ s t, Ends reduction s t ↔ t = s.reduce reduction := by
  refine ⟨depth_reduce_le reduction, fun c members list keys vs => depth_union_lt,
    wellFounded_starts reduction, fun s t => ⟨Ends.eq_reduce, ?_⟩⟩
  rintro rfl
  exact ends_reduce reduction s

/-- An object with a list of texts and a sample with a list of lists, both under one key: their
union is as deep as the second of the two lists and less deep than the sample. -/
theorem reduce_ends_tags :
    let texts := Field.named "tags" (.array .string)
    let lists := Field.named "tags" (.array (.array .number))
    let sample := Json.object [("tags", .array [.array [.number (.integer 7)]])]
    let members : List Shape := [.object [texts], constant sample]
    let list : List Shape := [.object [texts], .object [lists]]
    let union := Shape.joined .or [texts.value, lists.value]
    Consolidates .or (unionBy (reduce {})) 20 (members.map (reduce {})) list ∧
      Unites .or (unionBy (reduce {})) 20 ((distinct list).filterMap fields?) [.named "tags"]
        [texts.value, lists.value] ∧
      (∃ fields, Shape.object fields ∈ list ∧ (∃ k ∈ [Key.named "tags"], k ∈ Field.keys fields) ∧
        union.depth < (Shape.object fields).depth ∧
        (Shape.object fields).depth ≤ (Shape.joined .or members).depth) ∧
      union.depth = 2 ∧ (Shape.joined .or members).depth = 3 ∧
      Ends {} (.joined .or members) (.object [Field.named "tags" union]) := by
  intro texts lists sample members list union
  have hreduced : members.map (reduce {}) = list := by cbv
  have hlist : Consolidates .or (unionBy (reduce {})) 20 (members.map (reduce {})) list :=
    hreduced ▸ .first
  have hobjects : (distinct list).filterMap fields? = [[texts], [lists]] := by cbv
  have hfields : [[texts], [lists]].flatten = [texts] ++ lists :: [] := rfl
  have hmerged : ⟨texts, 1⟩ ∈ mergeAll (unionBy (reduce {})) [texts] := List.mem_singleton_self _
  have hunites : Unites .or (unionBy (reduce {})) 20 ((distinct list).filterMap fields?)
      [.named "tags"] [texts.value, lists.value] :=
    hobjects ▸ .shared hfields hmerged rfl
  have hresult : Shape.object [Field.named "tags" union] =
      (Shape.joined .or members).reduce {} := by cbv
  obtain ⟨-, hunion, -, hends⟩ := reduce_ends {}
  exact ⟨hlist, hunites, hunion .or members list _ _ hlist hunites, by decide, by decide,
    (hends _ _).2 hresult⟩

end Layer

end TypedClient.Shape
