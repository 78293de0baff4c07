import Mathlib.Order.Nat
import TypedClient.Proofs.Reduction.Joining

/-!
# Reducing without a level

The level of `uniteWithin` is only there to make the recursion plain: a shape is
nested at least as deeply as what reducing it leaves, so the unions that merging
its objects makes are nested less deeply than the shape, and every level that is
large enough gives the same result. `settle` is that result, and it obeys the
equations of the reduction itself: the members of a joined shape are settled
first, and the values of a merged field are united by settling their union.
-/

namespace TypedClient.Shape

section Maps

variable {unite : List Shape → Shape} {threshold : Nat}

theorem simplifyAll_eq_map (members : List Shape) :
    simplifyAll unite threshold members = members.map (simplify unite threshold) := by
  induction members with
  | nil => rfl
  | cons m rest ih => rw [simplifyAll, ih, List.map_cons]

theorem simplifyFields_eq_map (fields : List (Field Shape)) :
    simplifyFields unite threshold fields =
      fields.map (Field.mapValue (simplify unite threshold)) := by
  induction fields with
  | nil => rfl
  | cons f rest ih => rw [simplifyFields, ih, List.map_cons, Field.mapValue]

end Maps

/-- Below a nesting, what a function unites is nested no more deeply than the members. -/
def NestsWithin (n : Nat) (unite : List Shape → Shape) : Prop :=
  ∀ vs, nestingAll vs < n → (unite vs).nesting ≤ nestingAll vs

/-- Below a nesting, two functions unite alike. -/
def AgreeBelow (n : Nat) (unite unite' : List Shape → Shape) : Prop :=
  ∀ vs, nestingAll vs < n → unite vs = unite' vs

section Level

variable {c : Connective} {unite unite' : List Shape → Shape} {threshold n : Nat}
  {members : List Shape} {s : Shape}

theorem nestingAll_lt {vs : List Shape} (hne : vs ≠ []) (h : ∀ v ∈ vs, v.nesting < n) :
    nestingAll vs < n := by
  obtain ⟨v, hv⟩ := List.exists_mem_of_ne_nil vs hne
  have hn : 0 < n := Nat.zero_lt_of_lt (h v hv)
  have hle : nestingAll vs ≤ n - 1 := nestingAll_le_iff.2 fun v hv => by have := h v hv; omega
  omega

theorem nestingFields_lt {fields : List (Field Shape)} (hne : fields ≠ [])
    (h : ∀ f ∈ fields, f.value.nesting < n) : nestingFields fields < n := by
  obtain ⟨f, hf⟩ := List.exists_mem_of_ne_nil fields hne
  have hn : 0 < n := Nat.zero_lt_of_lt (h f hf)
  have hle : nestingFields fields ≤ n - 1 :=
    nestingFields_le_iff.2 fun f hf => by have := h f hf; omega
  omega

/-- Uniting below a nesting preserves to be nested below it. -/
theorem NestsWithin.preserves (hU : NestsWithin n unite) :
    Preserves unite fun v => v.nesting < n :=
  ⟨fun _ hv => Nat.zero_lt_of_lt hv,
    fun vs hne h => (hU vs (nestingAll_lt hne h)).trans_lt (nestingAll_lt hne h)⟩

/-- Members that are nested so deeply join to a shape nested no more deeply. -/
theorem NestsWithin.joinInvariant (hU : NestsWithin n unite) :
    JoinInvariant c unite threshold (fun m => m.nesting ≤ n) fun v => v.nesting < n where
  inner _ h m hm := (nesting_le_nestingAll hm).trans h
  value _ h f hf := (nesting_value_lt hf).trans_le h
  preserves := hU.preserves
  merged objects h hne := by
    refine nestingFields_lt hne (value_mergedFields hU.preserves fun fields hf f hm => ?_)
    exact (nesting_value_lt hm).trans_le (h fields hf)

theorem NestsWithin.mono {k : Nat} (hU : NestsWithin n unite) (hk : k ≤ n) : NestsWithin k unite :=
  fun vs h => hU vs (h.trans_le hk)

/-- Joining does not nest more deeply. -/
theorem nesting_join_le (hU : NestsWithin n unite) (h : nestingAll members ≤ n) :
    (join c unite threshold members).nesting ≤ nestingAll members := by
  have hall : ∀ m ∈ joinedMembers c unite threshold members, m.nesting ≤ nestingAll members :=
    (hU.mono h).joinInvariant.joinedMembers fun m hm => nesting_le_nestingAll hm
  rw [join_eq]
  rcases ofMembers_cases (c := c) (joinedMembers c unite threshold members) with
    ⟨-, he⟩ | ⟨m, hm, he⟩ | ⟨-, he⟩
  · rw [he]
    exact Nat.zero_le _
  · rw [he]
    exact hall m (by rw [hm]; exact List.mem_singleton_self m)
  · rw [he]
    exact nestingAll_le_iff.2 hall

/-- Simplifying does not nest more deeply. -/
theorem nesting_simplify_le (hU : NestsWithin n unite) (h : s.nesting ≤ n) :
    (s.simplify unite threshold).nesting ≤ s.nesting := by
  have hmap : ∀ members : List Shape, (∀ m ∈ members, m.nesting ≤ n →
      (m.simplify unite threshold).nesting ≤ m.nesting) → nestingAll members ≤ n →
      nestingAll (members.map (simplify unite threshold)) ≤ nestingAll members := by
    intro members ih hn
    rw [nestingAll_le_iff]
    intro v hv
    obtain ⟨m, hm, rfl⟩ := List.mem_map.1 hv
    have hle := nesting_le_nestingAll hm
    exact (ih m hm (hle.trans hn)).trans hle
  induction s using tree_induction with
  | array e ih =>
    simp only [simplify, nesting] at h ⊢
    have := ih (by omega)
    omega
  | object fields ih =>
    simp only [simplify, simplifyFields_eq_map, nesting] at h ⊢
    refine Nat.succ_le_succ (nestingFields_le_iff.2 fun g hg => ?_)
    obtain ⟨f, hf, rfl⟩ := List.mem_map.1 hg
    have hle := nesting_le_nestingFields hf
    exact (ih f hf (by omega)).trans hle
  | joined c members ih =>
    simp only [simplify, simplifyAll_eq_map, nesting] at h ⊢
    have hm := hmap members ih h
    exact (nesting_join_le hU (hm.trans h)).trans hm
  | tuple members ih =>
    simp only [simplify, simplifyAll_eq_map, nesting] at h ⊢
    exact Nat.succ_le_succ (hmap members ih (by omega))
  | _ => exact Nat.le_refl _

/-- Uniting functions that agree below a nesting simplify shapes of that nesting alike. -/
theorem simplify_congr (hU : NestsWithin n unite) (he : AgreeBelow n unite unite')
    (h : s.nesting ≤ n) : s.simplify unite threshold = s.simplify unite' threshold := by
  have hmap : ∀ members : List Shape, (∀ m ∈ members, m.nesting ≤ n →
      m.simplify unite threshold = m.simplify unite' threshold) → nestingAll members ≤ n →
      members.map (simplify unite threshold) = members.map (simplify unite' threshold) :=
    fun members ih hn =>
      List.map_congr_left fun m hm => ih m hm ((nesting_le_nestingAll hm).trans hn)
  induction s using tree_induction with
  | array e ih =>
    simp only [nesting] at h
    simp only [simplify, ih (by omega)]
  | object fields ih =>
    simp only [simplify, simplifyFields_eq_map, nesting] at h ⊢
    refine congrArg Shape.object (List.map_congr_left fun f hf => ?_)
    have hle := nesting_le_nestingFields hf
    simp only [Field.mapValue, ih f hf (by omega)]
  | joined c members ih =>
    simp only [simplify, simplifyAll_eq_map, nesting] at h ⊢
    rw [← hmap members ih h]
    have hagree : AgreeOn (fun v => v.nesting < n) unite unite' :=
      fun vs hne hvs => he vs (nestingAll_lt hne hvs)
    refine hU.joinInvariant.join_congr hagree fun m hm => ?_
    obtain ⟨a, ha, rfl⟩ := List.mem_map.1 hm
    have hle := (nesting_le_nestingAll ha).trans h
    exact (nesting_simplify_le hU hle).trans hle
  | tuple members ih =>
    simp only [simplify, simplifyAll_eq_map, nesting] at h ⊢
    rw [hmap members ih (by omega)]
  | _ => rfl

/-- Uniting at a level nests within it. -/
theorem nestsWithin_uniteWithin (level : Nat) :
    NestsWithin level (uniteWithin threshold level) := by
  induction level with
  | zero => exact fun vs h => absurd h (Nat.not_lt_zero _)
  | succ level ih => exact fun vs h => nesting_simplify_le ih (Nat.le_of_lt_succ h)

/-- A higher level unites alike. -/
theorem agreeBelow_uniteWithin {level higher : Nat} (h : level ≤ higher) :
    AgreeBelow level (uniteWithin threshold higher) (uniteWithin threshold level) := by
  induction level generalizing higher with
  | zero => exact fun vs hvs => absurd hvs (Nat.not_lt_zero _)
  | succ level ih =>
    obtain ⟨higher, rfl⟩ := Nat.exists_eq_add_of_le' h
    intro vs hvs
    have hle : (Shape.joined .or vs).nesting ≤ level := Nat.le_of_lt_succ hvs
    have hU : NestsWithin level (uniteWithin threshold (higher + level)) :=
      (nestsWithin_uniteWithin _).mono (Nat.le_add_left level higher)
    exact simplify_congr hU (ih (Nat.le_add_left level higher)) hle

end Level

/-- Reduce a shape whose literals are widened. -/
def settle (threshold : Nat) (s : Shape) : Shape :=
  s.simplify (uniteWithin threshold s.nesting) threshold

/-- The settled union of shapes. -/
def united (threshold : Nat) (vs : List Shape) : Shape := settle threshold (.joined .or vs)

section Settle

variable {threshold : Nat}

/-- Every level that is not below the nesting settles a shape. -/
theorem simplify_uniteWithin {s : Shape} {level : Nat} (h : s.nesting ≤ level) :
    s.simplify (uniteWithin threshold level) threshold = s.settle threshold :=
  simplify_congr ((nestsWithin_uniteWithin level).mono h) (agreeBelow_uniteWithin h) (Nat.le_refl _)

/-- Every level above the nesting unites shapes to their settled union. -/
theorem agreeBelow_united (level : Nat) :
    AgreeBelow level (uniteWithin threshold level) (united threshold) := by
  intro vs hvs
  obtain ⟨level, rfl⟩ := Nat.exists_eq_succ_of_ne_zero (Nat.ne_zero_of_lt hvs)
  exact simplify_uniteWithin (s := .joined .or vs) (Nat.le_of_lt_succ hvs)

/-- Settling does not nest more deeply. -/
theorem nesting_settle_le (s : Shape) : (s.settle threshold).nesting ≤ s.nesting :=
  nesting_simplify_le (nestsWithin_uniteWithin _) (Nat.le_refl _)

/-- The settled union nests no more deeply than its members. -/
theorem nestsWithin_united (n : Nat) : NestsWithin n (united threshold) :=
  fun vs _ => nesting_settle_le (.joined .or vs)

@[simp] theorem settle_any : (Shape.any).settle threshold = .any := rfl

@[simp] theorem settle_void : (Shape.void).settle threshold = .void := rfl

@[simp] theorem settle_literal (l : Literal) :
    (Shape.literal l).settle threshold = .literal l := rfl

@[simp] theorem settle_enumeration (e : Enumeration) :
    (Shape.enumeration e).settle threshold = .enumeration e := rfl

@[simp] theorem settle_reference (name : String) :
    (Shape.reference name).settle threshold = .reference name := rfl

/-- Elements are settled by themselves. -/
@[simp] theorem settle_array (e : Shape) :
    (Shape.array e).settle threshold = .array (e.settle threshold) := by
  conv_lhs => rw [settle, simplify, simplify_uniteWithin (by simp [nesting])]

/-- Values of fields are settled by themselves. -/
@[simp] theorem settle_object (fields : List (Field Shape)) :
    (Shape.object fields).settle threshold =
      .object (fields.map (Field.mapValue (settle threshold))) := by
  conv_lhs => rw [settle, simplify, simplifyFields_eq_map]
  refine congrArg Shape.object (List.map_congr_left fun f hf => ?_)
  simp only [Field.mapValue, simplify_uniteWithin (Nat.le_of_lt (nesting_value_lt hf))]

/-- Positions are settled by themselves. -/
@[simp] theorem settle_tuple (members : List Shape) :
    (Shape.tuple members).settle threshold = .tuple (members.map (settle threshold)) := by
  conv_lhs => rw [settle, simplify, simplifyAll_eq_map]
  refine congrArg Shape.tuple (List.map_congr_left fun m hm => simplify_uniteWithin ?_)
  exact (nesting_le_nestingAll hm).trans (Nat.le_succ _)

/-- Members are settled and then joined, where values are united by settling their union. -/
theorem settle_joined (c : Connective) (members : List Shape) :
    (Shape.joined c members).settle threshold =
      join c (united threshold) threshold (members.map (settle threshold)) := by
  have hmembers : members.map (simplify (uniteWithin threshold (nestingAll members)) threshold) =
      members.map (settle threshold) :=
    List.map_congr_left fun m hm => simplify_uniteWithin (nesting_le_nestingAll hm)
  conv_lhs => rw [settle, simplify, simplifyAll_eq_map, nesting, hmembers]
  have hU : NestsWithin (nestingAll members) (uniteWithin threshold (nestingAll members)) :=
    nestsWithin_uniteWithin _
  refine hU.joinInvariant.join_congr
    (fun vs hne hvs => agreeBelow_united _ vs (nestingAll_lt hne hvs)) fun m hm => ?_
  obtain ⟨a, ha, rfl⟩ := List.mem_map.1 hm
  exact (nesting_settle_le a).trans (nesting_le_nestingAll ha)

theorem united_eq (vs : List Shape) :
    united threshold vs = join .or (united threshold) threshold (vs.map (settle threshold)) :=
  settle_joined .or vs

/-- Reducing widens the literals and settles what is left. -/
theorem reduce_eq (reduction : Reduction) (s : Shape) :
    s.reduce reduction = (s.widen reduction.precise).settle reduction.dictionaryThreshold := rfl

/-- Induction along the reduction: the claim is at hand for the parts of a shape,
and for every union that is nested less deeply than the members of a joined one. -/
@[elab_as_elim]
theorem settle_induction {motive : Shape → Prop} (any : motive .any) (void : motive .void)
    (literal : ∀ l, motive (.literal l))
    (array : ∀ element, motive element → motive (.array element))
    (object : ∀ fields, (∀ field ∈ fields, motive field.value) → motive (.object fields))
    (joined : ∀ c members, (∀ m ∈ members, motive m) →
      (∀ vs, nestingAll vs < nestingAll members → motive (.joined .or vs)) →
      motive (.joined c members))
    (tuple : ∀ members, (∀ m ∈ members, motive m) → motive (.tuple members))
    (enumeration : ∀ e, motive (.enumeration e)) (reference : ∀ name, motive (.reference name))
    (s : Shape) : motive s := by
  suffices h : ∀ n (s : Shape), s.nesting ≤ n → motive s from h _ s (Nat.le_refl _)
  intro n
  induction n using Nat.strongRecOn with
  | ind n ihn =>
    intro s
    induction s using tree_induction with
    | any => exact fun _ => any
    | void => exact fun _ => void
    | literal l => exact fun _ => literal l
    | array e ih =>
      simp only [nesting]
      exact fun h => array e (ih (by omega))
    | object fields ih =>
      intro h
      exact object fields fun f hf => ih f hf ((Nat.le_of_lt (nesting_value_lt hf)).trans h)
    | joined c members ih =>
      simp only [nesting]
      intro h
      refine joined c members (fun m hm => ih m hm ((nesting_le_nestingAll hm).trans h)) ?_
      exact fun vs hvs => ihn (nestingAll vs) (hvs.trans_le h) _ (Nat.le_refl _)
    | tuple members ih =>
      simp only [nesting]
      intro h
      refine tuple members fun m hm => ih m hm ?_
      have := nesting_le_nestingAll hm
      omega
    | enumeration e => exact fun _ => enumeration e
    | reference name => exact fun _ => reference name

end Settle

end TypedClient.Shape
