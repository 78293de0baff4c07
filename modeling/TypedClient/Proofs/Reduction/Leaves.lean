import Mathlib.Algebra.Order.Group.Multiset
import Mathlib.Data.Set.Semiring
import TypedClient.Proofs.Reduction.Acceptance
import TypedClient.Proofs.Reduction.Totals

/-!
# Leaves that reduction keeps

No leaf is lost by reducing a shape, and none is invented. References and
enumerations are counted, since reduction never drops one for repeating another.
What scalar literals say is collected, since repetitions are dropped; there a
composite literal says what its shape does, and a constant that widens says of
which kind it is.
-/

namespace TypedClient

/-- What a literal says of a value: which one it is, or of which kind. -/
inductive Scalar where
  /-- The value itself. -/
  | value (value : Json)
  /-- The kind of the value. -/
  | kind (kind : Keyword)

namespace Literal

/-- What a scalar literal says. A constant says that a value is equal to its own. Null,
the undefined value, lists and objects say nothing. -/
inductive Says : Literal → Scalar → Prop where
  /-- A constant says its value. -/
  | value {sample value : Json} : sample.isNull = false → sample.isComposite = false →
      sample.same value = true → Says ⟨some sample, true⟩ (.value value)
  /-- A general literal says the kind of its value. -/
  | kind {sample : Json} {kind : Keyword} : sample.keyword? = some kind → kind.isVacuous = false →
      Says ⟨some sample, false⟩ (.kind kind)

end Literal

namespace Shape

/-- What the scalar literals in a shape say. -/
def scalars (s : Shape) : Set Scalar := {x | ∃ l, Occurs (.literal l) s ∧ l.Says x}

end Shape

/-- What a literal says that is going to be widened. -/
inductive Literal.SaysWidened (precise : Bool) : Literal → Scalar → Prop where
  /-- A composite literal says what its shape does. -/
  | shape {sample : Json} {constant : Bool} {x : Scalar} : sample.isComposite = true →
      x ∈ (Shape.ofSample sample).scalars → SaysWidened precise ⟨some sample, constant⟩ x
  /-- A constant says its kind when precision is not kept. -/
  | widened {sample : Json} {x : Scalar} : sample.isComposite = false → precise = false →
      Says ⟨some sample, false⟩ x → SaysWidened precise ⟨some sample, true⟩ x
  /-- Any other literal says what it says by itself. -/
  | kept {l : Literal} {x : Scalar} : (l.constant = true → precise = true) → l.Says x →
      SaysWidened precise l x

namespace Shape

/-- What the scalar literals in a shape say when it is widened. -/
def widenedScalars (precise : Bool) (s : Shape) : Set Scalar :=
  {x | ∃ l, Occurs (.literal l) s ∧ l.SaysWidened precise x}

/-- The names that references in a shape give, each as often as it occurs. -/
def references (s : Shape) : Multiset String :=
  s.total fun
    | .reference name => {name}
    | _ => 0

/-- The enumerations in a shape, each as often as it occurs. -/
def enumerations (s : Shape) : Multiset Enumeration :=
  s.total fun
    | .enumeration e => {e}
    | _ => 0

section Named

variable {M : Type} [AddCommMonoid M] {weight : Shape → M} {s : Shape}

/-- A weight of references and enumerations only. -/
def WeighsNamed (weight : Shape → M) : Prop := ∀ s : Shape, ¬ IsNamed s → weight s = 0

/-- What repeats another, or says nothing, is not named. -/
theorem WeighsNamed.isAbsorbed (hw : WeighsNamed weight) : IsAbsorbed weight := by
  refine ⟨⟨fun _ => hw _ id, fun _ => hw _ id, fun _ _ => hw _ id, fun _ => hw _ id⟩,
    fun s hs => hw s fun hn => ?_, fun earlier later hr => ?_⟩
  · cases s <;> simp_all [IsNamed, isVacuous, keyword?]
  · have hlater : weight later = 0 := hw later fun hn => by
      cases later <;> simp_all [IsNamed, repeats, keyword?]
    rw [hlater, add_zero]

/-- Without weight anywhere there is none in total. -/
theorem total_eq_zero (h : Everywhere (fun t => weight t = 0) s) : s.total weight = 0 := by
  induction s using parts_induction with
  | step s ih =>
    have hparts : ∀ x ∈ s.parts.map (total weight), x = 0 := by
      intro x hx
      obtain ⟨part, hpart, rfl⟩ := List.mem_map.1 hx
      exact ih part hpart fun t ht => h t (occurs_iff.2 (Or.inr ⟨part, hpart, ht⟩))
    have hhere : weight s = 0 := h.here
    rw [total_eq, totalAll_eq_sum, hhere, List.sum_eq_zero hparts, add_zero]

/-- Reducing keeps the total of a weight of references and enumerations. -/
theorem WeighsNamed.total_reduce (hw : WeighsNamed weight) (reduction : Reduction) (s : Shape) :
    (s.reduce reduction).total weight = s.total weight := by
  have hleaves : WeighsLeaves weight := hw.isAbsorbed.toWeighsLeaves
  have hsample : ∀ value, (ofSample? value).total weight = 0 := fun value =>
    total_eq_zero (everywhere_ofSample? (fun _ _ _ => hw _ id) (fun _ => hw _ id)
      (fun _ => hw _ id) (fun _ _ => hw _ id) value)
  rw [reduce_eq, total_settle hw.isAbsorbed]
  refine total_widen hleaves hleaves (fun l => ?_) (fun _ _ => rfl) s
  rw [widen]
  split
  · rw [hsample, hw _ id]
  · exact total_of_parts_eq_nil rfl

end Named

section Scalars

variable {α : Type} {weight : Shape → SetSemiring α} {x : α}

/-- What scalar literals say, as a weight. -/
def scalarWeight : Shape → SetSemiring Scalar
  | .literal l => Set.up {x | l.Says x}
  | _ => 0

/-- What scalar literals say that are going to be widened, as a weight. -/
def widenedWeight (precise : Bool) : Shape → SetSemiring Scalar
  | .literal l => Set.up {x | l.SaysWidened precise x}
  | _ => 0

theorem mem_totalAll {members : List Shape} :
    x ∈ (totalAll weight members).down ↔ ∃ m ∈ members, x ∈ (m.total weight).down := by
  induction members with
  | nil => simp
  | cons m rest ih => simp [ih]

/-- A total of sets holds what one of the shapes that occur has. -/
theorem mem_total {s : Shape} :
    x ∈ (s.total weight).down ↔ ∃ t, Occurs t s ∧ x ∈ (weight t).down := by
  induction s using parts_induction with
  | step s ih =>
    rw [total_eq, SetSemiring.down_add, Set.mem_union, mem_totalAll]
    constructor
    · rintro (hx | ⟨part, hpart, hx⟩)
      · exact ⟨s, .whole, hx⟩
      · obtain ⟨t, ht, hx⟩ := (ih part hpart).1 hx
        exact ⟨t, occurs_iff.2 (Or.inr ⟨part, hpart, ht⟩), hx⟩
    · rintro ⟨t, ht, hx⟩
      rcases occurs_iff.1 ht with rfl | ⟨part, hpart, ht⟩
      · exact Or.inl hx
      · exact Or.inr ⟨part, hpart, (ih part hpart).2 ⟨t, ht, hx⟩⟩

/-- What the scalar literals in a shape say is a total. -/
theorem scalars_eq_total (s : Shape) : s.scalars = (s.total scalarWeight).down := by
  ext x
  rw [mem_total]
  constructor
  · rintro ⟨l, hl, hx⟩
    exact ⟨.literal l, hl, hx⟩
  · rintro ⟨t, ht, hx⟩
    cases t with
    | literal l => exact ⟨l, ht, hx⟩
    | _ => exact absurd hx (Set.notMem_empty x)

/-- So is what they say when the shape is widened. -/
theorem widenedScalars_eq_total (precise : Bool) (s : Shape) :
    s.widenedScalars precise = (s.total (widenedWeight precise)).down := by
  ext x
  rw [mem_total]
  constructor
  · rintro ⟨l, hl, hx⟩
    exact ⟨.literal l, hl, hx⟩
  · rintro ⟨t, ht, hx⟩
    cases t with
    | literal l => exact ⟨l, ht, hx⟩
    | _ => exact absurd hx (Set.notMem_empty x)

/-- A literal that says something is not left out for saying nothing. -/
theorem isVacuous_literal_eq_false {l : Literal} {x : Scalar} (h : l.Says x) :
    (Shape.literal l).isVacuous = false := by
  cases h with
  | @value sample v hnull hscalar hsame =>
    cases sample <;> first | rfl | cases hnull
  | @kind sample kind hkind hv =>
    cases sample <;> first | (cases hkind; exact hv) | cases hkind

/-- What a literal says, the literal that it repeats says. -/
theorem says_of_repeats {earlier : Shape} {l : Literal} {x : Scalar} (h : l.Says x)
    (hr : (Shape.literal l).repeats earlier = true) : x ∈ (scalarWeight earlier).down := by
  cases h with
  | @value sample v hnull hscalar hsame =>
    have hk : (Shape.literal ⟨some sample, true⟩).keyword? = none := by
      cases sample <;> first | rfl | cases hnull
    unfold repeats at hr
    simp only [hk] at hr
    cases earlier with
    | literal l' =>
      obtain ⟨sample', constant⟩ := l'
      have hboth : Literal.same ⟨sample', constant⟩ ⟨some sample, true⟩ = true := hr
      rw [Literal.same, Bool.and_eq_true, beq_iff_eq] at hboth
      obtain ⟨hsame', rfl⟩ := hboth
      cases sample' with
      | none => cases hsame'
      | some sample' =>
        have hnull' : sample'.isNull = false := (Json.isNull_eq_of_same hsame').trans hnull
        have hscalar' : sample'.isComposite = false :=
          (Json.isComposite_eq_of_same hsame').trans hscalar
        exact .value hnull' hscalar' (Json.same_trans_of_scalar hscalar' hsame' hsame)
    | _ => cases hr
  | @kind sample kind hkind hv =>
    have hk : (Shape.literal ⟨some sample, false⟩).keyword? = some kind := by
      cases sample <;> exact hkind
    unfold repeats at hr
    simp only [hk, beq_iff_eq] at hr
    obtain ⟨sample', rfl, hkind'⟩ := eq_literal_of_keyword? hr hv
    exact .kind hkind' hv

/-- What scalar literals say is absorbed. -/
theorem isAbsorbed_scalarWeight : IsAbsorbed scalarWeight := by
  refine ⟨⟨fun _ => rfl, fun _ => rfl, fun _ _ => rfl, fun _ => rfl⟩, fun s hs => ?_,
    fun earlier later hr => ?_⟩
  · cases s with
    | literal l =>
      have hnone : {x | l.Says x} = ∅ := by
        rw [Set.eq_empty_iff_forall_notMem]
        intro x hx
        rw [isVacuous_literal_eq_false hx] at hs
        cases hs
      rw [scalarWeight, hnone, Set.up_empty]
    | _ => rfl
  · cases later with
    | literal l =>
      refine Set.union_eq_self_of_subset_right fun x hx => ?_
      exact says_of_repeats hx hr
    | _ => exact add_zero _

theorem mem_scalars_literal {l : Literal} {x : Scalar} :
    x ∈ (Shape.literal l).scalars ↔ l.Says x := by
  constructor
  · rintro ⟨l', hl, hx⟩
    cases hl
    exact hx
  · exact fun hx => ⟨l, .whole, hx⟩

/-- The shape of a scalar value says of which kind the value is. -/
theorem mem_scalars_ofSample {sample : Json} (hs : sample.isComposite = false) {x : Scalar} :
    x ∈ (ofSample sample).scalars ↔ Literal.Says ⟨some sample, false⟩ x := by
  have hgeneral : ∃ general : Json, ofSample sample = .literal ⟨some general, false⟩ ∧
      general.keyword? = sample.keyword? := by
    cases sample <;> first | exact ⟨_, rfl, rfl⟩ | cases hs
  obtain ⟨general, he, hkind⟩ := hgeneral
  rw [he, mem_scalars_literal]
  constructor
  · rintro (_ | ⟨h, hv⟩)
    exact .kind (hkind ▸ h) hv
  · rintro (_ | ⟨h, hv⟩)
    exact .kind (hkind.trans h) hv

/-- A composite literal says nothing by itself. -/
theorem isComposite_eq_false_of_scalar {l : Literal} {x : Scalar} (h : l.Says x) :
    l.isComposite = false := by
  cases h with
  | value _ hscalar _ => exact hscalar
  | @kind sample kind hkind _ => cases sample <;> first | rfl | cases hkind

/-- What a literal is widened to says what the literal did. -/
theorem mem_scalars_widen_literal {precise : Bool} {l : Literal} {x : Scalar} :
    x ∈ ((Shape.literal l).widen precise).scalars ↔ l.SaysWidened precise x := by
  obtain ⟨sample, constant⟩ := l
  have hnothing : ¬ Literal.Says ⟨none, constant⟩ x := by rintro ⟨⟩
  by_cases hc : Literal.isComposite ⟨sample, constant⟩ = true
  · have hwiden : (Shape.literal ⟨sample, constant⟩).widen precise = ofSample? sample := by
      rw [widen, hc, Bool.true_or, if_pos rfl]
    cases sample with
    | none => cases hc
    | some sample =>
      rw [hwiden]
      constructor
      · exact fun hx => .shape hc hx
      · rintro (⟨-, hx⟩ | ⟨hs, -, -⟩ | ⟨-, hx⟩)
        · exact hx
        · cases hs.symm.trans hc
        · cases (isComposite_eq_false_of_scalar hx).symm.trans hc
  · rw [Bool.not_eq_true] at hc
    by_cases hw : (constant && !precise) = true
    · have hwiden : (Shape.literal ⟨sample, constant⟩).widen precise = ofSample? sample := by
        rw [widen, hc, Bool.false_or, if_pos hw]
      obtain ⟨rfl, hp⟩ : constant = true ∧ precise = false := by simpa using hw
      rw [hwiden]
      cases sample with
      | none =>
        have hundefined : ¬ Literal.Says ⟨none, false⟩ x := by rintro ⟨⟩
        rw [ofSample?, undefined, mem_scalars_literal]
        refine ⟨fun hx => absurd hx hundefined, ?_⟩
        rintro (_ | _ | ⟨-, hx⟩)
        exact absurd hx hnothing
      | some sample =>
        rw [ofSample?, mem_scalars_ofSample hc]
        constructor
        · exact fun hx => .widened hc hp hx
        · rintro (⟨hs, -⟩ | ⟨-, -, hx⟩ | ⟨hk, -⟩)
          · cases hs.symm.trans hc
          · exact hx
          · rw [hk rfl] at hp
            cases hp
    · have hwiden : (Shape.literal ⟨sample, constant⟩).widen precise =
          .literal ⟨sample, constant⟩ := by
        rw [widen, hc, Bool.false_or, if_neg hw]
      have hkept : constant = true → precise = true := by simpa using hw
      rw [hwiden, mem_scalars_literal]
      constructor
      · exact fun hx => .kept hkept hx
      · rintro (⟨hs, -⟩ | ⟨-, hp, -⟩ | ⟨-, hx⟩)
        · cases hs.symm.trans hc
        · rw [hkept rfl] at hp
          cases hp
        · exact hx

end Scalars

/-- Reducing neither loses nor invents a leaf. References and enumerations occur as
often as before, and the scalar literals say what they said before, when composite
ones count as their shape and constants as their kind unless precision is kept. -/
theorem leaves_reduce (reduction : Reduction) (s : Shape) :
    (s.reduce reduction).references = s.references ∧
      (s.reduce reduction).enumerations = s.enumerations ∧
      (s.reduce reduction).scalars = s.widenedScalars reduction.precise := by
  refine ⟨WeighsNamed.total_reduce (fun t ht => ?_) reduction s,
    WeighsNamed.total_reduce (fun t ht => ?_) reduction s, ?_⟩
  · cases t <;> first | rfl | exact absurd trivial ht
  · cases t <;> first | rfl | exact absurd trivial ht
  · have hleaves : WeighsLeaves (widenedWeight reduction.precise) :=
      ⟨fun _ => rfl, fun _ => rfl, fun _ _ => rfl, fun _ => rfl⟩
    have hother : ∀ t : Shape, (∀ l, t ≠ .literal l) →
        scalarWeight t = widenedWeight reduction.precise t := by
      intro t ht
      cases t with
      | literal l => exact absurd rfl (ht l)
      | _ => rfl
    have hliteral : ∀ l, ((Shape.literal l).widen reduction.precise).total scalarWeight =
        widenedWeight reduction.precise (.literal l) := by
      intro l
      have hsays : ((Shape.literal l).widen reduction.precise).scalars =
          l.SaysWidened reduction.precise := Set.ext fun x => mem_scalars_widen_literal
      rwa [scalars_eq_total] at hsays
    have hscalar : IsAbsorbed scalarWeight := isAbsorbed_scalarWeight
    rw [scalars_eq_total, widenedScalars_eq_total, reduce_eq, total_settle hscalar,
      total_widen hleaves hscalar.toWeighsLeaves hliteral hother]

end Shape

end TypedClient
