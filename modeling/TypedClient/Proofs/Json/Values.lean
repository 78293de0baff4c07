import Mathlib.Tactic.Basic
import TypedClient.Json.Basic

/-!
# Document values

Induction over the tree of a value, and the laws of equality that scalar values
obey: it is symmetric and transitive, although two numbers that are not the same
data may be equal.
-/

namespace TypedClient

/-- Numeric equality of floating-point numbers is symmetric. -/
theorem Binary64.sameValue_comm (x y : Binary64) : x.sameValue y = y.sameValue x := by
  rw [sameValue, sameValue, Bool.and_comm x.isZero, Bool.beq_comm]

/-- Numeric equality of floating-point numbers is transitive. -/
theorem Binary64.sameValue_trans {x y z : Binary64} (h : x.sameValue y = true)
    (h' : y.sameValue z = true) : x.sameValue z = true := by
  simp only [sameValue, Bool.or_eq_true, Bool.and_eq_true, beq_iff_eq] at h h' ⊢
  rcases h with rfl | ⟨hx, hy⟩
  · exact h'
  · rcases h' with rfl | ⟨-, hz⟩
    · exact Or.inr ⟨hx, hy⟩
    · exact Or.inr ⟨hx, hz⟩

/-- A number is equal to itself. -/
theorem Number.same_self (n : Number) : n.same n = true := by
  cases n with
  | integer i => exact beq_self_eq_true i
  | float x => simp [same, Binary64.sameValue]

/-- Equality of numbers is symmetric. -/
theorem Number.same_comm (m n : Number) : m.same n = n.same m := by
  cases m <;> cases n <;> simp only [same]
  · exact Bool.beq_comm
  · exact Binary64.sameValue_comm _ _

/-- Equality of numbers is transitive. -/
theorem Number.same_trans {k m n : Number} (h : k.same m = true) (h' : m.same n = true) :
    k.same n = true := by
  cases k <;> cases m <;> cases n <;> simp only [same, beq_iff_eq, Bool.false_eq_true] at h h' ⊢
  · exact h.trans h'
  · exact Binary64.sameValue_trans h h'

namespace Json

/-- Induction over the tree of a document value. -/
@[elab_as_elim]
theorem tree_induction {motive : Json → Prop} (null : motive .null)
    (bool : ∀ b, motive (.bool b)) (number : ∀ n, motive (.number n))
    (string : ∀ text, motive (.string text))
    (array : ∀ elements, (∀ v ∈ elements, motive v) → motive (.array elements))
    (object : ∀ members, (∀ m ∈ members, motive m.2) → motive (.object members))
    (value : Json) : motive value :=
  @Json.rec motive (fun elements => ∀ v ∈ elements, motive v)
    (fun members => ∀ m ∈ members, motive m.2) (fun m => motive m.2)
    null bool number string array object
    (by simp) (fun _ _ head tail => List.forall_mem_cons.2 ⟨head, tail⟩)
    (by simp) (fun _ _ head tail => List.forall_mem_cons.2 ⟨head, tail⟩)
    (fun _ _ second => second) value

/-- A value is an element of a list or the value of a member of an object. -/
inductive IsPartOf (part : Json) : Json → Prop where
  /-- It is an element. -/
  | element {elements : List Json} (h : part ∈ elements) : IsPartOf part (.array elements)
  /-- It is the value of a member. -/
  | member {members : List (String × Json)} {key : String} (h : (key, part) ∈ members) :
    IsPartOf part (.object members)

/-- Equality with a scalar value is symmetric. -/
theorem same_comm_of_scalar {v : Json} (h : v.isComposite = false) (w : Json) :
    v.same w = w.same v := by
  cases v <;> cases w <;> simp only [same, isComposite, Bool.true_eq_false] at h ⊢
  · exact Bool.beq_comm
  · exact Number.same_comm _ _
  · exact Bool.beq_comm

/-- A scalar value is equal to itself. -/
theorem same_self_of_scalar {v : Json} (h : v.isComposite = false) : v.same v = true := by
  cases v with
  | null => rfl
  | bool b => exact beq_self_eq_true b
  | number n => exact Number.same_self n
  | string text => exact beq_self_eq_true text
  | array | object => cases h

/-- Equality of scalar values is transitive. -/
theorem same_trans_of_scalar {u v w : Json} (hu : u.isComposite = false) (h : u.same v = true)
    (h' : v.same w = true) : u.same w = true := by
  cases u <;> simp only [isComposite, Bool.true_eq_false] at hu <;>
    cases v <;> simp only [same, Bool.false_eq_true] at h <;>
    cases w <;> simp only [same, Bool.false_eq_true] at h' ⊢
  · exact (beq_iff_eq.1 h) ▸ h'
  · exact Number.same_trans h h'
  · exact (beq_iff_eq.1 h) ▸ h'

/-- Equal values are both null or neither is. -/
theorem isNull_eq_of_same {v w : Json} (h : v.same w = true) : v.isNull = w.isNull := by
  cases v <;> cases w <;> first | rfl | (rw [same] at h <;> simp_all)

/-- Equal values are both composite or neither is. -/
theorem isComposite_eq_of_same {v w : Json} (h : v.same w = true) :
    v.isComposite = w.isComposite := by
  cases v <;> cases w <;> first | rfl | (rw [same] at h <;> simp_all)

end Json

end TypedClient
