import Mathlib.Order.Nat
import TypedClient.Proofs.Shape.Parts

/-!
# Depth

The depth of a shape counts lists, objects and tuples as its nesting does, and looks into
literals as well: a composite literal is as deep as its value.
-/

namespace TypedClient

namespace Json

mutual

/-- How deeply lists and objects are nested in a value. -/
def depth : Json → Nat
  | .array elements => depthElements elements + 1
  | .object members => depthMembers members + 1
  | _ => 0

/-- The greatest depth among values. -/
def depthElements : List Json → Nat
  | [] => 0
  | value :: rest => max value.depth (depthElements rest)

/-- The greatest depth among the values of members. -/
def depthMembers : List (String × Json) → Nat
  | [] => 0
  | (_, value) :: rest => max value.depth (depthMembers rest)

end

/-- No element is deeper than the list. -/
theorem depth_le_depthElements {elements : List Json} {value : Json} (h : value ∈ elements) :
    value.depth ≤ depthElements elements := by
  induction elements with
  | nil => cases h
  | cons first rest ih =>
    rw [depthElements]
    rcases List.mem_cons.1 h with rfl | h
    · exact Nat.le_max_left _ _
    · exact (ih h).trans (Nat.le_max_right _ _)

/-- The value of no member is deeper than the list of members. -/
theorem depth_le_depthMembers {members : List (String × Json)} {m : String × Json}
    (h : m ∈ members) : m.2.depth ≤ depthMembers members := by
  induction members with
  | nil => cases h
  | cons first rest ih =>
    rw [depthMembers]
    rcases List.mem_cons.1 h with rfl | h
    · exact Nat.le_max_left _ _
    · exact (ih h).trans (Nat.le_max_right _ _)

end Json

/-- How deep the value of a literal is. -/
def Literal.depth (l : Literal) : Nat :=
  match l.value with
  | none => 0
  | some value => value.depth

/-- A scalar literal has no depth. -/
theorem Literal.depth_of_scalar {l : Literal} (h : l.isComposite = false) : l.depth = 0 := by
  rcases l with ⟨_ | _ | _ | _ | _ | _ | _, _⟩ <;> first | rfl | cases h

namespace Shape

mutual

/-- How deeply lists, objects and tuples are nested in a shape, where a literal is as deep as
its value. -/
def depth : Shape → Nat
  | .literal l => l.depth
  | .array element => element.depth + 1
  | .object fields => depthFields fields + 1
  | .joined _ members => depthAll members
  | .tuple members => depthAll members + 1
  | _ => 0

/-- The greatest depth among shapes. -/
def depthAll : List Shape → Nat
  | [] => 0
  | member :: rest => max member.depth (depthAll rest)

/-- The greatest depth among the values of fields. -/
def depthFields : List (Field Shape) → Nat
  | [] => 0
  | field :: rest => max field.value.depth (depthFields rest)

end

section Bounds

variable {members : List Shape} {fields : List (Field Shape)} {n : Nat}

/-- A list of shapes is as deep as its deepest member. -/
theorem depthAll_le_iff : depthAll members ≤ n ↔ ∀ m ∈ members, m.depth ≤ n := by
  induction members with
  | nil => simp [depthAll]
  | cons m rest ih => rw [depthAll, Nat.max_le, ih, List.forall_mem_cons]

/-- A list of fields is as deep as its deepest value. -/
theorem depthFields_le_iff : depthFields fields ≤ n ↔ ∀ f ∈ fields, f.value.depth ≤ n := by
  induction fields with
  | nil => simp [depthFields]
  | cons f rest ih => rw [depthFields, Nat.max_le, ih, List.forall_mem_cons]

/-- No member is deeper than the list. -/
theorem depth_le_depthAll {m : Shape} (h : m ∈ members) : m.depth ≤ depthAll members :=
  depthAll_le_iff.1 (Nat.le_refl _) m h

/-- No value of a field is as deep as the object. -/
theorem depth_value_lt {f : Field Shape} (h : f ∈ fields) :
    f.value.depth < (Shape.object fields).depth :=
  Nat.lt_succ_of_le (depthFields_le_iff.1 (Nat.le_refl _) f h)

/-- Some member of a list that is not empty is as deep as the list. -/
theorem exists_depthAll_le (hne : members ≠ []) : ∃ m ∈ members, depthAll members ≤ m.depth := by
  induction members with
  | nil => exact absurd rfl hne
  | cons m rest ih =>
    by_cases hrest : depthAll rest ≤ m.depth
    · exact ⟨m, List.mem_cons_self, Nat.max_le.2 ⟨Nat.le_refl _, hrest⟩⟩
    · have hsome : rest ≠ [] := by
        rintro rfl
        exact hrest (Nat.zero_le _)
      obtain ⟨d, hd, hle⟩ := ih hsome
      exact ⟨d, List.mem_cons_of_mem _ hd, Nat.max_le.2 ⟨by omega, hle⟩⟩

/-- Members that are all less deep make a list that is. -/
theorem depthAll_lt (hne : members ≠ []) (h : ∀ m ∈ members, m.depth < n) :
    depthAll members < n := by
  obtain ⟨d, hd, hle⟩ := exists_depthAll_le hne
  exact hle.trans_lt (h d hd)

/-- An object with some fields is no deeper than what lies above all of its values. -/
theorem depth_object_le (hne : fields ≠ []) (h : ∀ f ∈ fields, f.value.depth < n) :
    (Shape.object fields).depth ≤ n := by
  obtain ⟨f, hf⟩ := List.exists_mem_of_ne_nil fields hne
  have hn := h f hf
  have hle : depthFields fields ≤ n - 1 :=
    depthFields_le_iff.2 fun f hf => Nat.le_sub_one_of_lt (h f hf)
  rw [depth]
  omega

end Bounds

end Shape

end TypedClient
