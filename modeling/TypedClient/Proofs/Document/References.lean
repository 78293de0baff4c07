import Mathlib.Logic.Relation
import TypedClient.Document.Reference

/-!
# The references of a document

A reference points at a part of the document, and the references in a part are
references of the document. So everything that following references can meet has
one of finitely many spellings.
-/

namespace TypedClient

namespace Json

/-- A member that is found is smaller than the object, an element than the list. -/
theorem mem_of_child?_eq_some {value part : Json} {key : List Char}
    (h : value.child? key = some part) :
    (∃ members, value = .object members ∧ ∃ m ∈ members, m.2 = part) ∨
      ∃ elements, value = .array elements ∧ part ∈ elements := by
  cases value with
  | object members => exact Or.inl ⟨members, rfl, _, mem_of_find?_eq_some h, rfl⟩
  | array elements =>
    obtain ⟨i, -, hi⟩ := Option.bind_eq_some_iff.1 h
    exact Or.inr ⟨elements, rfl, List.mem_of_getElem? hi⟩
  | _ => cases h

end Json

namespace Document

theorem mem_referencesInElements {r : String} {elements : List Json} :
    r ∈ referencesInElements elements ↔ ∃ v ∈ elements, r ∈ references v := by
  induction elements with
  | nil => simp [referencesInElements]
  | cons v rest ih => simp [referencesInElements, ih]

theorem mem_referencesInMembers {r : String} {members : List (String × Json)} :
    r ∈ referencesInMembers members ↔ ∃ m ∈ members, r ∈ references m.2 := by
  induction members with
  | nil => simp [referencesInMembers]
  | cons m rest ih => simp [referencesInMembers, ih]

/-- The references in an element are references of the list. -/
theorem mem_references_array {r : String} {elements : List Json} {v : Json} (hv : v ∈ elements)
    (h : r ∈ references v) : r ∈ references (.array elements) := by
  rw [references]
  exact mem_referencesInElements.2 ⟨v, hv, h⟩

/-- The references in the value of a member are references of the object. -/
theorem mem_references_member {r : String} {members : List (String × Json)} {m : String × Json}
    (hm : m ∈ members) (h : r ∈ references m.2) : r ∈ references (.object members) := by
  rw [references]
  exact List.mem_append_right _ (mem_referencesInMembers.2 ⟨m, hm, h⟩)

/-- What an object stands for is a reference of it. -/
theorem mem_references_of_reference? {r : String} {members : List (String × Json)}
    (h : reference? members = some r) : r ∈ references (.object members) := by
  rw [references, h]
  exact List.mem_append_left _ (List.mem_singleton_self r)

/-- The references in what a pointer points at are references of the whole. -/
theorem references_subset_of_descend? {keys : List (List Char)} {value part : Json}
    (h : value.descend? keys = some part) : references part ⊆ references value := by
  induction keys generalizing value with
  | nil =>
    cases h
    exact List.Subset.refl _
  | cons key keys ih =>
    obtain ⟨child, hchild, h⟩ := Option.bind_eq_some_iff.1 h
    refine List.Subset.trans (ih h) fun r hr => ?_
    rcases Json.mem_of_child?_eq_some hchild with ⟨members, rfl, m, hm, rfl⟩ |
      ⟨elements, rfl, hv⟩
    · exact mem_references_member hm hr
    · exact mem_references_array hv hr

/-- The references in what a reference points at are references of the document. -/
theorem references_subset_of_resolve? {document target : Json} {r : String}
    (h : resolve? document r = some target) : references target ⊆ references document := by
  unfold resolve? at h
  split at h
  · rename_i pointer _
    unfold Json.pointer? at h
    split at h
    · cases h
      exact List.Subset.refl _
    · exact references_subset_of_descend? h
    · cases h
  · cases h

end Document

end TypedClient
