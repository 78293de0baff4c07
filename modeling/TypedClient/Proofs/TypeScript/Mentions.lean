import TypedClient.Proofs.Outcomes
import TypedClient.Proofs.Reduction.Inheritance
import TypedClient.TypeScript.Declarations

/-!
# The names that types mention

A type mentions the names of the types it is built of. The type of a shape mentions
no more than the names that the shape needs: those of its enumerations, and those
of its references that say something. Neither widening nor reducing a shape makes a
reference or an enumeration that was not there.
-/

namespace TypedClient

namespace Shape

section IsNamed

variable {s t : Shape} {precise : Bool}

/-- Widening makes no reference and no enumeration. -/
theorem occurs_of_occurs_widen (hn : IsNamed t) (h : Occurs t (s.widen precise)) : Occurs t s := by
  have hsample : ∀ value, Everywhere (fun u => IsNamed u → Occurs u s) (ofSample? value) :=
    everywhere_ofSample? (fun _ _ _ => False.elim) (fun _ => False.elim) (fun _ => False.elim)
      fun _ _ => False.elim
  have hall : Everywhere (fun u => IsNamed u → Occurs u s) (s.widen precise) :=
    Everywhere.widen (fun _ => False.elim) (fun _ => False.elim) (fun _ _ _ _ _ => False.elim)
      (fun _ _ _ => False.elim) (fun l _ => hsample l.value) fun _ hu _ => hu
  exact hall t h hn

/-- Reducing makes no reference and no enumeration. -/
theorem occurs_of_occurs_reduce {reduction : Reduction} (hn : IsNamed t)
    (h : Occurs t (s.reduce reduction)) : Occurs t s := by
  have hI : Inherited reduction.dictionaryThreshold fun u => IsNamed u → Occurs u s :=
    ⟨False.elim, fun _ => False.elim, fun _ => False.elim, fun _ _ _ => False.elim,
      fun _ _ _ => False.elim, fun _ _ _ _ _ => False.elim⟩
  have hwidened : Everywhere (fun u => IsNamed u → Occurs u s) (s.widen reduction.precise) :=
    fun _ hu hnamed => occurs_of_occurs_widen hnamed hu
  rw [reduce_eq] at h
  exact hwidened.settle hI t h hn

end IsNamed

end Shape

namespace TypeScript

/-- A type mentions a name. -/
inductive Mentions (name : String) : TypeNode → Prop where
  /-- A named type mentions its name. -/
  | here {arguments : List TypeNode} : Mentions name (.reference name arguments)
  /-- It mentions what its arguments mention. -/
  | argument {other : String} {arguments : List TypeNode} {t : TypeNode} :
      t ∈ arguments → Mentions name t → Mentions name (.reference other arguments)
  /-- An array type mentions what its element does. -/
  | element {t : TypeNode} : Mentions name t → Mentions name (.array t)
  /-- An object type mentions what its members do. -/
  | value {members : List (Field TypeNode)} {f : Field TypeNode} :
      f ∈ members → Mentions name f.value → Mentions name (.object members)
  /-- A union mentions what its members do. -/
  | union {members : List TypeNode} {t : TypeNode} :
      t ∈ members → Mentions name t → Mentions name (.union members)
  /-- An intersection mentions what its members do. -/
  | intersection {members : List TypeNode} {t : TypeNode} :
      t ∈ members → Mentions name t → Mentions name (.intersection members)
  /-- A tuple mentions what its members do. -/
  | position {members : List TypeNode} {t : TypeNode} :
      t ∈ members → Mentions name t → Mentions name (.tuple members)

/-- A declaration mentions the names that the types in it mention. -/
inductive Declaration.Mentions (name : String) : Declaration → Prop where
  /-- In the members of an interface. -/
  | member {declared : String} {members : List (Field TypeNode)} {f : Field TypeNode} :
      f ∈ members → TypeScript.Mentions name f.value →
      Declaration.Mentions name (.interface declared members)
  /-- In the body of an alias. -/
  | body {declared : String} {t : TypeNode} :
      TypeScript.Mentions name t → Declaration.Mentions name (.alias declared t)
  /-- In the parameters of a function. -/
  | parameter {f : Function} {p : Parameter} :
      p ∈ f.parameters → TypeScript.Mentions name p.type →
      Declaration.Mentions name (.function f)
  /-- In what a function returns. -/
  | returns {f : Function} :
      TypeScript.Mentions name f.returnType → Declaration.Mentions name (.function f)

/-- A shape needs a name: of an enumeration in it, or of a reference in it that says
something. -/
def Needs (arena : Arena) (s : Shape) (name : String) : Prop :=
  (Shape.Occurs (.reference name) s ∧ (Shape.reference name).isTrivial arena = false) ∨
    ∃ e, Shape.Occurs (.enumeration e) s ∧ e.name = name

section OfShape

variable {arena : Arena} {s : Shape} {t : TypeNode} {name : String}

/-- A shape needs what its parts need. -/
theorem Needs.of_occurs {part : Shape} (h : Needs arena part name) (ho : Shape.Occurs part s) :
    Needs arena s name := by
  rcases h with ⟨hr, ht⟩ | ⟨e, he, rfl⟩
  · exact Or.inl ⟨hr.trans ho, ht⟩
  · exact Or.inr ⟨e, he.trans ho, rfl⟩

/-- A shape needs what the widened shape needs. -/
theorem Needs.of_widen {precise : Bool} (h : Needs arena (s.widen precise) name) :
    Needs arena s name := by
  rcases h with ⟨hr, ht⟩ | ⟨e, he, rfl⟩
  · exact Or.inl ⟨Shape.occurs_of_occurs_widen trivial hr, ht⟩
  · exact Or.inr ⟨e, Shape.occurs_of_occurs_widen trivial he, rfl⟩

/-- The type of a literal mentions nothing. -/
theorem not_mentions_ofLiteral (l : Literal) : ¬ Mentions name (TypeNode.ofLiteral l) := by
  unfold TypeNode.ofLiteral
  split <;> intro h <;> cases h

/-- The type of a reference mentions the reference, if it says something. -/
theorem mentions_ofReference {target : String}
    (h : Mentions name (TypeNode.ofReference arena target)) :
    name = target ∧ (Shape.reference target).isTrivial arena = false := by
  unfold TypeNode.ofReference at h
  split at h
  · split at h
    · cases h
    · cases h
    · exact absurd h (not_mentions_ofLiteral _)
    · cases h
  · rename_i ht
    cases h with
    | here => exact ⟨rfl, by simpa using ht⟩
    | argument ha _ => exact absurd ha List.not_mem_nil

/-- What is joined of types mentions what one of them mentions. -/
theorem mentions_ofJoined {c : Connective} {types : List TypeNode}
    (h : Mentions name (TypeNode.ofJoined c types)) : ∃ t ∈ types, Mentions name t := by
  unfold TypeNode.ofJoined at h
  split at h
  · cases h
  · exact ⟨_, List.mem_singleton_self _, h⟩
  · split at h
    · cases h with
      | union ht hm => exact ⟨_, ht, hm⟩
    · cases h with
      | intersection ht hm => exact ⟨_, ht, hm⟩

/-- Each of the types of shapes is the type of one of them. -/
theorem exists_of_mem_ofAllWidened {members : List Shape} {types : List TypeNode}
    (h : TypeNode.ofAllWidened arena members = .ok types) :
    ∀ t ∈ types, ∃ m ∈ members, TypeNode.ofWidened arena m = .ok t := by
  induction members generalizing types with
  | nil =>
    cases h
    simp
  | cons m rest ih =>
    obtain ⟨first, hfirst, h⟩ := ok_of_bind_eq_ok h
    obtain ⟨others, hothers, h⟩ := ok_of_bind_eq_ok h
    cases h
    intro t ht
    rcases List.mem_cons.1 ht with rfl | ht
    · exact ⟨m, List.mem_cons_self, hfirst⟩
    · obtain ⟨m', hm', ht⟩ := ih hothers t ht
      exact ⟨m', List.mem_cons_of_mem _ hm', ht⟩

/-- Each member of an object type has the key and the documentation of a field, and the type of
its value. -/
theorem exists_of_mem_ofWidenedFields {fields : List (Field Shape)}
    {members : List (Field TypeNode)}
    (h : TypeNode.ofWidenedFields arena fields = .ok members) :
    ∀ g ∈ members, ∃ f ∈ fields, g.key = f.key ∧ g.doc = fieldDoc f ∧
      TypeNode.ofWidened arena f.value = .ok g.value := by
  induction fields generalizing members with
  | nil =>
    cases h
    simp
  | cons f rest ih =>
    unfold TypeNode.ofWidenedFields at h
    split at h
    · cases h
    · obtain ⟨first, hfirst, h⟩ := ok_of_bind_eq_ok h
      obtain ⟨others, hothers, h⟩ := ok_of_bind_eq_ok h
      cases h
      intro g hg
      rcases List.mem_cons.1 hg with rfl | hg
      · exact ⟨f, List.mem_cons_self, rfl, rfl, hfirst⟩
      · obtain ⟨f', hf', hg⟩ := ih hothers g hg
        exact ⟨f', List.mem_cons_of_mem _ hf', hg⟩

/-- The type of a widened shape mentions no more than the shape needs. -/
theorem needs_of_mentions_ofWidened (h : TypeNode.ofWidened arena s = .ok t)
    (hm : Mentions name t) : Needs arena s name := by
  induction s using Shape.tree_induction generalizing t with
  | any | void =>
    cases h
    cases hm
  | literal l =>
    cases h
    exact absurd hm (not_mentions_ofLiteral l)
  | array e ih =>
    obtain ⟨element, helement, h⟩ := ok_of_bind_eq_ok h
    cases h
    cases hm with
    | element hm => exact (ih helement hm).of_occurs (.element .whole)
  | object fields ih =>
    obtain ⟨members, hmembers, h⟩ := ok_of_bind_eq_ok h
    cases h
    cases hm with
    | value hg hm =>
      obtain ⟨f, hf, -, -, hv⟩ := exists_of_mem_ofWidenedFields hmembers _ hg
      exact (ih f hf hv hm).of_occurs (.value hf .whole)
  | joined c members ih =>
    obtain ⟨types, htypes, h⟩ := ok_of_bind_eq_ok h
    cases h
    obtain ⟨t, ht, hm⟩ := mentions_ofJoined hm
    obtain ⟨m, hmem, hv⟩ := exists_of_mem_ofAllWidened htypes t ht
    exact (ih m hmem hv hm).of_occurs (.member hmem .whole)
  | tuple members ih =>
    obtain ⟨types, htypes, h⟩ := ok_of_bind_eq_ok h
    cases h
    cases hm with
    | position ht hm =>
      obtain ⟨m, hmem, hv⟩ := exists_of_mem_ofAllWidened htypes _ ht
      exact (ih m hmem hv hm).of_occurs (.position hmem .whole)
  | enumeration e =>
    cases h
    cases hm with
    | here => exact Or.inr ⟨e, .whole, rfl⟩
    | argument ha _ => exact absurd ha List.not_mem_nil
  | reference target =>
    cases h
    obtain ⟨rfl, ht⟩ := mentions_ofReference hm
    exact Or.inl ⟨.whole, ht⟩

/-- The type of a shape mentions no more than the shape needs. -/
theorem needs_of_mentions_ofShape (h : TypeNode.ofShape arena s = .ok t) (hm : Mentions name t) :
    Needs arena s name :=
  (needs_of_mentions_ofWidened h hm).of_widen

/-- The declaration of a name mentions no more than its shape needs. -/
theorem needs_of_mentions_declarationOf {declared : String} {d : Declaration}
    (h : declarationOf arena declared s = .ok d) (hm : d.Mentions name) : Needs arena s name := by
  unfold declarationOf at h
  split at h
  · rename_i fields
    obtain ⟨members, hmembers, rfl⟩ := ok_of_map_eq_ok h
    cases hm with
    | member hg hm =>
      obtain ⟨f, hf, -, -, hv⟩ := exists_of_mem_ofWidenedFields hmembers _ hg
      have hwidened : (Shape.object fields).widen true =
          .object (Shape.widenFields true fields) := by
        rw [Shape.widen]
      have hneeds := (needs_of_mentions_ofWidened hv hm).of_occurs (.value hf .whole)
      rw [← hwidened] at hneeds
      exact hneeds.of_widen
  · obtain ⟨t, ht, rfl⟩ := ok_of_map_eq_ok h
    cases hm with
    | body hm => exact needs_of_mentions_ofShape ht hm

end OfShape

end TypeScript

end TypedClient
