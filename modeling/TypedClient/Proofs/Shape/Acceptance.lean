import Mathlib.Tactic.ByContra
import TypedClient.Proofs.Json.Values
import TypedClient.Proofs.Shape.Parts
import TypedClient.Shape.Sample

/-!
# The values a shape accepts

A shape is read as a set of document values: a constant as its value, a general
literal as its kind, a composite literal as the shape of its value, and null is a
value of every shape. An object accepts members each of which is accepted by a
field that stands for its name, as long as no required member is missing. What
references, enumerations and the shape that says nothing stand for is a matter of
the reading.
-/

namespace TypedClient

/-- How the parts of a shape are read that the shape itself leaves open. -/
structure Reading where
  /-- The values of the shape with the given name. -/
  references : String → Json → Prop
  /-- The values of an enumeration. -/
  enumerations : Enumeration → Json → Prop
  /-- The values of the shape that says nothing. -/
  anything : Json → Prop
  /-- The names that an index signature stands for even when they have a field of their own. -/
  lenient : String → Prop
  /-- The names that an object may lack even where they have a required field. -/
  missing : String → Prop
  /-- The values besides null that every shape has. -/
  blank : Json → Prop

namespace Reading

/-- Anything is any value, a name that has a field is not left to the index signature, and no
required member is missing. -/
def exact (references : String → Json → Prop) (enumerations : Enumeration → Json → Prop) :
    Reading where
  references := references
  enumerations := enumerations
  anything _ := True
  lenient _ := False
  missing _ := False
  blank _ := False

/-- The reading in which the shape that says nothing has no value of its own. -/
def silent (r : Reading) : Reading := { r with anything := fun _ => False }

/-- Whether a value belongs to every shape. -/
def IsBlank (r : Reading) (value : Json) : Prop := value = .null ∨ r.blank value

/-- Whether a key among those of an object stands for a name. -/
def StandsFor (r : Reading) (keys : List Key) (key : Key) (name : String) : Prop :=
  key = .named name ∨ key = .wildcard ∧ (r.lenient name ∨ Key.named name ∉ keys)

end Reading

/-- Whether a scalar literal stands for a value. -/
def Literal.Admits (l : Literal) (value : Json) : Prop :=
  match l.value with
  | none => value = .null
  | some sample =>
    if l.constant then sample.same value = true else sample.keyword? = value.keyword?

mutual

/-- A shape accepts a value. -/
inductive Accepts (r : Reading) : Shape → Json → Prop where
  /-- Every shape accepts a blank value. -/
  | blank {value : Json} (s : Shape) : r.IsBlank value → Accepts r s value
  /-- The shape that says nothing accepts what it is read as. -/
  | any {value : Json} : r.anything value → Accepts r .any value
  /-- A scalar literal accepts its value or the values of its kind. -/
  | literal {l : Literal} {value : Json} :
      l.isComposite = false → l.Admits value → Accepts r (.literal l) value
  /-- A composite literal accepts what the shape of its value accepts. -/
  | sample {l : Literal} {value : Json} :
      l.isComposite = true → Accepts r (.ofSample? l.value) value → Accepts r (.literal l) value
  /-- A list is accepted when every element is. -/
  | array {e : Shape} {elements : List Json} :
      (∀ v ∈ elements, Accepts r e v) → Accepts r (.array e) (.array elements)
  /-- An object is accepted when no required member is missing and every member is accepted. -/
  | object {fields : List (Field Shape)} {members : List (String × Json)} :
      (∀ f ∈ fields, ∀ name, f.key = .named name → f.optional = false →
        name ∈ members.map Prod.fst ∨ r.missing name) →
      (∀ m ∈ members, AcceptsMember r fields m) →
      Accepts r (.object fields) (.object members)
  /-- A union accepts what one of its members accepts. -/
  | union {members : List Shape} {m : Shape} {value : Json} :
      m ∈ members → Accepts r m value → Accepts r (.joined .or members) value
  /-- An intersection accepts what all of its members accept. -/
  | intersection {members : List Shape} {value : Json} :
      (∀ m ∈ members, Accepts r m value) → Accepts r (.joined .and members) value
  /-- A tuple accepts a list of its length whose elements are accepted at their positions. -/
  | tuple {members : List Shape} {elements : List Json} :
      members.length = elements.length → (∀ p ∈ members.zip elements, Accepts r p.1 p.2) →
      Accepts r (.tuple members) (.array elements)
  /-- An enumeration accepts what it is read as. -/
  | enumeration {e : Enumeration} {value : Json} :
      r.enumerations e value → Accepts r (.enumeration e) value
  /-- A reference accepts what it is read as. -/
  | reference {name : String} {value : Json} :
      r.references name value → Accepts r (.reference name) value

/-- The fields of an object accept a member: one that stands for its name accepts its value. -/
inductive AcceptsMember (r : Reading) : List (Field Shape) → String × Json → Prop where
  /-- The field stands for the name and accepts the value. -/
  | field {fields : List (Field Shape)} {f : Field Shape} {m : String × Json} :
      f ∈ fields → r.StandsFor (Field.keys fields) f.key m.1 → Accepts r f.value m.2 →
      AcceptsMember r fields m

end

/-- Every shape accepts null. -/
theorem Accepts.null {r : Reading} (s : Shape) : Accepts r s .null := .blank s (Or.inl rfl)

namespace Shape

section Inversion

variable {r : Reading} {value : Json}

/-- The shape that says nothing accepts blank values and what it is read as. -/
theorem accepts_any : Accepts r .any value ↔ r.IsBlank value ∨ r.anything value := by
  constructor
  · intro h
    cases h with
    | blank _ h => exact Or.inl h
    | any h => exact Or.inr h
  · rintro (h | h)
    · exact .blank _ h
    · exact .any h

/-- The shape without a value accepts blank values only. -/
theorem accepts_void : Accepts r .void value ↔ r.IsBlank value := by
  constructor
  · intro h
    cases h with
    | blank _ h => exact h
  · exact .blank _

/-- A scalar literal accepts blank values and those that it stands for. -/
theorem accepts_literal {l : Literal} (hl : l.isComposite = false) :
    Accepts r (.literal l) value ↔ r.IsBlank value ∨ l.Admits value := by
  constructor
  · intro h
    cases h with
    | blank _ h => exact Or.inl h
    | literal _ h => exact Or.inr h
    | sample hc => exact absurd (hl.symm.trans hc) Bool.false_ne_true
  · rintro (h | h)
    · exact .blank _ h
    · exact .literal hl h

/-- The members of an object that are accepted by fields. -/
structure AcceptsMembers (r : Reading) (fields : List (Field Shape))
    (members : List (String × Json)) : Prop where
  /-- No required member is missing. -/
  required : ∀ f ∈ fields, ∀ name, f.key = .named name → f.optional = false →
    name ∈ members.map Prod.fst ∨ r.missing name
  /-- Every member is accepted. -/
  covered : ∀ m ∈ members, AcceptsMember r fields m

/-- An object accepts blank values and objects with members that its fields accept. -/
theorem accepts_object {fields : List (Field Shape)} : Accepts r (.object fields) value ↔
    r.IsBlank value ∨ ∃ members, value = .object members ∧ AcceptsMembers r fields members := by
  constructor
  · intro h
    cases h with
    | blank _ h => exact Or.inl h
    | object required covered => exact Or.inr ⟨_, rfl, required, covered⟩
  · rintro (h | ⟨members, rfl, h⟩)
    · exact .blank _ h
    · exact .object h.required h.covered

/-- A union accepts blank values and what one of its members accepts. -/
theorem accepts_or {members : List Shape} : Accepts r (.joined .or members) value ↔
    r.IsBlank value ∨ ∃ m ∈ members, Accepts r m value := by
  constructor
  · intro h
    cases h with
    | blank _ h => exact Or.inl h
    | union hm h => exact Or.inr ⟨_, hm, h⟩
  · rintro (h | ⟨m, hm, h⟩)
    · exact .blank _ h
    · exact .union hm h

/-- An intersection accepts what all of its members accept. -/
theorem accepts_and {members : List Shape} : Accepts r (.joined .and members) value ↔
    ∀ m ∈ members, Accepts r m value := by
  constructor
  · intro h
    cases h with
    | blank _ h => exact fun m _ => .blank m h
    | intersection h => exact h
  · exact .intersection

end Inversion

section Parts

variable {r r' : Reading} {value : Json} {g : Shape → Shape}

end Parts

section Clashes

variable {r : Reading} {s : Shape} {value : Json}

end Clashes

end Shape

end TypedClient
