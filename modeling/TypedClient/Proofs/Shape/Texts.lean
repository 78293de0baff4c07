import TypedClient.Proofs.Api.Identifiers
import TypedClient.Proofs.Json.Texts
import TypedClient.Proofs.Shape.Distinct
import TypedClient.Proofs.Shape.Parts

/-!
# Texts of a shape

A shape holds texts in the values of its literals, in the keys, documentation and default
values of its fields, and in the values of its enumerations. All of these are allowed in a
shape that is written with allowed texts. The names in it are no such texts: they have
characters of identifiers only.
-/

namespace TypedClient

/-- The key, the documentation and the default value of a field are allowed. -/
structure Field.IsWrittenWith {σ : Type} (allowed : String → Prop) (f : Field σ) : Prop where
  /-- A named key is allowed. -/
  key : ∀ name, f.key = .named name → allowed name
  /-- The documentation is allowed. -/
  doc : ∀ text, f.doc = some text → allowed text
  /-- The default value is written with allowed texts. -/
  default : ∀ value, f.default = some value → value.IsWrittenWith allowed

/-- The names of an enumeration have characters of identifiers, and its values are written with
allowed texts. -/
structure Enumeration.IsWrittenWith (allowed : String → Prop) (e : Enumeration) : Prop where
  /-- The name of the enumeration. -/
  name : HasIdentifierChars e.name
  /-- The names of the constants. -/
  names : ∀ m ∈ e.members, HasIdentifierChars m.name
  /-- The values of the constants. -/
  values : ∀ m ∈ e.members, m.value.IsWrittenWith allowed

/-- What a field stands for does not matter to its own texts. -/
theorem Field.IsWrittenWith.mapValue {σ τ : Type} {allowed : String → Prop} {f : Field σ}
    (h : f.IsWrittenWith allowed) (g : σ → τ) : (f.mapValue g).IsWrittenWith allowed :=
  ⟨h.key, h.doc, h.default⟩

namespace Shape

/-- The texts in the outermost layer of a shape are allowed, and its names have characters of
identifiers. -/
def UsesOnly (allowed : String → Prop) : Shape → Prop
  | .literal l => ∀ value, l.value = some value → value.IsWrittenWith allowed
  | .object fields => ∀ f ∈ fields, f.IsWrittenWith allowed
  | .enumeration e => e.IsWrittenWith allowed
  | .reference name => HasIdentifierChars name
  | _ => True

/-- All texts in a shape are allowed, and all names have characters of identifiers. -/
def IsWrittenWith (allowed : String → Prop) (s : Shape) : Prop := Everywhere (UsesOnly allowed) s

section IsWrittenWith

variable {allowed : String → Prop} {fields : List (Field Shape)} {members : List Shape}

@[simp] theorem isWrittenWith_any : Shape.any.IsWrittenWith allowed := everywhere_any.2 trivial

@[simp] theorem isWrittenWith_void : Shape.void.IsWrittenWith allowed := everywhere_void.2 trivial

@[simp] theorem isWrittenWith_literal {l : Literal} :
    (Shape.literal l).IsWrittenWith allowed ↔
      ∀ value, l.value = some value → value.IsWrittenWith allowed :=
  everywhere_literal

@[simp] theorem isWrittenWith_array {e : Shape} :
    (Shape.array e).IsWrittenWith allowed ↔ e.IsWrittenWith allowed :=
  everywhere_array.trans (and_iff_right trivial)

@[simp] theorem isWrittenWith_object :
    (Shape.object fields).IsWrittenWith allowed ↔
      ∀ f ∈ fields, f.IsWrittenWith allowed ∧ f.value.IsWrittenWith allowed :=
  everywhere_object.trans
    ⟨fun h f hf => ⟨h.1 f hf, h.2 f hf⟩, fun h => ⟨fun f hf => (h f hf).1, fun f hf => (h f hf).2⟩⟩

@[simp] theorem isWrittenWith_joined {c : Connective} :
    (Shape.joined c members).IsWrittenWith allowed ↔ ∀ m ∈ members, m.IsWrittenWith allowed :=
  everywhere_joined.trans (and_iff_right trivial)

@[simp] theorem isWrittenWith_tuple :
    (Shape.tuple members).IsWrittenWith allowed ↔ ∀ m ∈ members, m.IsWrittenWith allowed :=
  everywhere_tuple.trans (and_iff_right trivial)

@[simp] theorem isWrittenWith_enumeration {e : Enumeration} :
    (Shape.enumeration e).IsWrittenWith allowed ↔ e.IsWrittenWith allowed :=
  everywhere_enumeration

@[simp] theorem isWrittenWith_reference {name : String} :
    (Shape.reference name).IsWrittenWith allowed ↔ HasIdentifierChars name :=
  everywhere_reference

/-- The union of shapes that are written with allowed texts. -/
theorem isWrittenWith_union (h : ∀ m ∈ members, m.IsWrittenWith allowed) :
    (union members).IsWrittenWith allowed :=
  isWrittenWith_joined.2 fun m hm => h m (mem_of_mem_distinct hm)

/-- The intersection of shapes that are written with allowed texts. -/
theorem isWrittenWith_intersection (h : ∀ m ∈ members, m.IsWrittenWith allowed) :
    (intersection members).IsWrittenWith allowed :=
  isWrittenWith_joined.2 fun m hm => h m (mem_of_mem_distinct hm)

/-- The object of fields that are written with allowed texts. -/
theorem isWrittenWith_ofFields
    (h : ∀ f ∈ fields, f.IsWrittenWith allowed ∧ f.value.IsWrittenWith allowed) :
    (ofFields fields).IsWrittenWith allowed :=
  everywhere_ofFields (fun _ _ hkept f hf => (h f (hkept hf)).1) fun f hf => (h f hf).2

/-- A constant is written with the texts of its value. -/
theorem isWrittenWith_constant {value : Json} (h : value.IsWrittenWith allowed) :
    (constant value).IsWrittenWith allowed := by
  refine isWrittenWith_literal.2 fun v hv => ?_
  cases hv
  exact h

end IsWrittenWith

end Shape

end TypedClient
