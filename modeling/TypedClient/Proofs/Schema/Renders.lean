import Mathlib.Data.List.Forall2
import TypedClient.Proofs.Schema.Parts
import TypedClient.Proofs.Shape.Arena
import TypedClient.Proofs.Shape.Distinct
import TypedClient.Proofs.Shape.Parts
import TypedClient.Schema.Catalog

/-!
# Shapes that render a schema

What the walk over a schema results in, said without the walk: a shape renders a
schema in a catalog when it is put together from shapes that render the parts. The
catalog counts in two places. A reference needs a name that the catalog knows, and the
values of a definition need an enumeration that the catalog has. So a shape that
renders a schema still does when the catalog grows, and every name in it is accounted
for.
-/

namespace TypedClient

/-- Fields that keep all but their values, which are given in order. -/
def Field.withValues {σ τ : Type} (fields : List (Field σ)) (values : List τ) : List (Field τ) :=
  (fields.zip values).map fun p => p.1.mapValue fun _ => p.2

/-- The key of such a field is that of the field it stands for. -/
theorem Field.exists_key_eq_of_mem_withValues {σ τ : Type} {fields : List (Field σ)}
    {values : List τ} {f : Field τ} (h : f ∈ Field.withValues fields values) :
    ∃ g ∈ fields, f.key = g.key := by
  obtain ⟨p, hp, rfl⟩ := List.mem_map.1 h
  exact ⟨p.1, (List.of_mem_zip hp).1, rfl⟩

/-- The value of such a field is one of those given. -/
theorem Field.value_mem_of_mem_withValues {σ τ : Type} {fields : List (Field σ)} {values : List τ}
    {f : Field τ} (h : f ∈ Field.withValues fields values) : f.value ∈ values := by
  obtain ⟨p, hp, rfl⟩ := List.mem_map.1 h
  exact (List.of_mem_zip hp).2

/-- What stands in the second of two lists that are related stands there for something
in the first. -/
theorem exists_of_mem_forall₂ {α β : Type} {R : α → β → Prop} {l : List α} {l' : List β}
    (h : List.Forall₂ R l l') {b : β} (hb : b ∈ l') : ∃ a ∈ l, R a b := by
  induction h with
  | nil => cases hb
  | cons hfirst _ ih =>
    rcases List.mem_cons.1 hb with rfl | hb
    · exact ⟨_, List.mem_cons_self, hfirst⟩
    · obtain ⟨a, ha, hab⟩ := ih hb
      exact ⟨a, List.mem_cons_of_mem _ ha, hab⟩

namespace Catalog

/-- Whether listed values can be told apart: as constants of an enumeration when a
definition lists them, and as scalars otherwise. -/
def canList (document : Json) (values : List Json) : Bool :=
  match correlatedKey? values (definitions document) with
  | some key => (enumerationOf? (identifier key) values).isSome
  | none => !values.any Json.isComposite

/-- A shape renders a schema of a document in a catalog. -/
inductive Renders (document : Json) (c : Catalog) : Schema → Shape → Prop where
  /-- Nothing is demanded. -/
  | anything : Renders document c .anything .any
  /-- A kind is its own shape. -/
  | scalar (s : Shape) : Renders document c (.scalar s) s
  /-- A reference is the name of what it points at. -/
  | reference {r : String} {target : Json} (h : Document.resolve? document r = some target)
    (hknown : c.knows (Document.targetName r) = true) :
    Renders document c (.reference r) (.reference (Document.targetName r))
  /-- A reference that points at nothing. -/
  | dangling {r : String} (h : Document.resolve? document r = none) :
    Renders document c (.reference r) .any
  /-- All of several schemas. -/
  | allOf {parts : List Schema} {members : List Shape}
    (h : List.Forall₂ (Renders document c) parts members) :
    Renders document c (.allOf parts) (.intersection members)
  /-- One of several schemas. -/
  | oneOf {overlapping : Bool} {branches : List Schema} {members : List Shape}
    (h : List.Forall₂ (Renders document c) branches members) :
    Renders document c (.oneOf overlapping branches) (.union members)
  /-- An object with further members. Whether the rest says anything is asked of some
  arena, which matters only when the rest is a reference. -/
  | dictionary {extra base : Schema} {value known : Shape} (arena : Arena)
    (hextra : Renders document c extra value) (hbase : Renders document c base known) :
    Renders document c (.dictionary extra base) (withDictionary known value arena)
  /-- The values of a definition are an enumeration of its name. -/
  | named {values : List Json} {base : Schema} {key : String} {e : Enumeration}
    (hkey : correlatedKey? values (definitions document) = some key) (he : e ∈ c.enums)
    (hname : e.name = identifier key) :
    Renders document c (.enumeration values base) (.enumeration e)
  /-- Other scalars are constants. -/
  | constants {values : List Json} {base : Schema}
    (hkey : correlatedKey? values (definitions document) = none)
    (hlist : canList document values = true) :
    Renders document c (.enumeration values base) (.union (values.map .constant))
  /-- Values that cannot be told apart leave the schema that stands in for them. -/
  | base {values : List Json} {base : Schema} {s : Shape}
    (hlist : canList document values = false) (h : Renders document c base s) :
    Renders document c (.enumeration values base) s
  /-- Several kinds. -/
  | kinds {nullable : Bool} {kinds : List Schema} {members : List Shape}
    (h : List.Forall₂ (Renders document c) kinds members) :
    Renders document c (.kinds nullable kinds) (ofKinds nullable members)
  /-- A list. -/
  | array {element : Schema} {s : Shape} (h : Renders document c element s) :
    Renders document c (.array element) (.array s)
  /-- A list with positions. -/
  | tuple {positions : List Schema} {members : List Shape}
    (h : List.Forall₂ (Renders document c) positions members) :
    Renders document c (.tuple positions) (.tuple members)
  /-- An object, whose fields keep all but the value. -/
  | object {properties : List (Field Schema)} {values : List Shape}
    (h : List.Forall₂ (Renders document c) (properties.map Field.value) values) :
    Renders document c (.object properties)
      (.ofFields (Field.withValues properties values))
  /-- An object whose properties cannot be read. -/
  | malformedObject : Renders document c .malformedObject .any

/-- A catalog knows what another knows, and has its enumerations. -/
structure Extends (c c' : Catalog) : Prop where
  /-- No name is forgotten. -/
  knows : ∀ name, c.knows name = true → c'.knows name = true
  /-- No enumeration is lost. -/
  enums : c.enums ⊆ c'.enums

section Extends

variable {c c' c'' : Catalog}

theorem Extends.refl (c : Catalog) : c.Extends c := ⟨fun _ h => h, List.Subset.refl _⟩

theorem Extends.trans (h : c.Extends c') (h' : c'.Extends c'') : c.Extends c'' :=
  ⟨fun name hn => h'.knows name (h.knows name hn), List.Subset.trans h.enums h'.enums⟩

end Extends

section Renders

variable {document : Json} {c c' : Catalog} {schema : Schema} {s : Shape}

/-- Shapes render schemas in a larger catalog when each does. -/
theorem forall₂_renders_mono {schemas : List Schema} {shapes : List Shape}
    (h : List.Forall₂ (Renders document c) schemas shapes)
    (hmono : ∀ schema ∈ schemas, ∀ s, Renders document c schema s → Renders document c' schema s) :
    List.Forall₂ (Renders document c') schemas shapes := by
  induction h with
  | nil => exact .nil
  | cons hfirst _ ih =>
    have hhead := hmono _ List.mem_cons_self _ hfirst
    exact .cons hhead (ih fun schema hs => hmono schema (List.mem_cons_of_mem _ hs))

/-- What renders a schema still does when the catalog grows. -/
theorem Renders.mono (h : Renders document c schema s) (he : c.Extends c') :
    Renders document c' schema s := by
  induction schema using Schema.tree_induction generalizing s with
  | anything => cases h; exact .anything
  | scalar => cases h; exact .scalar _
  | reference r =>
    cases h with
    | reference hr hknown => exact .reference hr (he.knows _ hknown)
    | dangling hr => exact .dangling hr
  | allOf parts ih =>
    cases h with
    | allOf h => exact .allOf (forall₂_renders_mono h fun p hp _ => ih p hp)
  | oneOf overlapping branches ih =>
    cases h with
    | oneOf h => exact .oneOf (forall₂_renders_mono h fun b hb _ => ih b hb)
  | dictionary extra base ihextra ihbase =>
    cases h with
    | dictionary arena hextra hbase => exact .dictionary arena (ihextra hextra) (ihbase hbase)
  | enumeration values base ih =>
    cases h with
    | named hkey hmem hname => exact .named hkey (he.enums hmem) hname
    | constants hkey hlist => exact .constants hkey hlist
    | base hlist h => exact .base hlist (ih h)
  | kinds nullable kinds ih =>
    cases h with
    | kinds h => exact .kinds (forall₂_renders_mono h fun k hk _ => ih k hk)
  | array element ih =>
    cases h with
    | array h => exact .array (ih h)
  | tuple positions ih =>
    cases h with
    | tuple h => exact .tuple (forall₂_renders_mono h fun p hp _ => ih p hp)
  | object properties ih =>
    cases h with
    | object h =>
      refine .object (forall₂_renders_mono h fun schema hs _ => ?_)
      obtain ⟨f, hf, rfl⟩ := List.mem_map.1 hs
      exact ih f hf
  | malformedObject => cases h; exact .malformedObject

/-- What a catalog has to account for in a shape: the name of a reference, an
enumeration, and that an object has every key once. -/
def Accounts (c : Catalog) : Shape → Prop
  | .reference name => c.knows name = true
  | .enumeration e => e ∈ c.enums
  | .object fields => (Field.keys fields).Nodup
  | _ => True

/-- A property of the outermost layer that every shape made of a schema has: of names and
objects when they are accounted for, and of literals when they are standard. -/
structure HoldsOfMade (c : Catalog) (P : Shape → Prop) : Prop where
  /-- It holds of the shape that says nothing. -/
  any : P .any
  /-- It holds of standard literals. -/
  literal : ∀ l, Shape.IsStandard (.literal l) → P (.literal l)
  /-- It holds of lists. -/
  array : ∀ e, P (.array e)
  /-- It holds of objects that have every key once, each a name. -/
  object : ∀ fields, (Field.keys fields).Nodup → (∀ f ∈ fields, f.key ≠ .wildcard) →
    P (.object fields)
  /-- It holds of dictionaries. -/
  dictionary : ∀ value, P (dictionaryOf value)
  /-- It holds of joined shapes. -/
  joined : ∀ connective members, P (.joined connective members)
  /-- It holds of tuples. -/
  tuple : ∀ members, P (.tuple members)
  /-- It holds of the enumerations that the catalog has. -/
  enumeration : ∀ e ∈ c.enums, P (.enumeration e)
  /-- It holds of the names that the catalog knows. -/
  reference : ∀ name, c.knows name = true → P (.reference name)

/-- The property holds everywhere in the kinds of a value when it does in each of them. -/
theorem HoldsOfMade.ofKinds {P : Shape → Prop} (hP : HoldsOfMade c P) {nullable : Bool}
    {members : List Shape} (h : ∀ m ∈ members, Shape.Everywhere P m) :
    Shape.Everywhere P (ofKinds nullable members) := by
  unfold Catalog.ofKinds
  split
  · exact Shape.everywhere_joined.2 ⟨hP.joined _ _, by simp⟩
  · rename_i hkept
    refine Shape.everywhere_joined.2 ⟨hP.joined _ _, fun m hm => ?_⟩
    have hm : m ∈ Shape.distinct members ∨ m = .null := by
      split at hm
      · exact (List.mem_append.1 hm).imp_right List.mem_singleton.1
      · exact Or.inl hm
    rcases hm with hm | rfl
    · exact h m (Shape.mem_of_mem_distinct hm)
    · exact Shape.everywhere_literal.2 (hP.literal _ ⟨rfl, fun _ => rfl⟩)

/-- The property holds everywhere in a constant of values that can be listed. -/
theorem HoldsOfMade.constant {P : Shape → Prop} (hP : HoldsOfMade c P) {values : List Json}
    (hkey : correlatedKey? values (definitions document) = none)
    (hlist : canList document values = true) {v : Json} (hv : v ∈ values) :
    Shape.Everywhere P (.constant v) := by
  have hscalar : v.isComposite = false := by
    simp only [canList, hkey, Bool.not_eq_true', List.any_eq_false, Bool.not_eq_true] at hlist
    exact hlist v hv
  exact Shape.everywhere_literal.2 (hP.literal _ ⟨hscalar, fun h => nomatch h⟩)

/-- The property holds everywhere in a shape that renders what was read. -/
theorem Renders.everywhere {P : Shape → Prop} (hP : HoldsOfMade c P) {allowed : String → Prop}
    (h : Renders document c schema s) (hread : schema.IsReadWith allowed) :
    Shape.Everywhere P s := by
  induction hread generalizing s with
  | anything => cases h; exact Shape.everywhere_any.2 hP.any
  | scalar l hl => cases h; exact Shape.everywhere_literal.2 (hP.literal l hl)
  | reference =>
    cases h with
    | reference _ hknown => exact Shape.everywhere_reference.2 (hP.reference _ hknown)
    | dangling => exact Shape.everywhere_any.2 hP.any
  | allOf _ ih =>
    cases h with
    | allOf h =>
      refine Shape.everywhere_joined.2 ⟨hP.joined _ _, fun m hm => ?_⟩
      obtain ⟨p, hp, hrenders⟩ := exists_of_mem_forall₂ h (Shape.mem_of_mem_distinct hm)
      exact ih p hp hrenders
  | oneOf _ ih =>
    cases h with
    | oneOf h =>
      refine Shape.everywhere_joined.2 ⟨hP.joined _ _, fun m hm => ?_⟩
      obtain ⟨b, hb, hrenders⟩ := exists_of_mem_forall₂ h (Shape.mem_of_mem_distinct hm)
      exact ih b hb hrenders
  | dictionary _ _ _ ihextra ihbase =>
    cases h with
    | dictionary arena hextra hbase =>
      have hdictionary : Shape.Everywhere P (dictionaryOf _) :=
        Shape.everywhere_object.2 ⟨hP.dictionary _, by simpa using ihextra hextra⟩
      unfold withDictionary
      split
      · exact hdictionary
      · exact Shape.everywhere_joined.2
          ⟨hP.joined _ _, by simpa using ⟨ihbase hbase, hdictionary⟩⟩
  | enumeration _ _ ih =>
    cases h with
    | named _ he => exact Shape.everywhere_enumeration.2 (hP.enumeration _ he)
    | constants hkey hlist =>
      refine Shape.everywhere_joined.2 ⟨hP.joined _ _, fun m hm => ?_⟩
      obtain ⟨v, hv, rfl⟩ := List.mem_map.1 (Shape.mem_of_mem_distinct hm)
      exact hP.constant hkey hlist hv
    | base _ h => exact ih h
  | kinds _ ih =>
    cases h with
    | kinds h =>
      refine hP.ofKinds fun m hm => ?_
      obtain ⟨k, hk, hrenders⟩ := exists_of_mem_forall₂ h hm
      exact ih k hk hrenders
  | array _ ih =>
    cases h with
    | array h => exact Shape.everywhere_array.2 ⟨hP.array _, ih h⟩
  | tuple _ ih =>
    cases h with
    | tuple h =>
      refine Shape.everywhere_tuple.2 ⟨hP.tuple _, fun m hm => ?_⟩
      obtain ⟨p, hp, hrenders⟩ := exists_of_mem_forall₂ h hm
      exact ih p hp hrenders
  | object _ hnamed ih =>
    cases h with
    | object h =>
      refine Shape.everywhere_ofFields (fun kept hkeys hkept => ?_) fun f hf => ?_
      · refine hP.object kept hkeys fun f hf => ?_
        obtain ⟨p, hp, hkey⟩ := Field.exists_key_eq_of_mem_withValues (hkept hf)
        exact hkey ▸ hnamed p hp
      · have hvalue := Field.value_mem_of_mem_withValues hf
        obtain ⟨schema, hschema, hrenders⟩ := exists_of_mem_forall₂ h hvalue
        obtain ⟨p, hp, rfl⟩ := List.mem_map.1 hschema
        exact ih p hp hrenders
  | malformedObject => cases h; exact Shape.everywhere_any.2 hP.any

/-- What is made of a schema is accounted for. -/
theorem holdsOfMade_accounts (c : Catalog) : HoldsOfMade c c.Accounts :=
  ⟨trivial, fun _ _ => trivial, fun _ => trivial, fun _ hkeys _ => hkeys,
    fun _ => List.nodup_singleton _, fun _ _ => trivial, fun _ => trivial, fun _ he => he,
    fun _ hknown => hknown⟩

/-- All that occurs in a shape that renders what was read is accounted for. -/
theorem Renders.accounts {allowed : String → Prop} (h : Renders document c schema s)
    (hread : schema.IsReadWith allowed) : Shape.Everywhere c.Accounts s :=
  h.everywhere (holdsOfMade_accounts c) hread

end Renders

end Catalog

end TypedClient
