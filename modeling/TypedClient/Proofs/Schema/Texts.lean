import TypedClient.Proofs.Reduction.Texts
import TypedClient.Proofs.Schema.Correlation

/-!
# Texts of a schema

A schema is written with the texts of the value that it is read from, and a shape that renders
it with the texts of the schema. The enumerations that take the place of listed values list
what a definition lists. So all shapes that have names in a catalog, and all its enumerations,
are written with the texts of the document.
-/

namespace TypedClient

namespace Schema

/-- All texts in a schema are allowed: the keys, documentation and default values of its
properties, the values that it lists, and its kinds. -/
inductive IsWrittenWith (allowed : String → Prop) : Schema → Prop where
  /-- The schema that demands nothing. -/
  | anything : IsWrittenWith allowed .anything
  /-- A kind. -/
  | scalar {s : Shape} (h : s.IsWrittenWith allowed) : IsWrittenWith allowed (.scalar s)
  /-- A reference, whose spelling does not count. -/
  | reference (r : String) : IsWrittenWith allowed (.reference r)
  /-- Schemas that all hold. -/
  | allOf {parts : List Schema} (h : ∀ p ∈ parts, IsWrittenWith allowed p) :
    IsWrittenWith allowed (.allOf parts)
  /-- Alternatives. -/
  | oneOf {overlapping : Bool} {branches : List Schema}
    (h : ∀ b ∈ branches, IsWrittenWith allowed b) :
    IsWrittenWith allowed (.oneOf overlapping branches)
  /-- A dictionary. -/
  | dictionary {extra base : Schema} (hextra : IsWrittenWith allowed extra)
    (hbase : IsWrittenWith allowed base) : IsWrittenWith allowed (.dictionary extra base)
  /-- Listed values. -/
  | enumeration {values : List Json} {base : Schema}
    (hvalues : ∀ v ∈ values, v.IsWrittenWith allowed) (hbase : IsWrittenWith allowed base) :
    IsWrittenWith allowed (.enumeration values base)
  /-- Several kinds. -/
  | kinds {nullable : Bool} {kinds : List Schema} (h : ∀ k ∈ kinds, IsWrittenWith allowed k) :
    IsWrittenWith allowed (.kinds nullable kinds)
  /-- A list. -/
  | array {element : Schema} (h : IsWrittenWith allowed element) :
    IsWrittenWith allowed (.array element)
  /-- A list with positions. -/
  | tuple {positions : List Schema} (h : ∀ p ∈ positions, IsWrittenWith allowed p) :
    IsWrittenWith allowed (.tuple positions)
  /-- An object. -/
  | object {properties : List (Field Schema)} (hfields : ∀ f ∈ properties, f.IsWrittenWith allowed)
    (hvalues : ∀ f ∈ properties, IsWrittenWith allowed f.value) :
    IsWrittenWith allowed (.object properties)
  /-- An object whose properties cannot be read. -/
  | malformedObject : IsWrittenWith allowed .malformedObject

variable {allowed : String → Prop} {node : List (String × Json)} {value : Json}

/-- What is below a node is written with its texts. -/
theorem IsBelow.isWrittenWith (hv : IsBelow value node)
    (h : (Json.object node).IsWrittenWith allowed) : value.IsWrittenWith allowed := by
  cases hv with
  | held hfind => exact h.find? hfind
  | listed hfind hmem => exact Json.isWrittenWith_array.1 (h.find? hfind) _ hmem
  | named hfind hmem => exact (Json.isWrittenWith_object.1 (h.find? hfind) _ hmem).2

/-- The description of a schema is one of its texts. -/
theorem allowed_of_description? (h : value.IsWrittenWith allowed) (text : String)
    (htext : description? value = some text) : allowed text := by
  obtain ⟨part, hpart, htext⟩ := Option.bind_eq_some_iff.1 htext
  exact (h.get? hpart).asString? htext

/-- A property is written with the texts of the node. -/
theorem IsPropertyOf.isWrittenWith {f : Field Schema} (hf : IsPropertyOf node f)
    (h : (Json.object node).IsWrittenWith allowed) : f.IsWrittenWith allowed := by
  obtain ⟨hfind, hm⟩ := hf
  obtain ⟨hkey, hvalue⟩ := Json.isWrittenWith_object.1 (h.find? hfind) _ hm
  exact ⟨fun name hname => Key.named.inj hname ▸ hkey, allowed_of_description? hvalue,
    fun _ hdefault => hvalue.get? hdefault⟩

/-- Reading a node takes its texts only. -/
theorem holdsOfNode_isWrittenWith (hlines : AllowsLines allowed)
    (h : (Json.object node).IsWrittenWith allowed) :
    HoldsOfNode node (IsWrittenWith allowed) where
  anything := .anything
  scalar l hl hc := by
    obtain ⟨value, constant⟩ := l
    cases value with
    | none => exact .scalar (Shape.isWrittenWith_literal.2 nofun)
    | some value =>
      refine .scalar (Shape.isWrittenWith_kind hlines (fun text he => ?_) hl.1 constant)
      subst he
      cases hl.2 hc
      rfl
  allOf _ h := .allOf h
  oneOf _ _ h := .oneOf h
  dictionary _ _ hextra hbase _ := .dictionary hextra hbase
  enumeration values _ hl hbase :=
    .enumeration (fun _ hv => (isBelow_of_listed? hl hv).isWrittenWith h) hbase
  kinds _ _ h := .kinds h
  array _ h := .array h
  tuple _ h := .tuple h
  object _ hproperties hvalues :=
    .object (fun f hf => (hproperties f hf).isWrittenWith h) hvalues
  malformedObject := .malformedObject

/-- What is read from a value is written with the texts of the value. -/
theorem isWrittenWith_ofJson (hlines : AllowsLines allowed) (h : value.IsWrittenWith allowed) :
    (ofJson value).IsWrittenWith allowed := by
  induction value using below_induction with
  | other value hother =>
    rw [ofJson_of_ne_object hother]
    exact .anything
  | object node ih =>
    exact (holdsOfNode_isWrittenWith hlines h).ofObject (fun r _ => .reference r)
      fun _ v hv => ih v hv (hv.isWrittenWith h)

end Schema

namespace Catalog

section Texts

variable {allowed : String → Prop} {document : Json} {c : Catalog}

/-- A definition is written with the texts of the document. -/
theorem isWrittenWith_of_mem_definitions (h : document.IsWrittenWith allowed)
    {entry : String × Json} (hentry : entry ∈ definitions document) :
    entry.2.IsWrittenWith allowed := by
  unfold definitions at hentry
  cases hfind : (document.get? "definitions").bind Json.asObject? with
  | none => simp [hfind] at hentry
  | some members =>
    rw [hfind] at hentry
    obtain ⟨part, hpart, hmembers⟩ := Option.bind_eq_some_iff.1 hfind
    exact ((h.get? hpart).asObject? hmembers entry hentry).2

/-- Scalars that equal values written with allowed texts are written with allowed texts. -/
theorem isWrittenWith_of_sameElements {listed values : List Json}
    (hscalar : ∀ v ∈ values, v.isComposite = false) (h : ∀ l ∈ listed, l.IsWrittenWith allowed)
    (hsame : Json.sameElements listed values = true) : ∀ v ∈ values, v.IsWrittenWith allowed := by
  induction listed generalizing values with
  | nil =>
    cases values with
    | nil => simp
    | cons => cases hsame
  | cons l listed ih =>
    cases values with
    | nil => simp
    | cons v values =>
      obtain ⟨hl, hlisted⟩ := List.forall_mem_cons.1 h
      obtain ⟨hv, hvalues⟩ := List.forall_mem_cons.1 hscalar
      obtain ⟨hfirst, hrest⟩ := Bool.and_eq_true_iff.1 hsame
      refine List.forall_mem_cons.2 ⟨?_, ih hvalues hlisted hrest⟩
      -- only texts say something, and they are equal to texts only
      cases v with
      | string text =>
        cases l with
        | string label =>
          obtain rfl : label = text := eq_of_beq hfirst
          exact hl
        | _ => cases hfirst
      | array | object => cases hv
      | _ => exact Json.everywhere_iff.2 ⟨trivial, nofun⟩

/-- The enumeration of a definition is written with the texts of the document. -/
theorem IsCorrelated.isWrittenWith {e : Enumeration} (he : IsCorrelated document e)
    (h : document.IsWrittenWith allowed) : e.IsWrittenWith allowed := by
  obtain ⟨⟨entry, hentry, hname, hlists⟩, -, hnames, hscalar⟩ := he.spec
  refine ⟨hname ▸ hasIdentifierChars_identifier entry.1, fun m hm => (hnames m hm).characters, ?_⟩
  unfold listsExactly at hlists
  split at hlists
  · rename_i listed hlisted
    obtain ⟨part, hpart, hlisted⟩ := Option.bind_eq_some_iff.1 hlisted
    have helements := ((isWrittenWith_of_mem_definitions h hentry).get? hpart).asArray? hlisted
    have hvalues := isWrittenWith_of_sameElements (by simpa using hscalar) helements hlists
    exact fun m hm => hvalues m.value (List.mem_map_of_mem hm)
  · cases hlists

/-- Several kinds are written with the texts of each. -/
theorem isWrittenWith_ofKinds {nullable : Bool} {members : List Shape}
    (h : ∀ m ∈ members, m.IsWrittenWith allowed) :
    (ofKinds nullable members).IsWrittenWith allowed := by
  unfold ofKinds
  split
  · exact Shape.isWrittenWith_joined.2 (by simp)
  · refine Shape.isWrittenWith_joined.2 fun m hm => ?_
    have hm : m ∈ Shape.distinct members ∨ m = .null := by
      split at hm
      · exact (List.mem_append.1 hm).imp_right List.mem_singleton.1
      · exact Or.inl hm
    rcases hm with hm | rfl
    · exact h m (Shape.mem_of_mem_distinct hm)
    · exact Shape.isWrittenWith_literal.2 fun v hv => by
        cases hv
        exact Json.everywhere_iff.2 ⟨trivial, nofun⟩

/-- What renders a schema is written with the texts of the schema and of the enumerations. -/
theorem Renders.isWrittenWith {schema : Schema} {s : Shape} (h : Renders document c schema s)
    (henums : ∀ e ∈ c.enums, e.IsWrittenWith allowed) (hschema : schema.IsWrittenWith allowed) :
    s.IsWrittenWith allowed := by
  have hall : ∀ {schemas : List Schema} {members : List Shape},
      List.Forall₂ (Renders document c) schemas members →
      (∀ schema ∈ schemas, ∀ s, Renders document c schema s → s.IsWrittenWith allowed) →
      ∀ m ∈ members, m.IsWrittenWith allowed := by
    intro schemas members hrenders hwritten m hm
    obtain ⟨schema, hs, hrender⟩ := exists_of_mem_forall₂ hrenders hm
    exact hwritten schema hs m hrender
  induction hschema generalizing s with
  | anything => cases h; exact Shape.isWrittenWith_any
  | scalar hs => cases h; exact hs
  | reference =>
    cases h with
    | reference =>
      exact Shape.isWrittenWith_reference.2 (hasIdentifierChars_identifier _)
    | dangling => exact Shape.isWrittenWith_any
  | allOf _ ih =>
    cases h with
    | allOf h => exact Shape.isWrittenWith_intersection (hall h fun p hp _ => ih p hp)
  | oneOf _ ih =>
    cases h with
    | oneOf h => exact Shape.isWrittenWith_union (hall h fun b hb _ => ih b hb)
  | dictionary _ _ ihextra ihbase =>
    cases h with
    | dictionary arena hextra hbase =>
      have hdictionary : (dictionaryOf _).IsWrittenWith allowed :=
        Shape.isWrittenWith_object.2 fun f hf => by
          rw [List.mem_singleton.1 hf]
          exact ⟨⟨nofun, nofun, nofun⟩, ihextra hextra⟩
      unfold withDictionary
      split
      · exact hdictionary
      · exact Shape.isWrittenWith_joined.2 (by simpa using ⟨ihbase hbase, hdictionary⟩)
  | enumeration hvalues _ ih =>
    cases h with
    | named _ he => exact Shape.isWrittenWith_enumeration.2 (henums _ he)
    | constants =>
      refine Shape.isWrittenWith_union fun m hm => ?_
      obtain ⟨v, hv, rfl⟩ := List.mem_map.1 hm
      exact Shape.isWrittenWith_constant (hvalues v hv)
    | base _ h => exact ih h
  | kinds _ ih =>
    cases h with
    | kinds h => exact isWrittenWith_ofKinds (hall h fun k hk _ => ih k hk)
  | array _ ih =>
    cases h with
    | array h => exact Shape.isWrittenWith_array.2 (ih h)
  | tuple _ ih =>
    cases h with
    | tuple h => exact Shape.isWrittenWith_tuple.2 (hall h fun p hp _ => ih p hp)
  | object hfields _ ih =>
    cases h with
    | object h =>
      have hvalues := hall h fun schema hs s hrenders => by
        obtain ⟨f, hf, rfl⟩ := List.mem_map.1 hs
        exact ih f hf hrenders
      refine Shape.isWrittenWith_ofFields fun f hf => ?_
      refine ⟨?_, hvalues _ (Field.value_mem_of_mem_withValues hf)⟩
      obtain ⟨p, hp, rfl⟩ := List.mem_map.1 hf
      exact (hfields p.1 (List.of_mem_zip hp).1).mapValue _
  | malformedObject => cases h; exact Shape.isWrittenWith_any

/-- What a name stands for is written with the texts of the document. -/
theorem IsNameOf.isWrittenWith {name : String} {target : Json}
    (h : IsNameOf document name target) (hdocument : document.IsWrittenWith allowed) :
    HasIdentifierChars name ∧ target.IsWrittenWith allowed := by
  cases h with
  | reference h hname =>
    exact ⟨hname ▸ hasIdentifierChars_identifier _, Document.everywhere_of_resolve? hdocument h⟩
  | definition h hname =>
    exact ⟨hname ▸ hasIdentifierChars_identifier _, isWrittenWith_of_mem_definitions hdocument h⟩

/-- The names of a sound catalog have characters of identifiers, and what they name is written
with the texts of the document. -/
theorem IsSound.isWrittenWith_entries (hc : IsSound document (IsNameOf document) c)
    (hlines : AllowsLines allowed) (h : document.IsWrittenWith allowed) :
    ∀ entry ∈ c.arena.entries, HasIdentifierChars entry.1 ∧ entry.2.IsWrittenWith allowed := by
  intro entry hentry
  obtain ⟨target, hnames, hrenders⟩ := hc.entries entry hentry
  obtain ⟨hname, htarget⟩ := hnames.isWrittenWith h
  exact ⟨hname, hrenders.isWrittenWith (fun e he => (hc.correlated e he).isWrittenWith h)
    (Schema.isWrittenWith_ofJson hlines htarget)⟩

end Texts

end Catalog

end TypedClient
