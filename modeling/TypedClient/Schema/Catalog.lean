import TypedClient.Document.Reference
import TypedClient.Schema.OfJson
import TypedClient.Shape.Arena

/-!
# The catalog of a document

A schema becomes a shape. What a reference points at becomes a named shape, and
the reference becomes its name. The catalog keeps what has a name. A name is
given once: while its shape is being worked out a reference back to it is a
circle, and needs the name only.

Every name that is being worked out is new, and apart from the first they all
come from references of the document, so the level that `nameWithin` counts down
never runs out.
-/

namespace TypedClient

/-- What the schemas read so far have given names to. -/
structure Catalog where
  /-- The named shapes. -/
  arena : Arena
  /-- The names whose shapes are being worked out. -/
  inProgress : List String
  /-- The enumerations that have names. -/
  enums : List Enumeration
  /-- What had to be read approximately, in order. -/
  warnings : List Warning

namespace Catalog

/-- No schema has been read yet. -/
def empty : Catalog := ⟨Arena.empty, [], [], []⟩

/-- Report that something is read approximately. -/
def warn (c : Catalog) (w : Warning) : Catalog := { c with warnings := c.warnings ++ [w] }

/-- The definitions of a document. -/
def definitions (document : Json) : List (String × Json) :=
  ((document.get? "definitions").bind Json.asObject?).getD []

/-! ### Enumerations -/

/-- The first name that is not taken among `base` with a count from `suffix` on,
`fuel` of which are tried. -/
def freeSuffix (taken : List String) (base : String) : Nat → Nat → String
  | 0, suffix => base ++ "_" ++ toString suffix
  | fuel + 1, suffix =>
    let name := base ++ "_" ++ toString suffix
    if taken.contains name then freeSuffix taken base fuel (suffix + 1) else name

/-- A name that is not taken: the base itself, or the base with the least count. -/
def freeName (taken : List String) (base : String) : String :=
  if taken.contains base then freeSuffix taken base taken.length 1 else base

/-- The text that a constant of an enumeration is named after. -/
def constantLabel? : Json → Option String
  | .string text => some text
  | .number n => some n.text
  | _ => none

/-- The constants for values, whose names differ from each other and from those taken. -/
def constantsOf? (taken : List String) : List Json → Option (List EnumMember)
  | [] => some []
  | value :: rest =>
    (constantLabel? value).bind fun label =>
      let name := freeName taken (identifier label)
      (constantsOf? (name :: taken) rest).map (⟨name, value⟩ :: ·)

/-- The enumeration of values, unless one is neither a text nor a number. -/
def enumerationOf? (name : String) (values : List Json) : Option Enumeration :=
  (constantsOf? [] values).map (⟨name, ·⟩)

/-- Whether a definition itself lists exactly the values. -/
def listsExactly (values : List Json) (definition : Json) : Bool :=
  match (definition.get? "enum").bind Json.asArray? with
  | some listed => Json.sameElements listed values
  | none => false

/-- The key of the first definition that itself lists exactly the values. -/
def correlatedKey? (values : List Json) (definitions : List (String × Json)) : Option String :=
  (definitions.find? fun entry => listsExactly values entry.2).map Prod.fst

/-- The shape for listed values. Those of a definition make an enumeration of its
name, and other scalars a union of constants. -/
def enumerate (definitions : List (String × Json)) (values : List Json) (c : Catalog) :
    Option Shape × Catalog :=
  match correlatedKey? values definitions with
  | some key =>
    let name := identifier key
    match c.enums.find? (·.name = name) with
    | some known => (some (.enumeration known), c)
    | none =>
      match enumerationOf? name values with
      | some e => (some (.enumeration e), { c with enums := c.enums ++ [e] })
      | none => (none, c.warn (.unnameableValues key))
  | none =>
    if values.any Json.isComposite then (none, c.warn .compositeValues)
    else (some (.union (values.map .constant)), c)

/-! ### Schemas -/

/-- The dictionary over values of a shape. -/
def dictionaryOf (value : Shape) : Shape := .object [{ key := .wildcard, value := value }]

/-- A dictionary together with what is known besides, if that says something. -/
def withDictionary (base value : Shape) (arena : Arena) : Shape :=
  if base.isTrivial arena then dictionaryOf value else .joined .and [base, dictionaryOf value]

/-- The union of kinds, and null too when it is one of them and another is kept. -/
def ofKinds (nullable : Bool) (kinds : List Shape) : Shape :=
  match Shape.distinct kinds with
  | [] => .joined .or []
  | kept => .joined .or (if nullable then kept ++ [.null] else kept)

mutual

/-- The shape of a schema, where `follow` gives the shape of a reference. -/
def shapeWith (definitions : List (String × Json))
    (follow : String → Catalog → Shape × Catalog) : Schema → Catalog → Shape × Catalog
  | .anything, c => (.any, c)
  | .scalar shape, c => (shape, c)
  | .reference spelling, c => follow spelling c
  | .allOf parts, c =>
    let (members, c) := shapesWith definitions follow parts c
    (.intersection members, c)
  | .oneOf overlapping branches, c =>
    let c := if overlapping then c.warn .overlappingBranches else c
    let (members, c) := shapesWith definitions follow branches c
    (.union members, c)
  | .dictionary extra base, c =>
    let (value, c) := shapeWith definitions follow extra c
    let (known, c) := shapeWith definitions follow base c
    (withDictionary known value c.arena, c)
  | .enumeration values base, c =>
    match c.enumerate definitions values with
    | (some shape, c) => (shape, c)
    | (none, c) => shapeWith definitions follow base c
  | .kinds nullable kinds, c =>
    let (members, c) := shapesWith definitions follow kinds c
    (ofKinds nullable members, c)
  | .array element, c =>
    let (shape, c) := shapeWith definitions follow element c
    (.array shape, c)
  | .tuple positions, c =>
    let (members, c) := shapesWith definitions follow positions c
    (.tuple members, c)
  | .object properties, c =>
    let (fields, c) := fieldsWith definitions follow properties c
    (.ofFields fields, c)
  | .malformedObject, c => (.any, c.warn .malformedProperties)

/-- The shapes of schemas, in order. -/
def shapesWith (definitions : List (String × Json))
    (follow : String → Catalog → Shape × Catalog) :
    List Schema → Catalog → List Shape × Catalog
  | [], c => ([], c)
  | schema :: rest, c =>
    let (first, c) := shapeWith definitions follow schema c
    let (others, c) := shapesWith definitions follow rest c
    (first :: others, c)

/-- The fields whose values have the shapes of schemas, in order. -/
def fieldsWith (definitions : List (String × Json))
    (follow : String → Catalog → Shape × Catalog) :
    List (Field Schema) → Catalog → List (Field Shape) × Catalog
  | [], c => ([], c)
  | field :: rest, c =>
    let (value, c) := shapeWith definitions follow field.value c
    let (others, c) := fieldsWith definitions follow rest c
    ({ key := field.key, value := value, optional := field.optional, doc := field.doc,
       default := field.default, readonly := field.readonly } :: others, c)

end

/-! ### Names -/

/-- Whether a name has a shape, or one is being worked out for it. -/
def knows (c : Catalog) (name : String) : Bool :=
  c.arena.contains name || c.inProgress.contains name

/-- Begin to work out the shape for a name. -/
def begin (c : Catalog) (name : String) : Catalog :=
  { c with inProgress := name :: c.inProgress }

/-- Give a name the shape that was worked out for it. -/
def finish (c : Catalog) (name : String) (shape : Shape) : Catalog :=
  let (arena, warnings) := c.arena.define name shape
  { c with arena := arena, inProgress := c.inProgress.filter (· ≠ name),
           warnings := c.warnings ++ warnings }

/-- The shape of a reference, where `name` gives a name to what it points at. -/
def followWith (document : Json) (name : String → Json → Catalog → Shape × Catalog)
    (reference : String) (c : Catalog) : Shape × Catalog :=
  match Document.resolve? document reference with
  | some target => name (Document.targetName reference) target c
  | none => (.any, c.warn (.danglingReference reference))

/-- Give a name to a part of the document, with at most `level` names begun at once. -/
def nameWithin (document : Json) : Nat → String → Json → Catalog → Shape × Catalog
  | 0, name, _, c => (.reference name, c)
  | level + 1, name, target, c =>
    if c.knows name then (.reference name, c)
    else
      let (shape, c) :=
        shapeWith (definitions document) (followWith document (nameWithin document level))
          (Schema.ofJson target) (c.begin name)
      (.reference name, c.finish name shape)

/-- A bound on the number of names that are begun at once. -/
def levels (document : Json) : Nat := (Document.references document).length + 1

/-- The shape of a schema, whose references are to a document. -/
def shapeOf (document schema : Json) (c : Catalog) : Shape × Catalog :=
  shapeWith (definitions document)
    (followWith document (nameWithin document (levels document))) (Schema.ofJson schema) c

/-- Give each definition of the document its name, in order. -/
def nameEach (document : Json) : List (String × Json) → Catalog → List String × Catalog
  | [], c => ([], c)
  | (key, target) :: rest, c =>
    let name := identifier key
    let (_, c) := nameWithin document (levels document) name target c
    let (names, c) := nameEach document rest c
    (name :: names, c)

/-- Give every definition of the document its name. -/
def nameDefinitions (document : Json) (c : Catalog) : List String × Catalog :=
  nameEach document (definitions document) c

end Catalog

end TypedClient
