import TypedClient.Shape.Sample

/-!
# Reduction

Reduction gives up precision for readable output. Literals widen first: a
composite one to its shape, and a constant one to its kind unless precision is
kept. Then the members of every union and intersection are reduced, made
distinct, their objects merged into one, and nested members of the same
connective spliced in.

Merging objects unites the values of a field that several of them have, and such
a union has to be reduced in its turn. It lies at least one level deeper than
the object, so the greatest nesting of the shape bounds how often that happens,
and the level that `uniteWithin` counts down never runs out.
-/

namespace TypedClient

/-- How a shape is to be reduced. -/
structure Reduction where
  /-- Keep constants instead of widening them to their kind. -/
  precise : Bool := false
  /-- A merged object with more fields than this becomes a dictionary. -/
  dictionaryThreshold : Nat := 20

namespace Shape

mutual

/-- Widen the literals of a shape. -/
def widen (precise : Bool) : Shape → Shape
  | .literal l =>
    if l.isComposite || (l.constant && !precise) then ofSample? l.value else .literal l
  | .array element => .array (element.widen precise)
  | .object fields => .object (widenFields precise fields)
  | .joined connective members => .joined connective (widenAll precise members)
  | .tuple members => .tuple (widenAll precise members)
  | s => s

/-- Widen the literals of each shape. -/
def widenAll (precise : Bool) : List Shape → List Shape
  | [] => []
  | member :: rest => member.widen precise :: widenAll precise rest

/-- Widen the literals of the value of each field. -/
def widenFields (precise : Bool) : List (Field Shape) → List (Field Shape)
  | [] => []
  | field :: rest =>
    { field with value := field.value.widen precise } :: widenFields precise rest

end

/-! ### Merging objects -/

/-- A field of a merged object and the number of objects it was found in. -/
structure Merged where
  /-- The field so far. -/
  field : Field Shape
  /-- How many of the objects have it. -/
  count : Nat

/-- The documentation of a field that two objects have: both texts, unless they
are the same. -/
def joinDocs : Option String → Option String → Option String
  | some a, some b => if a = b then some a else some (a ++ "\n" ++ b)
  | some a, none => some a
  | none, b => b

/-- A field that two objects have. Its value is the union of theirs, it may be
absent when either may, and it is read-only when both are. -/
def uniteFields (unite : List Shape → Shape) (existing incoming : Field Shape) : Field Shape where
  key := existing.key
  value := unite [existing.value, incoming.value]
  optional := existing.optional || incoming.optional
  doc := joinDocs existing.doc incoming.doc
  default := existing.default.or incoming.default
  readonly := existing.readonly && incoming.readonly

/-- Add a field to the merged ones. -/
def absorb (unite : List Shape → Shape) (field : Field Shape) : List Merged → List Merged
  | [] => [⟨field, 1⟩]
  | m :: rest =>
    if m.field.key = field.key then ⟨uniteFields unite m.field field, m.count + 1⟩ :: rest
    else m :: absorb unite field rest

/-- The fields of all objects, each key at its first place. -/
def mergeAll (unite : List Shape → Shape) (fields : List (Field Shape)) : List Merged :=
  fields.foldl (fun acc field => absorb unite field acc) []

/-- A field whose value can only be null or undefined says nothing: it becomes an
optional field of any value. -/
def openNullish (field : Field Shape) : Field Shape :=
  match field.value with
  | .literal l =>
    if l.isNullish then { field with value := .any, optional := true } else field
  | _ => field

/-- A merged field as a field of the merged object. In a union it may be absent
when one of the objects lacks it. -/
def Merged.toField (connective : Connective) (sources : Nat) (m : Merged) : Field Shape :=
  openNullish
    (if connective = .or ∧ m.count < sources then { m.field with optional := true } else m.field)

/-- All fields as one index signature over the union of their values. -/
def dictionaryField (unite : List Shape → Shape) (fields : List (Field Shape)) : Field Shape :=
  { key := .wildcard, value := unite (fields.map Field.value) }

/-- The fields of a shape that is an object. -/
def fields? : Shape → Option (List (Field Shape))
  | .object fields => some fields
  | _ => none

/-- The fields of the object that objects are merged into. -/
def mergedFields (connective : Connective) (unite : List Shape → Shape) (threshold : Nat)
    (objects : List (List (Field Shape))) : List (Field Shape) :=
  let fields := (mergeAll unite objects.flatten).map (Merged.toField connective objects.length)
  if threshold < fields.length then [dictionaryField unite fields] else fields

/-- Merge the objects among members into one that stands last. It is left out
when it has no fields. -/
def mergeObjects (connective : Connective) (unite : List Shape → Shape) (threshold : Nat)
    (members : List Shape) : List Shape :=
  let others := members.filter (!·.isObject)
  match mergedFields connective unite threshold (members.filterMap fields?) with
  | [] => others
  | fields => others ++ [.object fields]

/-! ### Splicing nested members -/

mutual

/-- The members inside those members that are joined by the same connective. -/
def innerMembers (connective : Connective) : List Shape → List Shape
  | [] => []
  | member :: rest => member.spliced connective ++ innerMembers connective rest

/-- The members of a shape joined by the connective: the others first, then those
inside nested ones. Any other shape has none. -/
def spliced (connective : Connective) : Shape → List Shape
  | .joined c members =>
    if c = connective then
      members.filter (!·.isJoinedBy connective) ++ innerMembers connective members
    else []
  | _ => []

end

/-- Members with nested ones of the same connective spliced in after the others. -/
def flatten (connective : Connective) (members : List Shape) : List Shape :=
  members.filter (!·.isJoinedBy connective) ++ innerMembers connective members

/-! ### Joining -/

/-- The shape joined of members: no member at all is anything, and a single one
stands for itself. -/
def ofMembers (connective : Connective) : List Shape → Shape
  | [] => .any
  | [member] => member
  | members => .joined connective members

/-- Make members distinct and merge their objects. -/
def consolidate (connective : Connective) (unite : List Shape → Shape) (threshold : Nat)
    (members : List Shape) : List Shape :=
  mergeObjects connective unite threshold (distinct members)

/-- Join members that are reduced already. Members spliced in have not been
compared with their new neighbours, so they are consolidated once more. -/
def join (connective : Connective) (unite : List Shape → Shape) (threshold : Nat)
    (members : List Shape) : Shape :=
  let once := consolidate connective unite threshold members
  ofMembers connective
    (if once.any (isJoinedBy connective) then
      consolidate connective unite threshold (flatten connective once)
    else once)

mutual

/-- Reduce a shape whose literals are widened, where `unite` reduces the unions
that merging objects makes. -/
def simplify (unite : List Shape → Shape) (threshold : Nat) : Shape → Shape
  | .array element => .array (element.simplify unite threshold)
  | .object fields => .object (simplifyFields unite threshold fields)
  | .joined connective members =>
    join connective unite threshold (simplifyAll unite threshold members)
  | .tuple members => .tuple (simplifyAll unite threshold members)
  | s => s

/-- Reduce each shape. -/
def simplifyAll (unite : List Shape → Shape) (threshold : Nat) : List Shape → List Shape
  | [] => []
  | member :: rest => member.simplify unite threshold :: simplifyAll unite threshold rest

/-- Reduce the value of each field. -/
def simplifyFields (unite : List Shape → Shape) (threshold : Nat) :
    List (Field Shape) → List (Field Shape)
  | [] => []
  | field :: rest =>
    { field with value := field.value.simplify unite threshold } ::
      simplifyFields unite threshold rest

end

/-- The reduced union of shapes that are nested less than `level` deep. -/
def uniteWithin (threshold : Nat) : Nat → List Shape → Shape
  | 0, _ => .any
  | level + 1, members => simplify (uniteWithin threshold level) threshold (.joined .or members)

/-- Reduce a shape. -/
def reduce (reduction : Reduction) (s : Shape) : Shape :=
  let widened := s.widen reduction.precise
  widened.simplify (uniteWithin reduction.dictionaryThreshold widened.nesting)
    reduction.dictionaryThreshold

/-- The shape guessed from one sample value. -/
def infer (value : Json) : Shape := (ofSample value).reduce {}

end Shape

end TypedClient
