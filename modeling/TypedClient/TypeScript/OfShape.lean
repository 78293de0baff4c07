import TypedClient.Json.Text
import TypedClient.Shape.Arena
import TypedClient.Shape.Reduce
import TypedClient.Text.Blank
import TypedClient.TypeScript.Syntax

/-!
# Types of shapes

Every shape has a type of the generated language, unless a field in it has an
empty name. A reference is written as its name when it says something, and
otherwise as what its target amounts to.
-/

namespace TypedClient.TypeScript

/-- The documentation of a field: its text, then its default value. -/
def fieldDoc {σ : Type} (field : Field σ) : Option String :=
  let text := Text.trimmed (field.doc.getD "")
  match text.isEmpty, field.default with
  | true, none => none
  | true, some value => some ("@default " ++ value.compact)
  | false, none => some text
  | false, some value => some (text ++ "\n@default " ++ value.compact)

namespace TypeNode

/-- The type of a literal whose composite values are widened. -/
def ofLiteral (l : Literal) : TypeNode :=
  match l.keyword?, l.value with
  | some k, _ => .keyword k
  | none, some value => .literal value
  | none, none => .any

/-- The type that stands for a reference. -/
def ofReference (arena : Arena) (name : String) : TypeNode :=
  if (Shape.reference name).isTrivial arena then
    match arena.resolve? name with
    | some (.object _) | some .void => .keyword .void
    | some (.literal l) => ofLiteral l
    | _ => .any
  else .named name

/-- The type joined of member types: none is `any`, and one stands for itself. -/
def ofJoined (connective : Connective) : List TypeNode → TypeNode
  | [] => .any
  | [only] => only
  | members =>
    match connective with
    | .or => .union members
    | .and => .intersection members

mutual

/-- The type of a shape whose composite literals are widened. -/
def ofWidened (arena : Arena) : Shape → Except Failure TypeNode
  | .any => .ok .any
  | .void => .ok (.keyword .void)
  | .literal l => .ok (ofLiteral l)
  | .array element => do return .array (← ofWidened arena element)
  | .object fields => do return .object (← ofWidenedFields arena fields)
  | .joined connective members => do return ofJoined connective (← ofAllWidened arena members)
  | .tuple members => do return .tuple (← ofAllWidened arena members)
  | .enumeration e => .ok (.named e.name)
  | .reference name => .ok (ofReference arena name)

/-- The types of shapes whose composite literals are widened. -/
def ofAllWidened (arena : Arena) : List Shape → Except Failure (List TypeNode)
  | [] => .ok []
  | member :: rest => do
    let first ← ofWidened arena member
    return first :: (← ofAllWidened arena rest)

/-- The members of an object type for fields whose composite literals are widened. -/
def ofWidenedFields (arena : Arena) : List (Field Shape) → Except Failure (List (Field TypeNode))
  | [] => .ok []
  | field :: rest => do
    if field.key = .named "" then throw .emptyPropertyKey
    let first ← ofWidened arena field.value
    return { key := field.key, value := first, optional := field.optional,
             doc := fieldDoc field, readonly := field.readonly } :: (← ofWidenedFields arena rest)

end

/-- The type of a shape. -/
def ofShape (arena : Arena) (s : Shape) : Except Failure TypeNode := ofWidened arena (s.widen true)

/-- The members of the object type for a list of fields. -/
def membersOfFields (arena : Arena) (fields : List (Field Shape)) :
    Except Failure (List (Field TypeNode)) :=
  ofWidenedFields arena (Shape.widenFields true fields)

end TypeNode

end TypedClient.TypeScript
