import TypedClient.Api.Identifier
import TypedClient.Error
import TypedClient.Json.Pointer

/-!
# References inside a document

A reference is `#` and a pointer. A reference to a definition stays in the
document, because it becomes a named shape; every other one is replaced by what
it points at. What stands in its place is gone through in its turn, so a
reference may not lead back to itself.

Every reference that is being replaced has a spelling of its own, so no more of
them than the document has references can be open at once, and the level that
`followWithin` counts down never runs out.
-/

namespace TypedClient.Document

/-- What every reference to a definition starts with. -/
def definitionMark : List Char := "#/definitions/".toList

/-- Whether a reference is to a definition. -/
def isDefinition (reference : String) : Bool := definitionMark.isPrefixOf reference.toList

/-- What a reference points at. -/
def resolve? (document : Json) (reference : String) : Option Json :=
  match reference.toList with
  | '#' :: pointer => document.pointer? pointer
  | _ => none

/-- The name for what a reference points at: the key of a definition, and the
whole path of anything else. -/
def targetName (reference : String) : String :=
  let text := reference.toList
  let path :=
    if definitionMark.isPrefixOf text then text.drop definitionMark.length
    else text.dropWhile (fun c => c = '#' || c = '/')
  identifier (String.ofList (Json.unescapeKey path))

/-- The reference that an object stands for, if it does. -/
def reference? (members : List (String × Json)) : Option String :=
  (Json.find? "$ref" members).bind Json.asString?

mutual

/-- The spellings of all references in a value. -/
def references : Json → List String
  | .array elements => referencesInElements elements
  | .object members => (reference? members).toList ++ referencesInMembers members
  | _ => []

/-- The spellings of all references in the elements of a list. -/
def referencesInElements : List Json → List String
  | [] => []
  | value :: rest => references value ++ referencesInElements rest

/-- The spellings of all references in the members of an object. -/
def referencesInMembers : List (String × Json) → List String
  | [] => []
  | (_, value) :: rest => references value ++ referencesInMembers rest

end

mutual

/-- A value with its references replaced, where `follow` replaces one reference
given the object that holds it. -/
def inlined (follow : String → Json → Except Failure Json) : Json → Except Failure Json
  | .array elements => do return .array (← inlinedElements follow elements)
  | .object members =>
    match reference? members with
    | some reference => follow reference (.object members)
    | none => do return .object (← inlinedMembers follow members)
  | scalar => .ok scalar

/-- The elements of a list with their references replaced. -/
def inlinedElements (follow : String → Json → Except Failure Json) :
    List Json → Except Failure (List Json)
  | [] => .ok []
  | value :: rest => do
    let first ← inlined follow value
    return first :: (← inlinedElements follow rest)

/-- The members of an object with their references replaced. -/
def inlinedMembers (follow : String → Json → Except Failure Json) :
    List (String × Json) → Except Failure (List (String × Json))
  | [] => .ok []
  | (key, value) :: rest => do
    let first ← inlined follow value
    return (key, first) :: (← inlinedMembers follow rest)

end

/-- Replace one reference while those in `stack` are being replaced, at most
`level` more of them at once. -/
def followWithin (document : Json) : Nat → List String → String → Json → Except Failure Json
  | level, stack, reference, node =>
    match resolve? document reference with
    | none => .error (.unresolvableReference reference)
    | some target =>
      if isDefinition reference then .ok node
      else if stack.contains reference then .error (.circularReference reference)
      else
        match level with
        | 0 => .error (.circularReference reference)
        | level + 1 => inlined (followWithin document level (reference :: stack)) target

/-- The document with its references replaced. -/
def dereference (document : Json) : Except Failure Json :=
  inlined (followWithin document (references document).length []) document

end TypedClient.Document
