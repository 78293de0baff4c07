import TypedClient.Yaml.Anchors
import TypedClient.Yaml.Layout
import TypedClient.Yaml.Scalar

/-!
# Reading an indented text

The value of a document: scalars by their spelling, lists, and objects whose keys
are the texts of scalars. A key that is repeated keeps its first place and takes
the last value. Containers may be nested 128 deep, and repetitions may be
followed a hundred times for each place of the document, so that a small text
cannot grow without bound.
-/

namespace TypedClient.Yaml

/-- What repetitions stand for, and how many may be followed. -/
structure Anchored where
  /-- The numbered nodes. -/
  nodes : List (Nat × Node Nat)
  /-- How many repetitions may be followed. -/
  limit : Nat

namespace Anchored

/-- The last node with a number. -/
def node? (a : Anchored) (number : Nat) : Option (Node Nat) :=
  (a.nodes.filter (·.1 == number)).getLast?.map Prod.snd

/-- The node that stands for a node, given how many repetitions have been
followed. -/
def target (a : Anchored) (node : Node Nat) (followed : Nat) : Option (Node Nat × Nat) :=
  match node with
  | .alias number =>
    if a.limit ≤ followed then none else (a.node? number).map (·, followed + 1)
  | node => some (node, followed)

/-- The text of a node that is a key. -/
def keyText (a : Anchored) (node : Node Nat) (followed : Nat) : Option (String × Nat) :=
  (a.target node followed).bind fun (node, followed) =>
    match node with
    | .scalar _ _ text _ => some (text, followed)
    | _ => none

/-- Whether a container may have a tag: any that is not of the document's own. -/
def allowsTag (tag : Option Tag) : Bool := !tag.any Tag.isOwn

/-- The values of nodes in order. -/
def valuesWith (read : Node Nat → Nat → Option (Json × Nat)) :
    List (Node Nat) → Nat → Option (List Json × Nat)
  | [], followed => some ([], followed)
  | node :: rest, followed => do
    let (first, followed) ← read node followed
    let (others, followed) ← valuesWith read rest followed
    return (first :: others, followed)

/-- The members for keys and values in order, added to those before. -/
def membersWith (a : Anchored) (read : Node Nat → Nat → Option (Json × Nat)) :
    List (Node Nat × Node Nat) → List (String × Json) → Nat →
      Option (List (String × Json) × Nat)
  | [], members, followed => some (members, followed)
  | (key, node) :: rest, members, followed => do
    let (name, followed) ← a.keyText key followed
    let (value, followed) ← read node followed
    membersWith a read rest (Json.insert name value members) followed

/-- The value of a node that may be nested `depth` deep, and how many repetitions
have been followed then. -/
def value? (a : Anchored) : Nat → Node Nat → Nat → Option (Json × Nat)
  | depth, node, followed => do
    let (node, followed) ← a.target node followed
    match node, depth with
    | .scalar _ tag text plain, _ => (Scalar.value? tag text plain).map (·, followed)
    | .sequence _ tag entries, depth + 1 =>
      if allowsTag tag then
        (valuesWith (a.value? depth) entries followed).map fun (values, followed) =>
          (.array values, followed)
      else none
    | .mapping _ tag entries, depth + 1 =>
      if allowsTag tag then
        (a.membersWith (a.value? depth) entries [] followed).map fun (members, followed) =>
          (.object members, followed)
      else none
    | _, _ => none

end Anchored

/-- How deeply containers may be nested. -/
def greatestDepth : Nat := 128

/-- How often repetitions may be followed for each place of a document. -/
def repetitionsPerPlace : Nat := 100

/-- The value of a node. -/
def Node.value? (node : NamedNode) : Option Json := do
  let (node, _) ← node.numbered []
  let a : Anchored := ⟨node.anchored, repetitionsPerPlace * node.weight⟩
  let (value, _) ← a.value? greatestDepth node 0
  return value

/-- Read an indented text. A text without anything in it is null. -/
def read? (text : String) : Option Json := do
  match ← Node.ofTokens? (← tokens? text.toList) with
  | none => return .null
  | some node => node.value?

end TypedClient.Yaml
