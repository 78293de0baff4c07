import TypedClient.Yaml.Node

/-!
# Anchors

Every anchored node gets a number: the count of the names that are known when it
is met. A repetition has the number that its name has at that place, and stands
for the last node of that number in the whole document.
-/

namespace TypedClient.Yaml

/-- The names of anchors with their numbers. -/
abbrev AnchorNumbers := List (List Char × Nat)

namespace AnchorNumbers

/-- Give a name the next number, in the place of the number it had. -/
def assign (numbers : AnchorNumbers) (name : List Char) : AnchorNumbers :=
  (name, numbers.length) :: numbers.filter fun entry => entry.1 ≠ name

end AnchorNumbers

namespace Node

/-- Number the anchor of a node. -/
def numberAnchor (anchor : Option (List Char)) (numbers : AnchorNumbers) :
    Option Nat × AnchorNumbers :=
  match anchor with
  | none => (none, numbers)
  | some name => (some numbers.length, numbers.assign name)

mutual

/-- Number the anchors of a node in the order of the text. A repetition of a name
that is not known fails. -/
def numbered : NamedNode → AnchorNumbers → Option (Node Nat × AnchorNumbers)
  | .alias name, numbers => (numbers.lookup name).map fun n => (.alias n, numbers)
  | .scalar anchor tag text plain, numbers =>
    let (number, numbers) := numberAnchor anchor numbers
    some (.scalar number tag text plain, numbers)
  | .sequence anchor tag entries, numbers =>
    let (number, numbers) := numberAnchor anchor numbers
    (numberedAll entries numbers).map fun (entries, numbers) =>
      (.sequence number tag entries, numbers)
  | .mapping anchor tag entries, numbers =>
    let (number, numbers) := numberAnchor anchor numbers
    (numberedPairs entries numbers).map fun (entries, numbers) =>
      (.mapping number tag entries, numbers)

/-- Number the anchors of nodes. -/
def numberedAll : List NamedNode → AnchorNumbers → Option (List (Node Nat) × AnchorNumbers)
  | [], numbers => some ([], numbers)
  | node :: rest, numbers => do
    let (first, numbers) ← numbered node numbers
    let (others, numbers) ← numberedAll rest numbers
    return (first :: others, numbers)

/-- Number the anchors of keys and values. -/
def numberedPairs : List (NamedNode × NamedNode) → AnchorNumbers →
    Option (List (Node Nat × Node Nat) × AnchorNumbers)
  | [], numbers => some ([], numbers)
  | (key, value) :: rest, numbers => do
    let (key, numbers) ← numbered key numbers
    let (value, numbers) ← numbered value numbers
    let (others, numbers) ← numberedPairs rest numbers
    return ((key, value) :: others, numbers)

end

mutual

/-- The numbered nodes in a node, in the order of the text. -/
def anchored : Node Nat → List (Nat × Node Nat)
  | .alias _ => []
  | .scalar anchor tag text plain =>
    (anchor.map fun n => (n, Node.scalar anchor tag text plain)).toList
  | .sequence anchor tag entries =>
    (anchor.map fun n => (n, Node.sequence anchor tag entries)).toList ++ anchoredAll entries
  | .mapping anchor tag entries =>
    (anchor.map fun n => (n, Node.mapping anchor tag entries)).toList ++ anchoredPairs entries

/-- The numbered nodes in nodes. -/
def anchoredAll : List (Node Nat) → List (Nat × Node Nat)
  | [] => []
  | node :: rest => anchored node ++ anchoredAll rest

/-- The numbered nodes in keys and values. -/
def anchoredPairs : List (Node Nat × Node Nat) → List (Nat × Node Nat)
  | [] => []
  | (key, value) :: rest => anchored key ++ anchored value ++ anchoredPairs rest

end

mutual

/-- The number of places where a node or a part of it begins or ends; a scalar and
a repetition have one. -/
def weight : Node Nat → Nat
  | .alias _ | .scalar _ _ _ _ => 1
  | .sequence _ _ entries => 2 + weightAll entries
  | .mapping _ _ entries => 2 + weightPairs entries

/-- The weight of nodes. -/
def weightAll : List (Node Nat) → Nat
  | [] => 0
  | node :: rest => weight node + weightAll rest

/-- The weight of keys and values. -/
def weightPairs : List (Node Nat × Node Nat) → Nat
  | [] => 0
  | (key, value) :: rest => weight key + weight value + weightPairs rest

end

end Node

end TypedClient.Yaml
