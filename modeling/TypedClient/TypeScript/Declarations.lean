import TypedClient.TypeScript.OfShape

/-!
# Declarations of shapes

The declarations that a shape needs before it can be written: of every name it
leads to, each after the names that its own shape leads to. A name is declared
once, when it is first met; a name that is met again while its own shape is
still being gone through is a circle and needs nothing more.

Every name that is followed is new, so no more names than the arena has can be
open at once, and the level that `followWithin` counts down never runs out.
-/

namespace TypedClient.TypeScript

/-- The state of the walk. -/
structure Walk where
  /-- The names met so far. -/
  visited : List String
  /-- The declarations so far. -/
  declared : List Declaration

namespace Walk

/-- Nothing met yet. -/
def start : Walk := ⟨[], []⟩

/-- Add a declaration. -/
def declare (w : Walk) (d : Declaration) : Walk := { w with declared := w.declared ++ [d] }

/-- Remember a name. -/
def meet (w : Walk) (name : String) : Walk := { w with visited := name :: w.visited }

mutual

/-- Go through a shape, where `follow` goes through a name. -/
def through (follow : String → Walk → Except Failure Walk) : Shape → Walk → Except Failure Walk
  | .array element, w => through follow element w
  | .object fields, w => throughFields follow fields w
  | .joined _ members, w => throughAll follow members w
  | .tuple members, w => throughAll follow members w
  | .enumeration e, w => .ok (w.declare (.enumeration e))
  | .reference name, w => follow name w
  | .any, w | .void, w | .literal _, w => .ok w

/-- Go through shapes in order. -/
def throughAll (follow : String → Walk → Except Failure Walk) :
    List Shape → Walk → Except Failure Walk
  | [], w => .ok w
  | member :: rest, w => (through follow member w).bind (throughAll follow rest)

/-- Go through the values of fields in order. -/
def throughFields (follow : String → Walk → Except Failure Walk) :
    List (Field Shape) → Walk → Except Failure Walk
  | [], w => .ok w
  | field :: rest, w => (through follow field.value w).bind (throughFields follow rest)

end

end Walk

/-- The declaration of a name: an interface for an object, an alias for anything else. -/
def declarationOf (arena : Arena) (name : String) : Shape → Except Failure Declaration
  | .object fields => (TypeNode.membersOfFields arena fields).map (.interface name)
  | target => (TypeNode.ofShape arena target).map (.alias name)

/-- Whether a shape is the enumeration of the given name, which declares itself. -/
def declaresItself (name : String) : Shape → Bool
  | .enumeration e => e.name == name
  | _ => false

/-- Go through a name with at most `level` names open at once. -/
def followWithin (arena : Arena) : Nat → String → Walk → Except Failure Walk
  | 0, _, w => .ok w
  | level + 1, name, w =>
    if (Shape.reference name).isTrivial arena || w.visited.contains name then .ok w
    else
      match arena.find? name with
      | none => .ok (w.meet name)
      | some target => do
        let after ← Walk.through (followWithin arena level) target (w.meet name)
        if declaresItself name target then return after
        return after.declare (← declarationOf arena name target)

/-- The declarations that a shape needs, dependencies first. -/
def declarations (arena : Arena) (s : Shape) : Except Failure (List Declaration) :=
  (Walk.through (followWithin arena arena.size) s Walk.start).map Walk.declared

end TypedClient.TypeScript
