import TypedClient.Proofs.Reduction.Widening

/-!
# What is guessed from an example

The shape guessed from an example accepts the example, with two reservations. An object
without members has a shape without fields, which says nothing: where no other object stands
beside it, it is left out, and then the guess may reject the empty object. And where merging
makes a dictionary of objects and finds a field for one of their names later, the index
signature has to stand for that name, too. Both can only happen inside lists, because nothing is
merged elsewhere. Without empty objects in lists none is left out, and with few keys no
dictionary is made.
-/

namespace TypedClient

namespace Json

/-- A value whose objects have every key once, as the objects of a document do. -/
inductive HasUniqueKeys : Json → Prop where
  | null : HasUniqueKeys .null
  | bool (b : Bool) : HasUniqueKeys (.bool b)
  | number (n : Number) : HasUniqueKeys (.number n)
  | string (text : String) : HasUniqueKeys (.string text)
  | array {elements : List Json} (h : ∀ v ∈ elements, HasUniqueKeys v) :
    HasUniqueKeys (.array elements)
  | object {members : List (String × Json)} (unique : (members.map Prod.fst).Nodup)
    (h : ∀ m ∈ members, HasUniqueKeys m.2) : HasUniqueKeys (.object members)

end Json

namespace Shape

section Samples

variable {P : Shape → Prop} {r : Reading} {value : Json} {members : List (String × Json)}

end Samples

/-! ### What may be left out -/

section Empty

variable {reduction : Reduction} {value : Json}

end Empty

/-! ### What may be left open -/

/-- The keys of an object are among these, and a literal is scalar. -/
def IsKnown (keys : List Key) : Shape → Prop
  | .object fields => ∀ k ∈ Field.keys fields, k ∈ keys
  | .literal l => l.isComposite = false
  | _ => True

section Known

variable {reduction : Reduction} {keys : List Key} {s : Shape} {value : Json} {name : String}

end Known

end Shape

end TypedClient
