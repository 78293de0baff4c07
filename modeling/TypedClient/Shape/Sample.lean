import TypedClient.Shape.Distinct

/-!
# The shape of a sample value

A scalar has the general shape of its kind. A list has the union of the shapes
of its elements as its element shape. An object has a field for each member,
which may be absent where the sample holds null.
-/

namespace TypedClient.Shape

mutual

/-- The shape of one sample. -/
def ofSample : Json → Shape
  | .null => .null
  | .bool _ => .boolean
  | .number _ => .number
  | .string _ => .string
  | .array elements => .array (.union (ofSamples elements))
  | .object members => .ofFields (fieldsOfSample members)

/-- The shapes of samples. -/
def ofSamples : List Json → List Shape
  | [] => []
  | value :: rest => ofSample value :: ofSamples rest

/-- A field for each member of a sample. -/
def fieldsOfSample : List (String × Json) → List (Field Shape)
  | [] => []
  | (key, value) :: rest =>
    { Field.named key (ofSample value) with optional := value.isNull } :: fieldsOfSample rest

end

/-- The shape of a sample that may be undefined. -/
def ofSample? : Option Json → Shape
  | none => .undefined
  | some value => ofSample value

end TypedClient.Shape
