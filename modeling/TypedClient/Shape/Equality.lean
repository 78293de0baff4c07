import TypedClient.Shape.Basic

/-!
# Equality of shapes

Two shapes are equal when they are built alike. Fields and members count in
their order; the values inside literals, defaults and enumerations are compared
as document values, so the order of their members does not matter.
-/

namespace TypedClient

/-- Equality of optional values. -/
def Json.sameOption : Option Json → Option Json → Bool
  | none, none => true
  | some a, some b => a.same b
  | _, _ => false

/-- Equality of literals. -/
def Literal.same (a b : Literal) : Bool :=
  Json.sameOption a.value b.value && a.constant == b.constant

/-- Equality of lists of constants of an enumeration. -/
def EnumMember.sameAll : List EnumMember → List EnumMember → Bool
  | [], [] => true
  | a :: as, b :: bs => a.name == b.name && a.value.same b.value && sameAll as bs
  | _, _ => false

/-- Equality of enumerations. -/
def Enumeration.same (a b : Enumeration) : Bool :=
  a.name == b.name && EnumMember.sameAll a.members b.members

namespace Shape

mutual

/-- Equality of shapes. -/
def same : Shape → Shape → Bool
  | .any, .any => true
  | .void, .void => true
  | .literal a, .literal b => a.same b
  | .array a, .array b => same a b
  | .object a, .object b => sameFields a b
  | .joined c a, .joined d b => c == d && sameAll a b
  | .tuple a, .tuple b => sameAll a b
  | .enumeration a, .enumeration b => a.same b
  | .reference a, .reference b => a == b
  | _, _ => false

/-- Equality of lists of shapes. -/
def sameAll : List Shape → List Shape → Bool
  | [], [] => true
  | a :: as, b :: bs => same a b && sameAll as bs
  | _, _ => false

/-- Equality of lists of fields. -/
def sameFields : List (Field Shape) → List (Field Shape) → Bool
  | [], [] => true
  | a :: as, b :: bs =>
    a.key == b.key && same a.value b.value && a.optional == b.optional && a.doc == b.doc &&
      Json.sameOption a.default b.default && a.readonly == b.readonly && sameFields as bs
  | _, _ => false

end

instance : BEq Shape := ⟨same⟩

end Shape

end TypedClient
