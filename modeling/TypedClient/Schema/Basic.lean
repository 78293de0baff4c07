import TypedClient.Json.Basic
import TypedClient.Shape.Basic

/-!
# Schemas

A schema node of a document, read by what it means. The keywords of a node have
a fixed priority: `$ref`, `allOf`, `anyOf`, `oneOf`, `additionalProperties`,
`enum`, then `type`. A keyword whose value has the wrong form is passed over, so
every value is some schema.
-/

namespace TypedClient

/-- What a schema demands of a value. -/
inductive Schema where
  /-- Nothing. -/
  | anything
  /-- To be of a kind that needs no further schema. -/
  | scalar (shape : Shape)
  /-- What the schema at another place demands. -/
  | reference (reference : String)
  /-- All of several schemas. -/
  | allOf (parts : List Schema)
  /-- One of several schemas; the flag tells when they may overlap. -/
  | oneOf (overlapping : Bool) (branches : List Schema)
  /-- An object that may have further members. -/
  | dictionary (extra base : Schema)
  /-- One of the listed values, or a base type where they cannot be listed. -/
  | enumeration (values : List Json) (base : Schema)
  /-- One of several kinds, null among them when the flag is set. -/
  | kinds (nullable : Bool) (kinds : List Schema)
  /-- A list whose elements have one schema. -/
  | array (element : Schema)
  /-- A list with a schema for each position. -/
  | tuple (positions : List Schema)
  /-- An object with properties. -/
  | object (properties : List (Field Schema))
  /-- An object whose properties cannot be read. -/
  | malformedObject
  deriving Inhabited

namespace Schema

/-- The texts in a list of values. -/
def texts (values : List Json) : List String := values.filterMap Json.asString?

/-- The names of the properties that have to be present. -/
def requiredNames (node : List (String × Json)) : List String :=
  match (Json.find? "required" node).bind Json.asArray? with
  | some names => texts names
  | none => []

/-- The description of a schema. -/
def description? (schema : Json) : Option String :=
  (schema.get? "description").bind Json.asString?

/-- The elements that a keyword lists. -/
def listed? (node : List (String × Json)) (keyword : String) : Option (List Json) :=
  (Json.find? keyword node).bind Json.asArray?

/-- Listed elements are smaller than the node that lists them. -/
theorem sizeOf_lt_of_mem_listed {node : List (String × Json)} {keyword : String}
    {values : List Json} {value : Json} (h : listed? node keyword = some values)
    (hv : value ∈ values) : sizeOf value < sizeOf node := by
  unfold listed? at h
  cases hf : Json.find? keyword node with
  | none => simp [hf] at h
  | some found =>
    have hlt := Json.sizeOf_find?_lt hf
    cases found <;> simp [hf, Json.asArray?] at h
    subst h
    have := List.sizeOf_lt_of_mem hv
    simp only [Json.array.sizeOf_spec] at hlt
    omega

/-- A member is smaller than the members it is one of. -/
theorem sizeOf_lt_of_mem {node : List (String × Json)} {entry : String × Json}
    (h : entry ∈ node) : sizeOf entry.2 < sizeOf node := by
  have := List.sizeOf_lt_of_mem h
  obtain ⟨key, value⟩ := entry
  have hp : sizeOf (key, value) = 1 + sizeOf key + sizeOf value := rfl
  simp only [] at this ⊢
  omega

end Schema

end TypedClient
