import TypedClient.Schema.Basic

/-!
# Reading schemas

The schema that a value of a document stands for. Reading follows the priority
of the keywords; every schema that a node refers to by nesting is a smaller value
of the document, so reading ends.
-/

namespace TypedClient.Schema

mutual

/-- The schema that a value of a document stands for. Properties next to `allOf`
are one more part. -/
def ofJson : Json → Schema
  | .object node =>
    match (Json.find? "$ref" node).bind Json.asString? with
    | some spelling => .reference spelling
    | none =>
      match _h : listed? node "allOf" with
      | some parts =>
        .allOf (parts.attach.map (fun ⟨part, _⟩ => ofJson part) ++
          (if (Json.find? "properties" node).isSome then [ofBranches node] else []))
      | none => ofBranches node
  | _ => .anything
termination_by value => (sizeOf value, 0)
decreasing_by
  · have := sizeOf_lt_of_mem_listed _h ‹_›
    apply Prod.Lex.left
    simp only [Json.object.sizeOf_spec]
    omega
  all_goals
    apply Prod.Lex.left
    simp only [Json.object.sizeOf_spec]
    omega

/-- The schema of a node whose `$ref` and `allOf` are passed over. -/
def ofBranches (node : List (String × Json)) : Schema :=
  match _h : listed? node "anyOf" with
  | some branches => .oneOf true (branches.attach.map fun ⟨branch, _⟩ => ofJson branch)
  | none =>
    match _h : listed? node "oneOf" with
    | some branches => .oneOf false (branches.attach.map fun ⟨branch, _⟩ => ofJson branch)
    | none =>
      match _h : Json.find? "additionalProperties" node with
      | none | some (.bool false) => ofPlain node
      | some (.bool true) => .dictionary .anything (ofPlain node)
      | some extra => .dictionary (ofJson extra) (ofPlain node)
termination_by (sizeOf node, 6)
decreasing_by
  · exact Prod.Lex.left _ _ (sizeOf_lt_of_mem_listed _h ‹_›)
  · exact Prod.Lex.left _ _ (sizeOf_lt_of_mem_listed _h ‹_›)
  · exact Prod.Lex.right _ (by omega)
  · exact Prod.Lex.right _ (by omega)
  · exact Prod.Lex.right _ (by omega)
  · exact Prod.Lex.left _ _ (Json.sizeOf_find?_lt _h)
  · exact Prod.Lex.right _ (by omega)

/-- The schema of a node by its `enum` and `type`. -/
def ofPlain (node : List (String × Json)) : Schema :=
  match listed? node "enum" with
  | some values => .enumeration values (ofTyped node)
  | none => ofTyped node
termination_by (sizeOf node, 5)

/-- The schema of a node by its `type`, which names one kind or lists several. -/
def ofTyped (node : List (String × Json)) : Schema :=
  match Json.find? "type" node with
  | some (.string name) => ofKind name node
  | some (.array names) =>
    .kinds ((texts names).contains "null") ((texts names).map fun name => ofKind name node)
  | _ => ofUntyped node
termination_by (sizeOf node, 4)

/-- The schema of a node of a named kind. A name that is not known says nothing. -/
def ofKind (name : String) (node : List (String × Json)) : Schema :=
  match name with
  | "string" => .scalar .string
  | "boolean" => .scalar .boolean
  | "integer" | "number" => .scalar .number
  | "null" => .scalar .null
  | "file" => .anything
  | "array" => ofItems node
  | "object" => ofProperties node
  | _ => ofUntyped node
termination_by (sizeOf node, 3)

/-- The schema of a node without a kind: an object when it has properties. -/
def ofUntyped (node : List (String × Json)) : Schema :=
  if (Json.find? "properties" node).isSome then ofProperties node else .anything
termination_by (sizeOf node, 2)

/-- The schema of a list: one for all elements, or one for each position. -/
def ofItems (node : List (String × Json)) : Schema :=
  match _h : Json.find? "items" node with
  | none => .array .anything
  | some (.array positions) => .tuple (positions.attach.map fun ⟨position, _⟩ => ofJson position)
  | some items => .array (ofJson items)
termination_by (sizeOf node, 1)
decreasing_by
  · rename_i hp
    have h1 := Json.sizeOf_find?_lt _h
    have h2 := List.sizeOf_lt_of_mem hp
    apply Prod.Lex.left
    simp only [Json.array.sizeOf_spec] at h1
    omega
  · exact Prod.Lex.left _ _ (Json.sizeOf_find?_lt _h)

/-- The schema of an object. A property that is not required may be absent. -/
def ofProperties (node : List (String × Json)) : Schema :=
  match _h : Json.find? "properties" node with
  | none => .object []
  | some (.object properties) =>
    .object (properties.attach.map fun ⟨(key, property), _⟩ =>
      { key := .named key
        value := ofJson property
        optional := !(requiredNames node).contains key
        doc := description? property
        default := property.get? "default"
        readonly := ((property.get? "readOnly").bind Json.asBool?).getD false })
  | some _ => .malformedObject
termination_by (sizeOf node, 1)
decreasing_by
  rename_i hp
  have h1 := Json.sizeOf_find?_lt _h
  have h2 := sizeOf_lt_of_mem hp
  apply Prod.Lex.left
  simp only [Json.object.sizeOf_spec] at h1
  simp only [] at h2
  omega

end

end TypedClient.Schema
