import TypedClient.Api.Basic
import TypedClient.OpenApi.Record

/-!
# The parts of a document

The parts of an OpenAPI 2.0 document that endpoints are read from. Schemas stay
document values here, and responses too, because their keys stand next to
extensions that need not be responses at all.
-/

namespace TypedClient.OpenApi

/-- Where a parameter goes. -/
inductive Location where
  | query
  | header
  | path
  | formData
  | body
  deriving DecidableEq, Repr

/-- The word of a location. -/
def Location.word : Location → String
  | .query => "query"
  | .header => "header"
  | .path => "path"
  | .formData => "formData"
  | .body => "body"

/-- A parameter. -/
structure Parameter where
  /-- The name. -/
  name : String
  /-- Where it goes. -/
  location : Location
  /-- Whether it has to be given. -/
  required : Bool
  /-- Documentation. -/
  description : Option String
  /-- The value that an absent parameter stands for. -/
  default : Option Json
  /-- The schema of a body. -/
  schema : Option Json
  /-- All other members, which are the schema of any other parameter. -/
  rest : List (String × Json)

/-- A pointer to further documentation. -/
structure ExternalDocs where
  /-- What is written there. -/
  description : Option String
  /-- Where it is. -/
  url : Option String

/-- An operation on a path. -/
structure Operation where
  /-- The name of the operation. -/
  operationId : Option String
  /-- A short text. -/
  summary : Option String
  /-- A longer text. -/
  description : Option String
  /-- Whether the operation is not to be used any more. -/
  deprecated : Bool
  /-- Further documentation. -/
  externalDocs : Option ExternalDocs
  /-- The parameters. -/
  parameters : List Parameter
  /-- The responses by status, and extensions. -/
  responses : List (String × Json)

/-- The operations on a path and the parameters they share. -/
structure PathItem where
  /-- The operations by method; none comes twice. -/
  operations : Method → Option Operation
  /-- The parameters of all operations. -/
  parameters : List Parameter

/-- A response. -/
structure ResponseNode where
  /-- The schema of the payload. -/
  schema : Option Json
  /-- The schemas of headers by name. -/
  headers : List (String × Json)
  /-- Payloads by media type. -/
  examples : List (String × Json)

/-- A whole document. -/
structure Document where
  /-- What all paths are relative to. -/
  basePath : Option String
  /-- The path items by path, and extensions. -/
  paths : List (String × Json)

/-- The location of a word. -/
def Location.ofWord (word : String) : Except Mismatch Location :=
  match [Location.query, .header, .path, .formData, .body].find? (·.word = word) with
  | some location => .ok location
  | none => .error ⟨[], "unknown variant `" ++ word ++
      "`, expected one of `query`, `header`, `path`, `formData`, `body`"⟩

/-- Read a location: a word, or an object with that word as its only key and null
under it. -/
def Location.read : Reader Location
  | .string word => ofWord word
  | .object [(word, value)] => do
    let location ← ofWord word
    match value with
    | .null => return location
    | other => within (.member word) (wrongKind "unit" other)
  | .object _ => .error ⟨[], "invalid value: map, expected map with a single key"⟩
  | value => wrongKind "string or map" value

/-- A parameter whose members have been read in part. -/
structure Parameter.Draft where
  /-- The name, once read. -/
  name : Option String := none
  /-- The location, once read. -/
  location : Option Location := none
  /-- Whether it has to be given. -/
  required : Bool := false
  /-- Documentation. -/
  description : Option String := none
  /-- The value that an absent parameter stands for. -/
  default : Option Json := none
  /-- The schema of a body. -/
  schema : Option Json := none

/-- The members of a parameter that have a meaning of their own. -/
def Parameter.slots : List (Slot Parameter.Draft) :=
  [slot "name" false text fun a d => { d with name := some a },
   slot "in" false Location.read fun a d => { d with location := some a },
   slot "required" true truth fun a d => { d with required := a },
   slot "description" true (nullable text) fun a d => { d with description := a },
   slot "default" true (nullable anything) fun a d => { d with default := a },
   slot "schema" true (nullable anything) fun a d => { d with schema := a }]

/-- Read a parameter, which has to be an object with a name and a location. -/
def Parameter.read : Reader Parameter
  | .object members => do
    let draft ← storeMembers slots members {}
    let rest := members.filter fun entry => !(slots.any (·.name = entry.1))
    match draft.name, draft.location with
    | none, _ => .error ⟨[], "missing field `name`"⟩
    | _, none => .error ⟨[], "missing field `in`"⟩
    | some name, some location =>
      return ⟨name, location, draft.required, draft.description, draft.default, draft.schema, rest⟩
  | value => wrongKind "struct ParameterView" value

/-- Read a pointer to further documentation. -/
def ExternalDocs.read : Reader ExternalDocs :=
  recordOf "ExternalDocsView"
    [slot "description" false (nullable text) fun a r => { r with description := a },
     slot "url" false (nullable text) fun a r => { r with url := a }]
    ⟨none, none⟩

/-- Read an operation. -/
def Operation.read : Reader Operation :=
  recordOf "OperationView"
    [slot "operationId" false (nullable text) fun a r => { r with operationId := a },
     slot "summary" false (nullable text) fun a r => { r with summary := a },
     slot "description" false (nullable text) fun a r => { r with description := a },
     slot "deprecated" true truth fun a r => { r with deprecated := a },
     slot "externalDocs" false (nullable ExternalDocs.read) fun a r => { r with externalDocs := a },
     slot "parameters" true (listOf Parameter.read) fun a r => { r with parameters := a },
     slot "responses" true members fun a r => { r with responses := a }]
    ⟨none, none, none, false, none, [], []⟩

/-- The field of a path item for the operation of one method. -/
def PathItem.operationSlot (method : Method) : Slot PathItem :=
  slot method.word false (nullable Operation.read) fun a r =>
    { r with operations := fun m => if m = method then a else r.operations m }

/-- Read a path item. -/
def PathItem.read : Reader PathItem :=
  recordOf "PathItemView"
    (Method.all.map PathItem.operationSlot ++
      [slot "parameters" true (listOf Parameter.read) fun a r => { r with parameters := a }])
    ⟨fun _ => none, []⟩

/-- Read a response. -/
def ResponseNode.read : Reader ResponseNode :=
  recordOf "ResponseView"
    [slot "schema" false (nullable anything) fun a r => { r with schema := a },
     slot "headers" true members fun a r => { r with headers := a },
     slot "examples" true members fun a r => { r with examples := a }]
    ⟨none, [], []⟩

/-- Read a whole document. -/
def Document.read : Reader Document :=
  recordOf "DocumentView"
    [slot "basePath" false (nullable text) fun a r => { r with basePath := a },
     slot "paths" true members fun a r => { r with paths := a }]
    ⟨none, []⟩

/-- Read the value at a pointer of the document. -/
def readAt {α : Type} (read : Reader α) (pointer : String) (value : Json) : Except Failure α :=
  match read value with
  | .ok a => .ok a
  | .error m => .error (m.toFailure pointer)

end TypedClient.OpenApi
