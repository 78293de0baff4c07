import TypedClient.OpenApi.View
import TypedClient.Schema.Catalog
import TypedClient.Shape.Reduce

/-!
# Endpoints of a document

The endpoints of an OpenAPI 2.0 document, in document order of the paths and, on
each path, in the fixed order of the methods. Only keys that start with a slash
are paths. Of two parameters with the same name and location the operation's
takes the place of the path's.
-/

namespace TypedClient.OpenApi

/-- A step that reads schemas into the catalog and may fail; what was read before
a failure is kept. -/
abbrev Cataloguing (α : Type) := ExceptT Failure (StateM Catalog) α

/-- A result that needs no catalog. -/
def Cataloguing.ofExcept {α : Type} (result : Except Failure α) : Cataloguing α :=
  fun c => (result, c)

/-- A step that cannot fail. -/
def Cataloguing.ofStep {α : Type} (step : Catalog → α × Catalog) : Cataloguing α :=
  fun c => ((step c).map .ok id)

/-- The shape of a schema of the document. -/
def shapeOf (document schema : Json) : Cataloguing Shape :=
  .ofStep (Catalog.shapeOf document schema)

/-- One field for each element, in order. -/
def fieldsOf {α : Type} (field : α → Cataloguing (Field Shape)) :
    List α → Cataloguing (List (Field Shape))
  | [] => pure []
  | a :: rest => do
    let first ← field a
    return first :: (← fieldsOf field rest)

/-- The parameters of an operation: those of the path that it does not replace,
then its own. -/
def effectiveParameters (shared own : List Parameter) : List Parameter :=
  shared.filter (fun p => !own.any fun q => q.name == p.name && q.location == p.location) ++ own

/-- The field for a parameter that is not a body. -/
def parameterField (document : Json) (p : Parameter) : Cataloguing (Field Shape) := do
  let value ← shapeOf document (.object p.rest)
  return { key := .named p.name, value := value, optional := !p.required, doc := p.description,
           default := p.default }

/-- The object of the parameters that go to one location. -/
def groupAt (document : Json) (parameters : List Parameter) (location : Location) :
    Cataloguing Shape := do
  let fields ← fieldsOf (parameterField document)
    (parameters.filter fun p => p.location == location)
  return .ofFields fields

/-- The parameter that describes the body: the last one that does. -/
def bodyParameter? (parameters : List Parameter) : Option Parameter :=
  (parameters.filter fun p => p.location == .body).getLast?

/-- The body of a request and whether it may be left out. Form fields say for
themselves whether they may. -/
def bodyOf (document : Json) (parameters : List Parameter) (encoding : Encoding) :
    Cataloguing (Option Shape × Bool) :=
  match encoding with
  | .form => do return (some (← groupAt document parameters .formData), false)
  | .json =>
    match bodyParameter? parameters with
    | none => pure (none, false)
    | some p => do
      let shape ← match p.schema with
        | some schema => shapeOf document schema
        | none => pure .any
      return (some shape, !p.required)

/-- The field for a response header. -/
def headerField (document : Json) (header : String × Json) : Cataloguing (Field Shape) := do
  let value ← shapeOf document header.2
  return { Field.named header.1 value with doc := Schema.description? header.2 }

/-- The object of response headers, if there are any. -/
def headerGroup (document : Json) (headers : List (String × Json)) :
    Cataloguing (Option Shape) := do
  if headers.isEmpty then return none
  let fields ← fieldsOf (headerField document) headers
  return some (.ofFields fields)

/-- A response. Without a schema its shape is guessed from an example. -/
def responseOf (document : Json) (status : Status) (node : ResponseNode) :
    Cataloguing Response := do
  let shape ← match node.schema, Json.find? "application/json" node.examples with
    | some schema, _ => shapeOf document schema
    | none, some sample => pure (Shape.infer sample)
    | none, none => pure .any
  let header ← headerGroup document node.headers
  return ⟨status, shape, header⟩

/-- The responses among the members of `responses`, whose other keys are passed over. -/
def responsesOf (document : Json) (pointer : String) :
    List (String × Json) → Cataloguing (List Response)
  | [] => pure []
  | (key, value) :: rest =>
    match Status.ofText? key with
    | none => responsesOf document pointer rest
    | some status => do
      let node ← .ofExcept
        (readAt ResponseNode.read (pointer ++ "/responses/" ++ key) value)
      let first ← responseOf document status node
      return first :: (← responsesOf document pointer rest)

/-- The documentation of an operation; further documentation fills in for a
description that is missing. -/
def docOf (operation : Operation) : Documentation where
  summary := operation.summary
  description := operation.description.or (operation.externalDocs.bind ExternalDocs.description)
  deprecated := operation.deprecated
  see := operation.externalDocs.bind ExternalDocs.url

/-- How the body of a request with these parameters is written. -/
def encodingOf (parameters : List Parameter) : Encoding :=
  if parameters.any fun p => p.location == .formData then .form else .json

/-- The endpoint of an operation. -/
def endpointOf (document : Json) (url : String) (method : Method) (shared : List Parameter)
    (operation : Operation) (pointer : String) : Cataloguing Endpoint := do
  let parameters := effectiveParameters shared operation.parameters
  let encoding := encodingOf parameters
  let (body, bodyOptional) ← bodyOf document parameters encoding
  let responses ← responsesOf document pointer operation.responses
  let path ← groupAt document parameters .path
  let query ← groupAt document parameters .query
  let headers ← groupAt document parameters .header
  return { url := url, method := method, name := operation.operationId.map identifier,
           path := some path, query := some query, headers := some headers, body := body,
           bodyOptional := bodyOptional, bodyEncoding := encoding, responses := responses,
           doc := docOf operation }

/-- The endpoints on a path, for the methods given. -/
def endpointsOn (document : Json) (url pointer : String) (item : PathItem) :
    List Method → Cataloguing (List Endpoint)
  | [] => pure []
  | method :: rest =>
    match item.operations method with
    | none => endpointsOn document url pointer item rest
    | some operation => do
      let first ← endpointOf document url method item.parameters operation
        (pointer ++ "/" ++ method.word)
      return first :: (← endpointsOn document url pointer item rest)

/-- Report a path item that refers to another one. -/
def noteReference (url : String) (item : Json) : Cataloguing Unit :=
  .ofStep fun c => ((), if (item.get? "$ref").isSome then c.warn (.pathItemReference url) else c)

/-- The pointer to the item of a path. -/
def pathPointer (url : String) : String :=
  "/paths/" ++ String.ofList (Json.escapeKey url.toList)

/-- Whether a key among the paths is a path. -/
def isPath (key : String) : Bool := key.toList.head? == some '/'

/-- The endpoints on all paths. -/
def endpointsOf (document : Json) : List (String × Json) → Cataloguing (List Endpoint)
  | [] => pure []
  | (url, value) :: rest =>
    if isPath url then do
      noteReference url value
      let pointer := pathPointer url
      let item ← .ofExcept (readAt PathItem.read pointer value)
      let here ← endpointsOn document url pointer item Method.all
      return here ++ (← endpointsOf document rest)
    else endpointsOf document rest

/-- What a document with its references replaced describes. -/
def apiOf (document : Json) (view : Document) : Cataloguing Api := do
  let endpoints ← endpointsOf document view.paths
  let interfaces ← .ofStep (Catalog.nameDefinitions document)
  let c ← get
  let basePath := view.basePath.getD ""
  return ⟨if basePath.isEmpty then "/" else basePath, endpoints, c.enums, interfaces, c.arena⟩

/-- The document with its references replaced, and the parts that are read from it. -/
def prepare (document : Json) : Except Failure (Json × Document) := do
  let document ← TypedClient.Document.dereference document
  return (document, ← readAt Document.read "" document)

/-- What a document describes, and the warnings met on the way. -/
def read (document : Json) : Except Failure Api × List Warning :=
  match prepare document with
  | .error e => (.error e, [])
  | .ok (document, view) =>
    let (result, c) := (apiOf document view).run.run Catalog.empty
    (result, c.warnings)

/-- Whether a document says that it is written in this dialect: its version is
the text or the number 2.0. -/
def recognises (document : Json) : Bool :=
  match document.get? "swagger" with
  | some (.string version) => version == "2.0"
  | some (.number (.integer n)) => n == 2
  | some (.number (.float x)) => some x == Binary64.ofNat? 2
  | _ => false

end TypedClient.OpenApi
