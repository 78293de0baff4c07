import TypedClient.Api.Identifier
import TypedClient.Json.Pointer
import TypedClient.Shape.Arena
import TypedClient.Text.Blank
import TypedClient.Text.Lines

/-!
# Interfaces of services

What a service offers, whatever its document is written in: endpoints with their
parameters and responses, over named shapes.
-/

namespace TypedClient

/-- The method of a request. -/
inductive Method where
  | get
  | post
  | put
  | delete
  | head
  | options
  | patch
  deriving DecidableEq, Repr

/-- The methods in the order in which the operations of a path are read. -/
def Method.all : List Method := [.get, .post, .put, .delete, .head, .options, .patch]

/-- The word of a method. -/
def Method.word : Method → String
  | .get => "get"
  | .post => "post"
  | .put => "put"
  | .delete => "delete"
  | .head => "head"
  | .options => "options"
  | .patch => "patch"

/-- How a request body is written. -/
inductive Encoding where
  /-- As one document. -/
  | json
  /-- As form fields. -/
  | form
  deriving DecidableEq, Repr

/-- The word of an encoding. -/
def Encoding.word : Encoding → String
  | .json => "json"
  | .form => "form"

/-- Which responses a description is about. -/
inductive Status where
  /-- Responses with one code. -/
  | code (value : UInt16)
  /-- All responses that nothing else describes. -/
  | default
  deriving DecidableEq, Repr

/-- Read a status: the word `default`, or a 16-bit number in decimal that may
have a plus sign in front. -/
def Status.ofText? (text : String) : Option Status :=
  if text = "default" then some .default
  else (unsigned? 16 text.toList).map fun value => .code (UInt16.ofNat value)

/-- The text of a status. -/
def Status.text : Status → String
  | .code value => toString value.toNat
  | .default => "default"

/-- The documentation of an endpoint. -/
structure Documentation where
  /-- A short text. -/
  summary : Option String := none
  /-- A longer text. -/
  description : Option String := none
  /-- Whether the endpoint is not to be used any more. -/
  deprecated : Bool := false
  /-- Where more is written. -/
  see : Option String := none

namespace Documentation

/-- Whether nothing is documented. -/
def isEmpty (doc : Documentation) : Bool :=
  doc.summary.isNone && doc.description.isNone && !doc.deprecated && doc.see.isNone

/-- The lines of the documentation: description and summary, then the tags. -/
def lines (doc : Documentation) : List String :=
  (doc.description.map Text.trimmed).toList ++ (doc.summary.map Text.trimmed).toList ++
    (if doc.deprecated then ["@deprecated"] else []) ++ (doc.see.map ("@see " ++ ·)).toList

/-- The documentation as one text, unless there is nothing to say. -/
def text? (doc : Documentation) : Option String :=
  if doc.isEmpty then none
  else
    match doc.lines.filter (!·.isEmpty) with
    | [] => none
    | lines => some (Text.joinWith "\n" lines)

end Documentation

/-- One documented response. -/
structure Response where
  /-- Which responses this is about. -/
  status : Status
  /-- The payload. -/
  shape : Shape
  /-- The headers, if any are documented. -/
  header : Option Shape

/-- One operation that can be called. A group of parameters is none when nothing
is known about it; the object without fields means that there are no parameters. -/
structure Endpoint where
  /-- The path of the request, with placeholders. -/
  url : String
  /-- The method of the request. -/
  method : Method
  /-- The name of the function, if the document gives one. -/
  name : Option String := none
  /-- Parameters inside the path. -/
  path : Option Shape := none
  /-- Parameters of the query. -/
  query : Option Shape := none
  /-- Request headers. -/
  headers : Option Shape := none
  /-- The request body. -/
  body : Option Shape := none
  /-- Whether the caller may leave the body out. -/
  bodyOptional : Bool := false
  /-- How the body is written. -/
  bodyEncoding : Encoding := .json
  /-- The documented responses in document order. -/
  responses : List Response := []
  /-- The documentation. -/
  doc : Documentation := {}

/-- Everything that a module is generated from. -/
structure Api where
  /-- What all paths are relative to. -/
  baseUrl : String
  /-- The operations in order. -/
  endpoints : List Endpoint
  /-- Enumerations to be declared. -/
  enums : List Enumeration
  /-- Names to be declared even when no endpoint leads to them. -/
  interfaces : List String
  /-- The shapes of all names. -/
  types : Arena

/-- The name for an endpoint without a name of its own: its path and its method. -/
def derivedName (url : String) (method : Method) : String :=
  identifier
    (String.ofList ((sanitize (url ++ "_" ++ method.word).toList).dropWhile (· = '_')))

/-- The name of the function for an endpoint. -/
def Endpoint.functionName (e : Endpoint) : String := e.name.getD (derivedName e.url e.method)

end TypedClient
