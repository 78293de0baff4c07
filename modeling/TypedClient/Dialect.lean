import TypedClient.OpenApi.Endpoints

/-!
# Dialects

A dialect recognises the documents that are written in it and says what such a
document describes. Of several dialects the first that recognises a document
reads it.
-/

namespace TypedClient

/-- A way to write what a service offers. -/
structure Dialect where
  /-- What the dialect is called. -/
  name : String
  /-- Whether a document is written in the dialect. -/
  recognises : Json → Bool
  /-- What a document of the dialect describes, and the warnings met on the way. -/
  read : Json → Except Failure Api × List Warning

namespace Dialect

/-- OpenAPI 2.0. -/
def openApi2 : Dialect := ⟨"OpenAPI 2.0", OpenApi.recognises, OpenApi.read⟩

/-- The dialects that are known. -/
def known : List Dialect := [openApi2]

/-- The first dialect that recognises a document. -/
def select (dialects : List Dialect) (document : Json) : Except Failure Dialect :=
  match dialects.find? (·.recognises document) with
  | some dialect => .ok dialect
  | none => .error .unknownDialect

/-- What a document describes, in the first dialect that recognises it. -/
def readWith (dialects : List Dialect) (document : Json) : Except Failure Api × List Warning :=
  match select dialects document with
  | .ok dialect => dialect.read document
  | .error e => (.error e, [])

end Dialect

end TypedClient
