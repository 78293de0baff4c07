import TypedClient.Error
import TypedClient.Json.Reader
import TypedClient.Text.Blank
import TypedClient.Yaml.Reader

/-!
# The text of a document

A document is written as a strict text of braces and brackets or as an indented
text. The strict reading is tried first.
-/

namespace TypedClient.Document

/-- How deeply containers of a strict text may be nested. -/
def greatestDepth : Nat := 127

/-- Read the text of a document. -/
def ofText (text : String) : Except Failure Json :=
  match (Json.read? greatestDepth text).or (Yaml.read? text) with
  | some document => .ok document
  | none => .error .unparsable

end TypedClient.Document
