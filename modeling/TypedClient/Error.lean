import TypedClient.Text.Lines

/-!
# Failures and warnings

What can end a run, and what a run reports and carries on after. The wording of
either is given in one place.
-/

namespace TypedClient

/-- What ends a run. -/
inductive Failure where
  /-- No schema was given. -/
  | noSchema
  /-- The schema is neither of the two text formats. -/
  | unparsable
  /-- No dialect recognises the document. -/
  | unknownDialect
  /-- A reference that points at nothing inside the document. -/
  | unresolvableReference (reference : String)
  /-- A reference that leads back to itself. -/
  | circularReference (reference : String)
  /-- A part of the document that is not built as the dialect demands. -/
  | invalidDocument (path message : String)
  /-- An object property whose name is empty. -/
  | emptyPropertyKey
  /-- A location that could not be read. -/
  | unreadable (location reason : String)
  /-- A location that could not be fetched. -/
  | unfetched (location reason : String)
  deriving DecidableEq, Repr

/-- The wording of a failure. -/
def Failure.message : Failure → String
  | .noSchema => "no input file, use --schema [url/file path] to provide one"
  | .unparsable => "schema is neither valid JSON (malformed text) nor valid YAML (malformed text)"
  | .unknownDialect => "unknown schema dialect: no registered adapter accepts this document"
  | .unresolvableReference reference =>
    "reference `" ++ reference ++ "` cannot be resolved inside the document"
  | .circularReference reference =>
    "reference `" ++ reference ++ "` points back to itself and cannot be inlined"
  | .invalidDocument path message => "invalid document at JSON path " ++ path ++ " → " ++ message
  | .emptyPropertyKey => "an object property has an empty name"
  | .unreadable location reason => "failed to read `" ++ location ++ "`: " ++ reason
  | .unfetched location reason => "failed to fetch `" ++ location ++ "`: " ++ reason

/-- What a run reports and carries on after. -/
inductive Warning where
  /-- A name that is declared again as something else. -/
  | alreadyDeclared (name : String)
  /-- A path item that refers to another one. -/
  | pathItemReference (url : String)
  /-- Overlapping alternatives that are read as exclusive ones. -/
  | overlappingBranches
  /-- A schema reference that points at nothing. -/
  | danglingReference (reference : String)
  /-- A named enumeration with values that cannot be constants of one. -/
  | unnameableValues (key : String)
  /-- An enumeration that holds lists or objects. -/
  | compositeValues
  /-- Properties that are not an object. -/
  | malformedProperties
  deriving DecidableEq, Repr

/-- The wording of a warning. -/
def Warning.message : Warning → String
  | .alreadyDeclared name =>
    "type `" ++ name ++ "` is already declared, keeping the first declaration"
  | .pathItemReference url =>
    "`$ref` on path item `" ++ url ++ "` is not supported, reading its inline operations only"
  | .overlappingBranches => "`anyOf` is read as `oneOf`; overlapping branches lose precision"
  | .danglingReference reference => "`" ++ reference ++ "` does not resolve, using `any`"
  | .unnameableValues key =>
    "enum `" ++ key ++ "` holds values other than strings and numbers, using its base type"
  | .compositeValues => "enum with composite values, using its base type"
  | .malformedProperties => "`properties` is not an object, using `any`"

end TypedClient
