import TypedClient.Dialect
import TypedClient.Document.Source
import TypedClient.Module.Builder
import TypedClient.Module.Template
import TypedClient.TypeScript.Print

/-!
# Generating a module

From a document to the text of a module: the dialect says what the document
describes, the module is built and printed below its template, and the variables
are filled in. Of several constants or declarations with one name the first is
printed.
-/

namespace TypedClient.Module

open TypeScript

/-- The constants that are printed. -/
def Builder.printedConstants (b : Builder) : List Constant := firstByName Constant.name b.constants

/-- The declarations that are printed. -/
def Builder.printedDeclarations (b : Builder) : List Declaration :=
  firstByName Declaration.name b.declarations

/-- The text of a module: comment, template, constants, declarations. -/
def Builder.text (b : Builder) (template : String) (options : Options) : String :=
  let ambient := options.declarationsOnly
  (match options.leadingComment with
    | some comment => comment ++ "\n"
    | none => "") ++
  template ++ "\n" ++
    Text.joinWith "\n" (b.printedConstants.map (Constant.text ambient)) ++ "\n" ++
    Text.joinWith "\n" (b.printedDeclarations.map (Declaration.text ambient)) ++ "\n"

/-- The text of the module for a service. -/
def ofApi (api : Api) (template : String) (options : Options) :
    Except Failure String × List Warning :=
  match build api options with
  | (.ok b, warnings) => (.ok (b.text template options), warnings)
  | (.error e, warnings) => (.error e, warnings)

/-- The text of the module for a document, in the first of some dialects that
recognises it. -/
def ofDocument (dialects : List Dialect) (document : Json) (template : String) (options : Options)
    (values : Variables) : Except Failure String × List Warning :=
  match Dialect.readWith dialects document with
  | (.error e, warnings) => (.error e, warnings)
  | (.ok api, warnings) =>
    let (result, more) := ofApi api template options
    (result.map values.fillIn, warnings ++ more)

/-- The text of the module for the text of a document. A blank text holds no
document. -/
def ofText (text template : String) (options : Options) (values : Variables) :
    Except Failure String × List Warning :=
  if Text.isAllBlank text.toList then (.error .noSchema, [])
  else
    match Document.ofText text with
    | .ok document => ofDocument Dialect.known document template options values
    | .error e => (.error e, [])

end TypedClient.Module
