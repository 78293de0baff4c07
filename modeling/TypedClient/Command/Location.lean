import TypedClient.Files.Pattern

/-!
# Locations

Where a schema or a template is: an address, the standard input, or the path of
a file. The name of the module that is made of a schema comes from its location.
-/

namespace TypedClient.Command.Location

/-- The location of the standard input. -/
def standardInput : String := "-"

/-- Whether a location is an address. -/
def isAddress (location : String) : Bool :=
  "http://".toList.isPrefixOf location.toList || "https://".toList.isPrefixOf location.toList

/-- Whether a location is that of files, and may be a pattern. -/
def isFile (location : String) : Bool := !isAddress location && location != standardInput

/-- The name for a schema whose location has no name. -/
def defaultStem : String := "schema"

/-- A location less the slashes at its end. -/
def trimSlashes (location : List Char) : List Char :=
  (location.reverse.dropWhile (· == '/')).reverse

/-- The name for a schema: the last name of its location without its extension.
What comes after a question mark or a number sign is no part of the name. -/
def stem (location : String) : String :=
  if location = standardInput then defaultStem
  else
    let path := trimSlashes (location.toList.takeWhile fun c => c != '?' && c != '#')
    match Files.Path.name? (String.ofList path) with
    | some name => String.ofList (Files.Path.stemOf name)
    | none => defaultStem

/-- The name of the file for a module. -/
def fileName (stem : String) (declaration tsx : Bool) : String :=
  stem ++ (if declaration then ".d" else "") ++ ".ts" ++ (if tsx then "x" else "")

end TypedClient.Command.Location
