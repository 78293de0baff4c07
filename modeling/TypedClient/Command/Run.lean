import TypedClient.Command.Arguments
import TypedClient.Command.Host
import TypedClient.Command.Location
import TypedClient.Command.Publish
import TypedClient.Files.Search
import TypedClient.Module.Generate

/-!
# A run of the command line

One module is made of each schema. All modules are made before the first is shown
or written, so that a schema of which none can be made leaves everything as it
was.
-/

namespace TypedClient.Command

/-- The name of the program and its version. -/
def programName : String := "schema2ts"

/-- The version of the program. -/
def programVersion : String := "0.1.0"

/-- The threshold when none is given. -/
def defaultThreshold : Nat := 20

variable {m : Type → Type} [Monad m]

/-- The text at a location. -/
def textAt (host : Host m) (location : String) : ExceptT Failure m String := do
  if Location.isAddress location then
    during (.unfetched location) (host.fetch location)
  else
    let read := if location = Location.standardInput then host.input else host.files.read location
    during (fun fault => .unreadable location fault.message) read

/-- The locations that one location stands for: the files of a pattern, and
anything else as it is. -/
def expand (host : Host m) (location : String) : ExceptT RunFailure m (List String) := do
  if Location.isFile location && Files.Pattern.isPattern location then
    match Files.Pattern.ofText location with
    | .error cause => throw (.invalidPattern location cause)
    | .ok pattern =>
      let paths ← during .search (pattern.search host.files).run
      if paths.isEmpty then throw (.unmatchedPattern location) else return paths
  else return [location]

/-- The locations that locations stand for, in order. -/
def expandAll (host : Host m) : List String → ExceptT RunFailure m (List String)
  | [] => return []
  | location :: rest => do
    let first ← expand host location
    let others ← expandAll host rest
    return first ++ others

/-- The path of the module for a schema: in the folder that was given, or the
file that was given, or in the working folder. -/
def targetOf (a : Arguments) (schema : String) : String :=
  let name := Location.fileName (Location.stem schema) a.declaration a.tsx
  match a.outPath, a.out with
  | some folder, _ => Files.Path.join folder name
  | none, some file => file
  | none, none => Files.Path.join "." name

/-- The targets of schemas in order, after schemas whose targets are `seen`. No
two schemas have one target. -/
def targetsFrom (a : Arguments) (seen : List (String × String)) :
    List String → Except RunFailure (List String)
  | [] => .ok []
  | schema :: rest =>
    let target := targetOf a schema
    match seen.lookup target with
    | some first => .error (.sharedTarget first schema target)
    | none => do return target :: (← targetsFrom a ((target, schema) :: seen) rest)

/-- The targets of schemas in order. -/
def targets (a : Arguments) (schemas : List String) : Except RunFailure (List String) :=
  targetsFrom a [] schemas

/-- How modules are made. -/
structure Recipe where
  /-- The text before the module. -/
  template : String
  /-- What the module is to be like. -/
  options : Module.Options
  /-- What the variables stand for. -/
  values : Module.Variables

/-- The module for the schema at a location. -/
def moduleAt (host : Host m) (recipe : Recipe) (location : String) :
    ExceptT Failure m String := do
  let text ← textAt host location
  let (result, warnings) :=
    Module.ofText text recipe.template recipe.options recipe.values
  warnings.forM fun w => host.warn w.message
  ExceptT.mk (pure result)

/-- The modules for schemas, in order. -/
def modulesAt (host : Host m) (recipe : Recipe) :
    List String → ExceptT RunFailure m (List String)
  | [] => return []
  | schema :: rest => do
    let first ← during (.generation schema) (moduleAt host recipe schema).run
    let others ← modulesAt host recipe rest
    return first :: others

/-- How the modules of a run are made. -/
def recipe (host : Host m) (a : Arguments) : ExceptT RunFailure m Recipe := do
  let template ← match a.template with
    | some location => during .template (textAt host location).run
    | none => pure (Module.bundledTemplate a.declaration)
  let time ← host.time
  return {
    template
    options := {
      declarationsOnly := a.declaration
      leadingComment := some (a.leadingComment.getD Module.bundledComment)
      dictionaryThreshold := a.dictionaryThreshold.getD defaultThreshold }
    values := ⟨programVersion, time, Module.languageVersion⟩ }

/-- Make the modules that updated arguments ask for, and show or write them. -/
def runUpdated (host : Host m) (a : Arguments) : ExceptT RunFailure m Unit := do
  let schemas ← expandAll host a.schemas
  if schemas.isEmpty then throw .noSchema
  if a.out.isSome && a.outPath.isNone && 1 < schemas.length then
    throw (.manyForOneFile schemas.length)
  let recipe ← recipe host a
  if a.noEmit then
    let modules ← modulesAt host recipe schemas
    modules.forM fun code => host.print (code ++ "\n")
  else
    let targets ← ExceptT.mk (pure (targets a schemas))
    let modules ← modulesAt host recipe schemas
    publish host.files (List.zipWith Publication.mk targets modules)
    (schemas.zip targets).forM fun (schema, target) =>
      host.report ("generated " ++ schema ++ " → " ++ target ++ "\n")

/-- Make the modules that arguments ask for, after naming the older words. -/
def run (host : Host m) (a : Arguments) : ExceptT RunFailure m Unit := do
  a.outdated.forM fun (old, new) =>
    host.report ("warning: " ++ old.text ++ " is deprecated, use " ++ new.text ++ " instead\n")
  runUpdated host a.updated

/-- The line that describes an option. -/
def helpLine (flag : Flag) : Option String :=
  flag.purpose?.map fun purpose =>
    let letter := (flag.letter?.map fun c => "-" ++ String.singleton c ++ ", ").getD "    "
    let values := match flag.arity with
      | .none => ""
      | .one => " <VALUE>"
      | .many => " <VALUE>..."
    "  " ++ letter ++ flag.text ++ values ++ "\n          " ++ purpose ++ "\n"

/-- What the options are. -/
def helpText : String :=
  "generate a typed TypeScript client from OpenAPI 2.0 (Swagger) documents\n\nUsage: " ++
    programName ++ " [OPTIONS]\n\nOptions:\n" ++ Text.joinWith "\n" (Flag.all.filterMap helpLine)

/-- Do what the arguments ask for. The answer is the exit status: 0 when all went
well, 1 when a run failed, and 2 when the arguments cannot be understood. -/
def execute (host : Host m) (arguments : List String) : m UInt32 := do
  match Request.ofArguments arguments with
  | .error e =>
    host.report ("error: " ++ e.message ++ "\n")
    return 2
  | .ok .help =>
    host.print helpText
    return 0
  | .ok .version =>
    host.print (programName ++ " " ++ programVersion ++ "\n")
    return 0
  | .ok (.generate a) =>
    match ← (run host a).run with
    | .ok _ => return 0
    | .error failure =>
      host.report ("error: " ++ failure.message ++ "\n")
      return 1

end TypedClient.Command
