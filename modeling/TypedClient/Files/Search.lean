import TypedClient.Files.Access
import TypedClient.Files.Pattern

/-!
# Searching for a pattern

The paths that a pattern stands for, folder by folder and by name inside each. A
folder comes before what is inside it. Each step goes one part further in the
pattern or one folder deeper, so the level that counts down bounds both; folders
are never nested as deep as it allows, because no path is long enough for that.
-/

namespace TypedClient.Files

/-- How deeply folders may be nested: each takes at least two bytes of a path, one for
its name and one for the slash behind it. -/
def deepestNesting : Nat := Path.longest / 2 + 1

/-- A folder whose names could not be listed. -/
structure Unlisted where
  /-- The path of the folder. -/
  path : String
  /-- Why it could not be listed. -/
  fault : Fault
  deriving DecidableEq, Repr

/-- The wording of what went wrong with a folder. -/
def Unlisted.message (u : Unlisted) : String :=
  "attempting to read `" ++ u.path ++ "` resulted in an error: " ++ u.fault.message

namespace Pattern

variable {m : Type → Type} [Monad m]

/-- The paths found for one after another, in order. -/
def collect {α : Type} (find : α → ExceptT Unlisted m (List String)) :
    List α → ExceptT Unlisted m (List String)
  | [] => return []
  | a :: rest => do
    let first ← find a
    let others ← collect find rest
    return first ++ others

/-- The steps that stay in a folder or leave it upwards. They are only tried for
a part that asks for a dot. -/
def dotSteps (part : PatternPart) : List String :=
  if part.startsWithDot then ["..", "."].filter part.accepts else []

/-- The path of something in a folder. The working folder is left out. -/
def step (path name : String) : String := if Path.isHere path then name else Path.join path name

/-- The paths for the parts of a pattern, from a path on. -/
def searchWithin (files : Access m) (onlyFolders : Bool) :
    Nat → List PatternPart → String → ExceptT Unlisted m (List String)
  | 0, _, _ => return []
  | level + 1, parts, path => do
    let search := searchWithin files onlyFolders level
    let isFolder ← files.isFolder path
    match parts with
    | [] => return if onlyFolders && !isFolder then [] else [path]
    | .name text :: rest =>
      let next := step path text
      let found ← if text = "." || text = ".." then pure isFolder else files.reaches next
      if found then search rest next else return []
    | part :: rest =>
      if isFolder then
        let names ← ExceptT.mk (Except.mapError (Unlisted.mk path) <$> files.list path)
        let dots ← collect (fun dot => search rest (Path.join path dot)) (dotSteps part)
        let others ← collect (fun name => visit search part rest (step path name) name)
          (names.mergeSort (· ≤ ·))
        return dots ++ others
      else return []
where
  /-- The paths for a part and the rest of a pattern, at a path with a name. -/
  visit (search : List PatternPart → String → ExceptT Unlisted m (List String)) (part : PatternPart)
      (rest : List PatternPart) (path name : String) : ExceptT Unlisted m (List String) := do
    if part.isFolders then
      let rest := rest.dropWhile PatternPart.isFolders
      let isFolder ← files.isFolder path
      let own ← match rest with
        | [] => pure (if isFolder then [path] else [])
        | next :: rest => if next.accepts name then search rest path else pure []
      let inside ← if isFolder then search (.folders :: rest) path else pure []
      return own ++ inside
    else if part.accepts name then search rest path
    else return []

/-- The paths that a pattern stands for. -/
def search (files : Access m) (pattern : Pattern) : ExceptT Unlisted m (List String) :=
  searchWithin files pattern.onlyFolders (pattern.parts.length + deepestNesting) pattern.parts
    (if pattern.rooted then "/" else ".")

end Pattern

end TypedClient.Files
