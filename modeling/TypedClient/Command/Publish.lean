import TypedClient.Command.Failure
import TypedClient.Files.Access
import TypedClient.Files.Path

/-!
# Publishing modules

Modules are first written beside their targets and then given the names of their
targets. When one cannot be written beside its target, those that were are
removed, and no target is touched.
-/

namespace TypedClient.Command

/-- A module and where it goes. -/
structure Publication where
  /-- The path of the file. -/
  target : String
  /-- The text of the module. -/
  code : String
  deriving DecidableEq, Repr

/-- The path of the file beside a target. -/
def stagedPath (target : String) : String := target ++ ".partial"

variable {m : Type → Type} [Monad m]

/-- Do something and look at how it went. -/
def attempt {ε δ α : Type} (action : m (Except ε α)) : ExceptT δ m (Except ε α) :=
  ExceptT.lift action

/-- Name what was being done when something went wrong. -/
def during {ε δ α : Type} (context : ε → δ) (action : m (Except ε α)) : ExceptT δ m α := do
  match ← attempt action with
  | .ok a => return a
  | .error e => throw (context e)

/-- Make a folder, and the folders that it is in as far as they are missing. The
level bounds the number of those folders; it is the length of the path at first,
and the path of the folder that something is in is shorter. -/
def makeFoldersWithin (files : Files.Access m) : Nat → String → ExceptT Files.Fault m Unit
  | 0, _ => return
  | level + 1, path => do
    if path.isEmpty then return
    let again : ExceptT Files.Fault m Unit := do
      match ← attempt (files.makeFolder path) with
      | .ok _ => return
      | .error fault => if ← files.isFolder path then return else throw fault
    match ← attempt (files.makeFolder path) with
    | .ok _ => return
    | .error fault =>
      if fault = .notFound then
        match Files.Path.parent? path with
        | some parent =>
          makeFoldersWithin files level parent
          again
        | none => throw fault
      else if ← files.isFolder path then return
      else throw fault

/-- Make a folder, and the folders that it is in as far as they are missing. -/
def makeFolders (files : Files.Access m) (path : String) : ExceptT Files.Fault m Unit :=
  makeFoldersWithin files (path.length + 1) path

/-- Write a module beside its target. -/
def stage (files : Files.Access m) (p : Publication) : ExceptT RunFailure m Unit := do
  match Files.Path.parent? p.target with
  | some folder => during (.folder folder) (makeFolders files folder).run
  | none => pure ()
  during (.file (stagedPath p.target)) (files.write (stagedPath p.target) p.code)

/-- Remove files. Whether they could be removed does not matter. -/
def removeAll (files : Files.Access m) : List String → m Unit
  | [] => return
  | path :: rest => do
    let _ ← files.remove path
    removeAll files rest

/-- Write modules beside their targets, after those of the targets in `done`. If
one cannot be written, those before are removed. -/
def stageAll (files : Files.Access m) (done : List String) :
    List Publication → ExceptT RunFailure m Unit
  | [] => return
  | p :: rest => do
    match ← attempt (stage files p).run with
    | .ok _ => stageAll files (done ++ [stagedPath p.target]) rest
    | .error failure =>
      ExceptT.lift (removeAll files done)
      throw failure

/-- Give the modules beside the targets the names of their targets. -/
def renameAll (files : Files.Access m) : List Publication → ExceptT RunFailure m Unit
  | [] => return
  | p :: rest => do
    during (.file p.target) (files.rename (stagedPath p.target) p.target)
    renameAll files rest

/-- Write all modules to their targets. -/
def publish (files : Files.Access m) (publications : List Publication) :
    ExceptT RunFailure m Unit := do
  stageAll files [] publications
  renameAll files publications

end TypedClient.Command
