import TypedClient.Files.Access
import TypedClient.Files.Node
import TypedClient.Files.Path

/-!
# A disk in memory

Folders and files below a root. A path leads from the working folder, or from the
root, to a position one part at a time, and each step but the last has to end in a
folder. A position knows the folders it is in, so a step up needs no search.
-/

namespace TypedClient.Files

/-- A node, and how it is reached from the root. -/
structure Position where
  /-- What is there. -/
  node : Node
  /-- The folders it is in, the innermost first, each with the name that leads on. -/
  trail : List (String × Node)

namespace Position

/-- The names that lead to a position. -/
def place (p : Position) : Place := (p.trail.map Prod.fst).reverse

/-- The folder that a position is in. The root is taken to be in itself. -/
def up (p : Position) : Position :=
  match p.trail with
  | [] => p
  | (_, folder) :: trail => ⟨folder, trail⟩

/-- What has a name at a position. -/
def down? (p : Position) (name : String) : Option Position :=
  (p.node.child? name).map fun child => ⟨child, (name, p.node) :: p.trail⟩

/-- The position that parts of a path lead to. -/
def walk : Position → List Path.Segment → Except Fault Position
  | p, [] => .ok p
  | p, part :: rest =>
    if p.node.isFolder then
      if Path.isVoid part then walk p rest
      else if part = ['.', '.'] then walk p.up rest
      else
        let name := String.ofList part
        if Path.longestName < name.utf8ByteSize then .error .nameTooLong
        else
          match p.down? name with
          | some next => walk next rest
          | none => .error .notFound
    else .error .notFolder

/-- A step down adds its name to the place. -/
theorem place_down? {p next : Position} {name : String} (h : p.down? name = some next) :
    next.place = p.place ++ [name] := by
  obtain ⟨child, _, rfl⟩ := Option.map_eq_some_iff.1 h
  simp [place]

/-- A step up leads back from a step down. -/
theorem up_down? {p next : Position} {name : String} (h : p.down? name = some next) :
    next.up = p := by
  obtain ⟨child, _, rfl⟩ := Option.map_eq_some_iff.1 h
  rfl

end Position

/-- Folders and files in memory. -/
structure Disk where
  /-- The working folder. -/
  here : Place
  /-- What is at the root. -/
  root : Node

namespace Disk

/-- What is at a place. -/
def node? (disk : Disk) (place : Place) : Option Node := disk.root.find? place

/-- The text of the file at a place. -/
def text? (disk : Disk) (place : Place) : Option String :=
  match disk.node? place with
  | some (.file text) => some text
  | _ => none

/-- Put something at a place. -/
def put (disk : Disk) (place : Place) (node : Node) : Disk :=
  { disk with root := disk.root.put place node }

/-- Take away what is at a place. -/
def erase (disk : Disk) (place : Place) : Disk := { disk with root := disk.root.erase place }

/-- Where a path starts. Neither a path that is too long nor the empty path leads
anywhere. -/
def start (disk : Disk) (path : String) : Except Fault Position :=
  if Path.isTooLong path then .error .nameTooLong
  else if path.isEmpty then .error .notFound
  else if Path.isRooted path then .ok ⟨disk.root, []⟩
  else Position.walk ⟨disk.root, []⟩ (disk.here.map String.toList)

/-- The position that a path leads to, if there is something. -/
def locate (disk : Disk) (path : String) : Except Fault Position :=
  (disk.start path).bind fun p => p.walk (Path.segments path)

/-- Where the last part of a path would be: the folder it would be in, and its
name unless the path ends in a dot, a step up or the root. The flag says whether
slashes follow the name. -/
def lastStep (disk : Disk) (path : String) : Except Fault (Position × Option String × Bool) := do
  let start ← disk.start path
  let parts := (Path.segments path).reverse
  let trailing := parts.takeWhile (· == [])
  match parts.dropWhile (· == []) with
  | [] => return (start, none, false)
  | last :: front =>
    let folder ← start.walk (front.reverse ++ [[]])
    if last == ['.'] || last == ['.', '.'] then return (folder, none, !trailing.isEmpty)
    else if Path.longestName < (String.ofList last).utf8ByteSize then .error .nameTooLong
    else return (folder, some (String.ofList last), !trailing.isEmpty)

/-- The text of a file. -/
def read (disk : Disk) (path : String) : Except Fault String := do
  match (← disk.locate path).node with
  | .file text => return text
  | .folder _ => .error .isFolder

/-- Whether there is anything at a path. -/
def reaches (disk : Disk) (path : String) : Bool := (disk.locate path).isOk

/-- Whether there is a folder at a path. -/
def isFolder (disk : Disk) (path : String) : Bool :=
  match disk.locate path with
  | .ok p => p.node.isFolder
  | .error _ => false

/-- The names of what is in a folder. -/
def list (disk : Disk) (path : String) : Except Fault (List String) := do
  match (← disk.locate path).node with
  | .folder entries => return entries.map Prod.fst
  | .file _ => .error .notFolder

/-- Make one folder. -/
def makeFolder (disk : Disk) (path : String) : Except Fault Disk := do
  match ← disk.lastStep path with
  | (_, none, _) => .error .occupied
  | (folder, some name, _) =>
    if (folder.node.child? name).isSome then .error .occupied
    else return disk.put (folder.place ++ [name]) .emptyFolder

/-- Write a file. -/
def write (disk : Disk) (path text : String) : Except Fault Disk := do
  match ← disk.lastStep path with
  | (_, none, _) | (_, some _, true) => .error .isFolder
  | (folder, some name, false) =>
    if (folder.node.child? name).any Node.isFolder then .error .isFolder
    else return disk.put (folder.place ++ [name]) (.file text)

/-- Give a file another path. -/
def rename (disk : Disk) (old new : String) : Except Fault Disk := do
  let source ← disk.lastStep old
  let target ← disk.lastStep new
  match source, target with
  | (_, none, _), _ | _, (_, none, _) => .error .busy
  | (fromFolder, some fromName, fromSlash), (toFolder, some toName, toSlash) =>
    match fromFolder.node.child? fromName with
    | none => .error .notFound
    | some (.folder _) => .error .isFolder
    | some (.file text) =>
      if fromSlash || toSlash then .error .notFolder
      else if (toFolder.node.child? toName).any Node.isFolder then .error .isFolder
      else
        return (disk.erase (fromFolder.place ++ [fromName])).put (toFolder.place ++ [toName])
          (.file text)

/-- Remove a file. -/
def remove (disk : Disk) (path : String) : Except Fault Disk := do
  match ← disk.lastStep path with
  | (_, none, _) => .error .isFolder
  | (folder, some name, slash) =>
    match folder.node.child? name with
    | none => .error .notFound
    | some (.folder _) => .error .isFolder
    | some (.file _) =>
      if slash then .error .notFolder else return disk.erase (folder.place ++ [name])

/-- All files, by place. -/
def files (disk : Disk) : List (Place × String) := disk.root.files

/-- What was put at a place is found there. -/
theorem node?_put_self (disk : Disk) (place : Place) (node : Node) :
    (disk.put place node).node? place = some node :=
  disk.root.find?_put_self place node

/-- Putting something at a place leaves alone what is neither inside nor above it. -/
theorem node?_put_of_apart (disk : Disk) {place other : Place} (node : Node)
    (hin : ¬place <+: other) (hup : ¬other <+: place) :
    (disk.put place node).node? other = disk.node? other :=
  disk.root.find?_put_of_apart node hin hup

/-- Erasing a place leaves alone what is neither inside nor above it. -/
theorem node?_erase_of_apart (disk : Disk) {place other : Place}
    (hin : ¬place <+: other) (hup : ¬other <+: place) :
    (disk.erase place).node? other = disk.node? other :=
  disk.root.find?_erase_of_apart hin hup

end Disk

end TypedClient.Files
