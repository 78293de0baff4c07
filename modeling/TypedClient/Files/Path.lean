import TypedClient.Text.Lines
import TypedClient.Text.Split

/-!
# Paths

A path is a text of names with slashes between them. Empty names and single dots
say nothing, apart from a slash at the start, which stands for the root, and a
dot at the start, which stands for the working folder. What is left of a path is
kept as it was spelled.
-/

namespace TypedClient.Files.Path

/-- A part of a path between slashes. -/
abbrev Segment := List Char

/-- How many bytes a name may have. -/
def longestName : Nat := 255

/-- How many bytes a path may have. -/
def longest : Nat := 4095

/-- Whether a path has more bytes than a path may have. -/
def isTooLong (path : String) : Bool := longest < path.utf8ByteSize

/-- The parts of a path between slashes; there is always one. -/
def segments (path : String) : List Segment := Text.splitAt '/' path.toList

/-- A part that says nothing where it stands: an empty one or a single dot. -/
def isVoid (s : Segment) : Bool := s == [] || s == ['.']

/-- The path of parts. -/
def ofSegments (parts : List Segment) : String :=
  Text.joinWith "/" (parts.map String.ofList)

/-- Parts of a path, less those at the end that say nothing. -/
def trimVoid (parts : List Segment) : List Segment := (parts.reverse.dropWhile isVoid).reverse

/-- Where a path starts, and its parts from there. -/
structure Parts where
  /-- Whether the path starts at the root. -/
  rooted : Bool
  /-- Whether the path starts with a dot for the working folder. -/
  dotted : Bool
  /-- The parts after the start, less those at the end that say nothing. -/
  body : List Segment

/-- Take a path apart. -/
def parts (path : String) : Parts :=
  match segments path with
  | [] :: body@(_ :: _) => ⟨true, false, trimVoid body⟩
  | ['.'] :: body => ⟨false, true, trimVoid body⟩
  | body => ⟨false, false, trimVoid body⟩

/-- Whether a path starts at the root. -/
def isRooted (path : String) : Bool := (parts path).rooted

/-- Whether a path is the working folder, spelled with a dot. -/
def isHere (path : String) : Bool :=
  let p := parts path
  p.dotted && p.body.isEmpty

/-- The last name of a path, unless the path ends in a step up or has no name. -/
def name? (path : String) : Option Segment :=
  match (parts path).body.getLast? with
  | some name => if name = ['.', '.'] then none else some name
  | none => none

/-- The path of the folder that the last part of a path is in. The root is in no
folder, and neither is the empty path. -/
def parent? (path : String) : Option String :=
  let p := parts path
  if p.body.isEmpty then
    if p.dotted then some "" else none
  else
    let front := trimVoid p.body.dropLast
    if p.rooted then
      some (if front.isEmpty then "/" else ofSegments ([] :: front))
    else if p.dotted then some (ofSegments (['.'] :: front))
    else some (ofSegments front)

/-- A name without what comes after its last dot. A dot at the start of a name is
not its last one. -/
def stemOf (name : Segment) : Segment :=
  match name.reverse.span (· != '.') with
  | (_, _ :: before@(_ :: _)) => before.reverse
  | _ => name

/-- The path of something in a folder. -/
def join (folder name : String) : String :=
  if folder.isEmpty || folder.toList.getLast? == some '/' then folder ++ name
  else folder ++ "/" ++ name

end TypedClient.Files.Path
