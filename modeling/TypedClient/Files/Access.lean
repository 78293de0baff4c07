import TypedClient.Files.Fault

/-!
# Access to files

The operations on files that the command line needs, over any effect: the files
of a machine, or a disk in memory.
-/

namespace TypedClient.Files

/-- Operations on files. -/
structure Access (m : Type → Type) where
  /-- The text of a file. -/
  read : String → m (Except Fault String)
  /-- Whether there is anything at a path. -/
  reaches : String → m Bool
  /-- Whether there is a folder at a path. -/
  isFolder : String → m Bool
  /-- The names of what is in a folder, in any order. -/
  list : String → m (Except Fault (List String))
  /-- Make one folder in a folder that exists. -/
  makeFolder : String → m (Except Fault Unit)
  /-- Write a file, whether it exists or not. -/
  write : String → String → m (Except Fault Unit)
  /-- Give a file another path, replacing the file that is there. -/
  rename : String → String → m (Except Fault Unit)
  /-- Remove a file. -/
  remove : String → m (Except Fault Unit)

end TypedClient.Files
