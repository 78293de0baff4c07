import TypedClient.Command.Host
import TypedClient.Files.Disk

/-!
# A session in memory

A disk, an input and the texts that were shown: a host whose effects are plain
data. There is no network, and the clock stands still.
-/

namespace TypedClient.Command

/-- Everything that a run in memory can see or change. -/
structure Session where
  /-- The files. -/
  disk : Files.Disk
  /-- What is left of the standard input. -/
  input : String := ""
  /-- The time. -/
  time : String := "1970-01-01T00:00:00Z"
  /-- What was written to the standard output. -/
  output : String := ""
  /-- What was written to the standard error. -/
  reports : String := ""
  /-- What was degraded, in order. -/
  warnings : List String := []

namespace Session

/-- Look at the disk. -/
def look {α : Type} (view : Files.Disk → α) : StateM Session α := fun s => (view s.disk, s)

/-- Change the disk, unless the change fails. -/
def change (step : Files.Disk → Except Files.Fault Files.Disk) :
    StateM Session (Except Files.Fault Unit) := fun s =>
  match step s.disk with
  | .ok disk => (.ok (), { s with disk })
  | .error fault => (.error fault, s)

/-- Access to the files of the disk. -/
def files : Files.Access (StateM Session) where
  read path := look (·.read path)
  reaches path := look (·.reaches path)
  isFolder path := look (·.isFolder path)
  list path := look (·.list path)
  makeFolder path := change (·.makeFolder path)
  write path text := change (·.write path text)
  rename old new := change (·.rename old new)
  remove path := change (·.remove path)

/-- A session as a host. -/
def host : Host (StateM Session) where
  files := files
  input := fun s => (.ok s.input, { s with input := "" })
  fetch _ := fun s => (.error "there is no network", s)
  time := fun s => (s.time, s)
  print text := fun s => ((), { s with output := s.output ++ text })
  report text := fun s => ((), { s with reports := s.reports ++ text })
  warn text := fun s => ((), { s with warnings := s.warnings ++ [text] })

end Session

end TypedClient.Command
