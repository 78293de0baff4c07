import Std.Time.DateTime.Timestamp
import TypedClient.Command.Clock
import TypedClient.Command.Run

/-!
# The program

The command line on the files, the input and the clock of a machine.
-/

namespace TypedClient.Command.Machine

/-- The number of a fault, which some operations give as a negative number of 32
bits. -/
def codeOf (code : UInt32) : Nat :=
  if code.toNat < Nat.pow 2 31 then code.toNat else Nat.pow 2 32 - code.toNat

/-- What an error says about files. -/
def faultOf : IO.Error → Files.Fault
  | .alreadyExists _ code text | .otherError code text | .resourceBusy code text
  | .resourceVanished code text | .unsupportedOperation code text | .hardwareFault code text
  | .unsatisfiedConstraints code text | .illegalOperation code text | .protocolError code text
  | .timeExpired code text | .interrupted _ code text | .noFileOrDirectory _ code text
  | .invalidArgument _ code text | .permissionDenied _ code text
  | .resourceExhausted _ code text | .inappropriateType _ code text
  | .noSuchThing _ code text => .ofCode (codeOf code) text
  | .unexpectedEof => ⟨5, "Input/output error"⟩
  | .userError text => ⟨22, text⟩

/-- An action, with what went wrong in it as a fault. -/
def guarded {α : Type} (action : IO α) : IO (Except Files.Fault α) := do
  try return .ok (← action)
  catch e => return .error (faultOf e)

/-- Whether an action on a path answers yes; it does not when it fails, nor when the
path is too long. -/
def holds (path : String) (action : IO Bool) : IO Bool := do
  if Files.Path.isTooLong path then return false
  else
    try action
    catch _ => return false

/-- The files of the machine. -/
def files : Files.Access IO where
  read path := guarded (IO.FS.readFile path)
  reaches path := holds path do
    let _ ← IO.FS.realPath path
    return true
  isFolder path := holds path do (← IO.FS.realPath path).isDir
  list path := guarded do return ((← (← IO.FS.realPath path).readDir).map (·.fileName)).toList
  makeFolder path := guarded (IO.FS.createDir path)
  write path text := guarded (IO.FS.writeFile path text)
  rename old new := guarded (IO.FS.rename old new)
  remove path := guarded (IO.FS.removeFile path)

/-- What is left of a stream. -/
partial def readRest (stream : IO.FS.Stream) (text : String) : IO String := do
  let line ← stream.getLine
  if line.isEmpty then return text else readRest stream (text ++ line)

/-- The machine as a host. It reaches no network. -/
def host : Host IO where
  files := files
  input := guarded do readRest (← IO.getStdin) ""
  fetch _ := return .error "there is no network"
  time := return timestamp (← Std.Time.Timestamp.now).toSecondsSinceUnixEpoch.val.toNat
  print text := IO.print text
  report text := IO.eprint text
  warn text := IO.eprintln ("warning: " ++ text)

end TypedClient.Command.Machine

/-- Run the program on its arguments. -/
def main (arguments : List String) : IO UInt32 :=
  TypedClient.Command.execute TypedClient.Command.Machine.host arguments
