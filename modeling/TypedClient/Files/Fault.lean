/-!
# Faults of a file system

What can go wrong with one operation on files: a number by which the system tells
its faults apart, and its wording.
-/

namespace TypedClient.Files

/-- Why an operation on files failed. -/
structure Fault where
  /-- The number of the fault. -/
  code : Nat
  /-- What the system calls it. -/
  text : String
  deriving DecidableEq, Repr

namespace Fault

/-- A part of the path does not exist. -/
def notFound : Fault := ⟨2, "No such file or directory"⟩

/-- The path is in use by a folder that may not be replaced. -/
def busy : Fault := ⟨16, "Device or resource busy"⟩

/-- Something is there already. -/
def occupied : Fault := ⟨17, "File exists"⟩

/-- A file stands where a folder is needed. -/
def notFolder : Fault := ⟨20, "Not a directory"⟩

/-- A folder stands where a file is needed. -/
def isFolder : Fault := ⟨21, "Is a directory"⟩

/-- A name is longer than names may be. -/
def nameTooLong : Fault := ⟨36, "File name too long"⟩

/-- The faults that have names here. -/
def named : List Fault := [notFound, busy, occupied, notFolder, isFolder, nameTooLong]

/-- The fault with a number, which is called `text` if it has no name here. -/
def ofCode (code : Nat) (text : String) : Fault :=
  (named.find? (·.code == code)).getD ⟨code, text⟩

/-- The wording of a fault. -/
def message (fault : Fault) : String :=
  fault.text ++ " (os error " ++ toString fault.code ++ ")"

end Fault

end TypedClient.Files
