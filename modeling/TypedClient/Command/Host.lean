import TypedClient.Files.Access

/-!
# What a run works on

Everything outside the program, over any effect: files, the standard input, the
network, the clock, and the places where text is shown.
-/

namespace TypedClient.Command

/-- What a run works on. -/
structure Host (m : Type → Type) where
  /-- The files. -/
  files : Files.Access m
  /-- What is left of the standard input. -/
  input : m (Except Files.Fault String)
  /-- The text at an address, or why there is none. -/
  fetch : String → m (Except String String)
  /-- The time, as it is written in comments. -/
  time : m String
  /-- Write a text to the standard output. -/
  print : String → m Unit
  /-- Write a text to the standard error. -/
  report : String → m Unit
  /-- Take note of what is degraded. -/
  warn : String → m Unit

end TypedClient.Command
