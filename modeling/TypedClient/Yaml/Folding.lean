import TypedClient.Yaml.Spot

/-!
# Folded lines

Blanks inside a scalar are kept while the line goes on. Where it breaks, one
break folds into a space, and of several breaks the first is dropped.
-/

namespace TypedClient.Yaml

/-- A scalar that is being read. -/
structure Folding where
  /-- The text so far, backwards. -/
  text : List Char
  /-- Blanks that are kept if the line goes on, backwards. -/
  blanks : List Char
  /-- The first break, once there is one. -/
  firstBreak : Option Char
  /-- The breaks after the first, backwards. -/
  moreBreaks : List Char
  /-- Whether a line has ended since the last character. -/
  broken : Bool

namespace Folding

/-- Nothing read yet. -/
def start : Folding := ⟨[], [], none, [], false⟩

/-- Read a character that is part of the text. -/
def push (f : Folding) (c : Char) : Folding := { f with text := c :: f.text }

/-- Read a blank or a break. -/
def gap (f : Folding) (c : Char) : Folding :=
  if isBreak c then
    if f.broken then { f with moreBreaks := c :: f.moreBreaks }
    else { f with blanks := [], firstBreak := some c, broken := true }
  else if f.broken then f
  else { f with blanks := c :: f.blanks }

/-- Read the break after a backslash, which is dropped. -/
def escapedBreak (f : Folding) : Folding := { f with broken := true }

/-- The gap backwards as it appears in the text. -/
def folded (f : Folding) : List Char :=
  if f.broken then
    match f.firstBreak with
    | some '\n' => if f.moreBreaks.isEmpty then [' '] else f.moreBreaks
    | some c => f.moreBreaks ++ [c]
    | none => f.moreBreaks
  else f.blanks

/-- Put the gap into the text. -/
def join (f : Folding) : Folding := ⟨f.folded ++ f.text, [], none, [], false⟩

/-- The text that was read. -/
def result (f : Folding) : String := String.ofList f.text.reverse

end Folding

end TypedClient.Yaml
