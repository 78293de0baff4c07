import TypedClient.Text.Extender
import TypedClient.Text.Formless

/-!
# Visible quotation

A text between quotation marks in which every character can be told apart: the
quotation mark and the backslash are escaped, and so are characters that have no
appearance of their own. Those are the formless ones, the extending ones and the
fillers.
-/

namespace TypedClient.Text

/-- A letter that stands for a missing one and is ignored when texts are shown: a
letter with the Unicode property `Default_Ignorable_Code_Point`. -/
def isFiller (c : Char) : Bool :=
  c = '\u115f' || c = '\u1160' || c = '\u3164' || c = '\uffa0'

/-- Whether a character has no appearance of its own. -/
def isInvisible (c : Char) : Bool := isFormless c || isExtender c || isFiller c

/-- The spelling of a character between quotation marks. -/
def visible (c : Char) : List Char :=
  if c = '"' then ['\\', '"']
  else if c = '\\' then ['\\', '\\']
  else if c = '\n' then ['\\', 'n']
  else if c = '\r' then ['\\', 'r']
  else if c = '\t' then ['\\', 't']
  else if c.toNat = 0 then ['\\', '0']
  else if isInvisible c then
    ['\\', 'u', '\x7b'] ++ Nat.toDigits 16 c.toNat ++ ['\x7d']
  else [c]

/-- The text between quotation marks with every character visible. -/
def visiblyQuoted (text : String) : String :=
  String.ofList ('"' :: text.toList.flatMap visible ++ ['"'])

end TypedClient.Text
