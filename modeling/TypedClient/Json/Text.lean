import TypedClient.Json.Basic
import TypedClient.Text.Lines

/-!
# Compact text

The spelling of a value without any blanks between its parts, members in their
own order. In a string only the quotation mark, the backslash and characters
below U+0020 are escaped; all others stand for themselves.
-/

namespace TypedClient.Json

/-- The spelling of a character inside quotation marks. -/
def escaped (c : Char) : List Char :=
  if c = '"' then ['\\', '"']
  else if c = '\\' then ['\\', '\\']
  else if c = '\x08' then ['\\', 'b']
  else if c = '\x0c' then ['\\', 'f']
  else if c = '\n' then ['\\', 'n']
  else if c = '\r' then ['\\', 'r']
  else if c = '\t' then ['\\', 't']
  else if c.toNat < 0x20 then
    ['\\', 'u', '0', '0', Nat.digitChar (c.toNat / 16), Nat.digitChar (c.toNat % 16)]
  else [c]

/-- The spelling of a text: quotation marks around its escaped characters. -/
def quoted (text : String) : String :=
  String.ofList ('"' :: text.toList.flatMap escaped ++ ['"'])

mutual

/-- The compact text of a value. -/
def compact : Json → String
  | .null => "null"
  | .bool true => "true"
  | .bool false => "false"
  | .number n => n.text
  | .string text => quoted text
  | .array elements => "[" ++ Text.joinWith "," (compactElements elements) ++ "]"
  | .object members => "\x7b" ++ Text.joinWith "," (compactMembers members) ++ "\x7d"

/-- The compact texts of the elements of a list. -/
def compactElements : List Json → List String
  | [] => []
  | value :: rest => compact value :: compactElements rest

/-- The compact texts of the members of an object. -/
def compactMembers : List (String × Json) → List String
  | [] => []
  | (key, value) :: rest => (quoted key ++ ":" ++ compact value) :: compactMembers rest

end

end TypedClient.Json
