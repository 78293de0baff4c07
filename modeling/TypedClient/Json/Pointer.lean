import TypedClient.Json.Basic
import TypedClient.Number.Unsigned
import TypedClient.Text.Replace
import TypedClient.Text.Split

/-!
# Pointers into a document

A pointer is a list of keys, each written after a slash, with `~` written `~0`
and `/` written `~1`. In a list a key is an index in decimal without a sign and
without leading zeros.
-/

namespace TypedClient.Json

/-- Read one key of a pointer: `~1` is a slash, then `~0` is a tilde. -/
def unescapeKey (key : List Char) : List Char :=
  Text.replaceAll ['~', '0'] ['~'] (Text.replaceAll ['~', '1'] ['/'] key)

/-- Write one key of a pointer. -/
def escapeKey (key : List Char) : List Char :=
  Text.replaceAll ['/'] ['~', '1'] (Text.replaceAll ['~'] ['~', '0'] key)

/-- Read the index of a list element. -/
def index? (key : List Char) : Option Nat :=
  match key with
  | [] => none
  | ['0'] => some 0
  | '0' :: _ => none
  | digits => if digits.all Char.isDigit then some (digitsValue digits) else none

/-- One step down: a member of an object or an element of a list. -/
def child? (value : Json) (key : List Char) : Option Json :=
  match value with
  | .object members => find? (String.ofList key) members
  | .array elements => (index? key).bind (fun i => elements[i]?)
  | _ => none

/-- Follow a list of keys downwards. -/
def descend? (value : Json) : List (List Char) → Option Json
  | [] => some value
  | key :: keys => (value.child? key).bind (descend? · keys)

/-- What a pointer points at. The empty pointer is the whole value, and any
other pointer starts with a slash. -/
def pointer? (value : Json) (pointer : List Char) : Option Json :=
  match pointer with
  | [] => some value
  | '/' :: rest => value.descend? ((Text.splitAt '/' rest).map unescapeKey)
  | _ => none

end TypedClient.Json
