import TypedClient.Json.Token
import TypedClient.Yaml.Spot

/-!
# Tags

A tag is a string of octets. It is written in full between angle brackets, or as a
handle, which stands for the octets it starts with, and a suffix. A character may
be written as escapes, one for each of its octets; how many they are is checked,
but not whether there is a character for them. A null octet ends a tag or a part
of one, and what is written behind it does not count.
-/

namespace TypedClient.Yaml

/-- The octets of a tag, or of a part of one. -/
abbrev Tag := List UInt8

namespace Tag

/-- The tag that a text is. -/
def ofText (text : String) : Tag := text.toUTF8.data.toList

/-- The part of a tag that counts: what is in front of the first null octet. -/
def untilNull (tag : Tag) : Tag := tag.takeWhile (· != 0)

/-- The octet of an exclamation mark. -/
def mark : UInt8 := 0x21

/-- What the tags of the standard set start with. -/
def standardStem : Tag := ofText "tag:yaml.org,2002:"

/-- The tag of the standard set with the given name. -/
def standard (name : String) : Tag := standardStem ++ ofText name

/-- Whether a tag starts with an exclamation mark. -/
def isMarked (tag : Tag) : Bool := tag.head? == some mark

/-- Whether a tag is one of the document's own: an exclamation mark, and behind it
octets that are the encoding of a text. -/
def isOwn (tag : Tag) : Bool :=
  tag.isMarked && ByteArray.validateUTF8 ⟨(tag.drop 1).toArray⟩

/-! ### Reading -/

/-- A character of a tag. All of them are ASCII, so each is one octet. -/
def isTagChar (bracketed : Bool) (c : Char) : Bool :=
  isWordChar c || c = ';' || c = '/' || c = '?' || c = ':' || c = '@' || c = '&' || c = '=' ||
    c = '+' || c = '$' || c = '.' || c = '!' || c = '~' || c = '*' || c = '\'' || c = '(' ||
    c = ')' || (bracketed && (c = ',' || c = '[' || c = ']'))

/-- The octet that an escape stands for. -/
def readOctet (text : List Spot) : Option UInt8 :=
  if ahead 0 text = '%' then (Json.hexValue? [ahead 1 text, ahead 2 text]).map UInt8.ofNat
  else none

/-- How many octets a character has that starts with the given one. -/
def octetCount (octet : UInt8) : Option Nat :=
  if octet < 0x80 then some 1
  else if 0xC0 ≤ octet && octet < 0xE0 then some 2
  else if 0xE0 ≤ octet && octet < 0xF0 then some 3
  else if 0xF0 ≤ octet && octet < 0xF8 then some 4
  else none

/-- Whether an octet continues a character. -/
def isContinuation (octet : UInt8) : Bool := 0x80 ≤ octet && octet < 0xC0

/-- Read the escapes of `count` octets that continue a character. -/
def readContinuation : Nat → List Spot → Option Tag
  | 0, _ => some []
  | count + 1, text =>
    (readOctet text).bind fun octet =>
      if isContinuation octet then (readContinuation count (text.drop 3)).map (octet :: ·)
      else none

/-- Read the octets of an escaped character. Each takes three spots. -/
def readEscapes (text : List Spot) : Option Tag := do
  let first ← readOctet text
  let count ← octetCount first
  let others ← readContinuation (count - 1) (text.drop 3)
  return first :: others

/-- Read the characters of a tag; `skip` spots belong to escapes that have been
read. -/
def readChars (bracketed : Bool) : Nat → List Spot → Option (Tag × List Spot)
  | _, [] => some ([], [])
  | skip + 1, _ :: rest => readChars bracketed skip rest
  | 0, s :: rest =>
    if s.char = '%' then
      match readEscapes (s :: rest) with
      | some octets =>
        (readChars bracketed (3 * octets.length - 1) rest).map fun (tag, after) =>
          (octets ++ tag, after)
      | none => none
    else if isTagChar bracketed s.char then
      (readChars bracketed 0 rest).map fun (tag, after) =>
        (UInt8.ofNat s.char.toNat :: tag, after)
    else some ([], s :: rest)

/-- Read a part of a tag that may not be left out. -/
def readPart (bracketed : Bool) (text : List Spot) : Option (Tag × List Spot) := do
  let (part, rest) ← readChars bracketed 0 text
  if part.isEmpty then none else return (part.untilNull, rest)

/-- Read a handle: an exclamation mark, a word, and perhaps another exclamation
mark. -/
def readHandle (text : List Spot) : Option (List Char × List Spot) :=
  match text with
  | s :: rest =>
    if s.char = '!' then
      let (word, after) := wordSpan rest
      if ahead 0 after = '!' then some ('!' :: word ++ ['!'], after.drop 1)
      else some ('!' :: word, after)
    else none
  | [] => none

/-- Whether a handle is closed by a second exclamation mark. -/
def isClosedHandle (handle : List Char) : Bool :=
  2 ≤ handle.length && handle.getLast? == some '!'

/-- Read a tag that is neither in brackets nor has a closed handle, where `word` was
read behind its exclamation mark. Nothing but the mark is a tag in full. -/
def readLocal (word : List Char) (text : List Spot) :
    Option ((List Char × Tag) × List Spot) :=
  (readChars false 0 text).map fun (part, rest) =>
    match (ofText (String.ofList word) ++ part).untilNull with
    | [] => (([], [mark]), rest)
    | suffix => ((['!'], suffix), rest)

/-- Read a tag: its handle, which is empty for a tag in full, and its suffix. -/
def read (flow : Bool) (text : List Spot) : Option ((List Char × Tag) × List Spot) := do
  let (tag, rest) ←
    if ahead 1 text = '<' then do
      let (suffix, after) ← readPart true (text.drop 2)
      if ahead 0 after ≠ '>' then none else pure (([], suffix), after.drop 1)
    else do
      let (handle, afterHandle) ← readHandle text
      if isClosedHandle handle then do
        let (suffix, after) ← readPart false afterHandle
        pure ((handle, suffix), after)
      else readLocal (handle.drop 1) afterHandle
  if isGap (ahead 0 rest) || (flow && ahead 0 rest = ',') then return (tag, rest) else none

/-- Read a handle and what it stands for. -/
def readHandleMeaning (text : List Spot) : Option ((List Char × Tag) × List Spot) := do
  let (handle, afterHandle) ← readHandle (skipBlanks text)
  if !(isClosedHandle handle || handle = ['!']) || !isSpaceOrTab (ahead 0 afterHandle) then none
  else do
    let (stem, rest) ← readPart true (skipBlanks afterHandle)
    if isGap (ahead 0 rest) then return ((handle, stem), rest) else none

end Tag

end TypedClient.Yaml
