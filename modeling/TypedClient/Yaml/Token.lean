import TypedClient.Yaml.Tag

/-!
# Tokens of an indented text

The tokens that an indented text is cut into, and the reading of those that are
words: anchors, tags and directives. Where a block begins and ends is a token
too, although no character stands for it.
-/

namespace TypedClient.Yaml

/-- A token of an indented text. -/
inductive Token where
  /-- The directive that names a version. -/
  | version (major minor : Nat)
  /-- The directive that gives a handle for tags. -/
  | handle (handle : List Char) (stem : Tag)
  /-- The mark that starts a document. -/
  | documentStart
  /-- The mark that ends a document. -/
  | documentEnd
  /-- The place where a block of entries begins. -/
  | blockSequenceStart
  /-- The place where a block of keys begins. -/
  | blockMappingStart
  /-- The place where a block ends. -/
  | blockEnd
  /-- An opening bracket. -/
  | flowSequenceStart
  /-- A closing bracket. -/
  | flowSequenceEnd
  /-- An opening brace. -/
  | flowMappingStart
  /-- A closing brace. -/
  | flowMappingEnd
  /-- The hyphen of an entry. -/
  | blockEntry
  /-- The comma between entries. -/
  | flowEntry
  /-- What comes next is a key. -/
  | key
  /-- What comes next is a value. -/
  | value
  /-- A repetition of an anchored node. -/
  | alias (name : List Char)
  /-- A name for the node that comes next. -/
  | anchor (name : List Char)
  /-- A tag for the node that comes next. -/
  | tag (handle : List Char) (suffix : Tag)
  /-- A scalar, and whether it is written plain. -/
  | scalar (text : String) (plain : Bool)
  deriving DecidableEq

/-- Whether a name may end before a character. -/
def endsName (c : Char) : Bool :=
  isGap c || c = '?' || c = ':' || c = ',' || c = ']' || c = '\x7d' || c = '%' || c = '@' ||
    c = '\x60'

/-- Read the name of an anchor or of a repetition after its mark. -/
def readName (text : List Spot) : Option (List Char × List Spot) :=
  let (name, rest) := wordSpan text
  if name.isEmpty || !endsName (ahead 0 rest) then none else some (name, rest)

/-- Read a tag whose first character has not been read. -/
def readTag (flow : Bool) (text : List Spot) : Option (Token × List Spot) :=
  (Tag.read flow text).map fun ((handle, suffix), rest) => (.tag handle suffix, rest)

/-! ### Directives -/

/-- Read a part of a version number, at most nine digits. -/
def readVersionPart (text : List Spot) : Option (Nat × List Spot) :=
  let (digits, rest) := text.span fun s => s.char.isDigit
  if digits.isEmpty || 9 < digits.length then none
  else some (digitsValue (chars digits), rest)

/-- Read the value of a version directive. -/
def readVersion (text : List Spot) : Option (Token × List Spot) := do
  let (major, afterMajor) ← readVersionPart (skipBlanks text)
  if ahead 0 afterMajor ≠ '.' then none
  else do
    let (minor, rest) ← readVersionPart (afterMajor.drop 1)
    return (.version major minor, rest)

/-- Read the value of a directive that gives a handle for tags. -/
def readHandleDirective (text : List Spot) : Option (Token × List Spot) :=
  (Tag.readHandleMeaning text).map fun ((handle, stem), rest) => (.handle handle stem, rest)

/-- Read a directive after its percent sign, to the end of its line. -/
def readDirective (text : List Spot) : Option (Token × List Spot) := do
  let (name, afterName) := wordSpan text
  if !isGap (ahead 0 afterName) then none
  else do
    let (token, rest) ←
      if name = "YAML".toList then readVersion afterName
      else if name = "TAG".toList then readHandleDirective afterName
      else none
    return (token, ← finishLine rest)

end TypedClient.Yaml
