/-!
# Characters at their places

An indented text is read as a list of spots, each a character with its place.
The end of the text is a spot of its own, so every look ahead finds something.
A carriage return, a line feed, the two together and the next-line character all
end a line alike and are read as one line feed; the separators for lines and
paragraphs end a line too but stay themselves.
-/

namespace TypedClient.Yaml

/-- A character and its place in the text. -/
structure Spot where
  /-- The character; the null character marks the end of the text. -/
  char : Char
  /-- How many bytes of UTF-8 come before. -/
  index : Nat
  /-- How many lines come before. -/
  line : Nat
  /-- How many characters come before on the line. -/
  column : Nat

/-- Whether a text may hold a character as it is. -/
def isAllowed (c : Char) : Bool :=
  let n := c.toNat
  n == 0x09 || n == 0x0A || n == 0x0D || (0x20 ≤ n && n ≤ 0x7E) || n == 0x85 ||
    (0xA0 ≤ n && n ≤ 0xD7FF) || (0xE000 ≤ n && n ≤ 0xFFFD) || 0x10000 ≤ n

/-- Read every ending of a line as a line feed. -/
def unifyBreaks : List Char → List Char
  | [] => []
  | '\r' :: '\n' :: rest => '\n' :: unifyBreaks rest
  | '\r' :: rest => '\n' :: unifyBreaks rest
  | c :: rest => (if c = '\u0085' then '\n' else c) :: unifyBreaks rest

/-- A character that ends a line. -/
def isBreak (c : Char) : Bool := c = '\n' || c = '\u2028' || c = '\u2029'

/-- A space or a tab. -/
def isSpaceOrTab (c : Char) : Bool := c = ' ' || c = '\t'

/-- The end of the text. -/
def isEnd (c : Char) : Bool := c.toNat = 0

/-- The end of a line or of the text. -/
def isBreakOrEnd (c : Char) : Bool := isBreak c || isEnd c

/-- Anything that separates. -/
def isGap (c : Char) : Bool := isSpaceOrTab c || isBreakOrEnd c

/-- A character of a word: an ASCII letter or digit, an underscore or a hyphen. -/
def isWordChar (c : Char) : Bool :=
  ('A' ≤ c && c ≤ 'Z') || ('a' ≤ c && c ≤ 'z') || c.isDigit || c = '_' || c = '-'

/-- The spots of a text from a place on, and the spot at its end. -/
def spotsFrom (index line column : Nat) : List Char → List Spot
  | [] => [⟨Char.ofNat 0, index, line, column⟩]
  | c :: rest =>
    ⟨c, index, line, column⟩ ::
      (if isBreak c then spotsFrom (index + c.utf8Size) (line + 1) 0 rest
      else spotsFrom (index + c.utf8Size) line (column + 1) rest)

/-- The spots of a text, unless it holds a character that is not allowed. -/
def spots? (text : List Char) : Option (List Spot) :=
  if text.all isAllowed then some (spotsFrom 0 0 0 (unifyBreaks text)) else none

/-- The character at a distance; beyond the text there is nothing but its end. -/
def ahead (distance : Nat) (text : List Spot) : Char :=
  match text[distance]? with
  | some s => s.char
  | none => Char.ofNat 0

/-- Whether a line starts here with a mark of three characters that stands alone. -/
def startsMark (mark : Char) (text : List Spot) : Bool :=
  (match text with
    | s :: _ => s.column == 0
    | [] => false) &&
  ahead 0 text == mark && ahead 1 text == mark && ahead 2 text == mark && isGap (ahead 3 text)

/-- Whether a document starts or ends here. -/
def atDocumentMark (text : List Spot) : Bool := startsMark '-' text || startsMark '.' text

/-- The characters of spots. -/
def chars (text : List Spot) : List Char := text.map Spot.char

/-- The spots up to the end of the line, and what follows. -/
def lineSpan (text : List Spot) : List Spot × List Spot :=
  text.span fun s => !isBreakOrEnd s.char

/-- The word at the front of a text, and what follows. -/
def wordSpan (text : List Spot) : List Char × List Spot :=
  let (word, rest) := text.span fun s => isWordChar s.char
  (chars word, rest)

/-- Skip spaces and tabs. -/
def skipBlanks (text : List Spot) : List Spot := text.dropWhile fun s => isSpaceOrTab s.char

/-- Skip to the end of a line that holds nothing more than blanks and a comment,
and over its break. -/
def finishLine (text : List Spot) : Option (List Spot) :=
  let text := skipBlanks text
  let text := if ahead 0 text = '#' then (lineSpan text).2 else text
  match text with
  | [] => some []
  | s :: rest =>
    if isBreak s.char then some rest else if isEnd s.char then some (s :: rest) else none

end TypedClient.Yaml
