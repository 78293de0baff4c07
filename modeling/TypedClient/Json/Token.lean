import TypedClient.Json.Numeral

/-!
# Tokens of a document text

A strict text is cut into brackets, commas, colons and scalar values; blanks
between them are spaces, tabs, carriage returns and line feeds. A string may not
hold raw control characters, and its escapes for characters beyond 16 bits come
in pairs.
-/

namespace TypedClient.Json

/-- A token of a strict text. -/
inductive Token where
  /-- An opening brace. -/
  | openObject
  /-- A closing brace. -/
  | closeObject
  /-- An opening bracket. -/
  | openArray
  /-- A closing bracket. -/
  | closeArray
  /-- The colon after a key. -/
  | colon
  /-- The comma between members or elements. -/
  | comma
  /-- A string, number, truth value or null. -/
  | scalar (value : Json)

/-- The value of a hexadecimal digit in either case. -/
def hexDigit? (c : Char) : Option Nat :=
  if '0' ≤ c && c ≤ '9' then some (c.toNat - '0'.toNat)
  else if 'a' ≤ c && c ≤ 'f' then some (c.toNat - 'a'.toNat + 10)
  else if 'A' ≤ c && c ≤ 'F' then some (c.toNat - 'A'.toNat + 10)
  else none

/-- The value of a list of hexadecimal digits. -/
def hexValue? (digits : List Char) : Option Nat :=
  digits.foldlM (fun n c => (hexDigit? c).map (16 * n + ·)) 0

/-- Whether a code is the first half of a pair. -/
def isHighHalf (code : Nat) : Bool := 0xD800 ≤ code && code ≤ 0xDBFF

/-- Whether a code is the second half of a pair. -/
def isLowHalf (code : Nat) : Bool := 0xDC00 ≤ code && code ≤ 0xDFFF

/-- The character that a one-letter escape stands for. -/
def shortEscape? (c : Char) : Option Char :=
  match c with
  | '"' => some '"'
  | '\\' => some '\\'
  | '/' => some '/'
  | 'b' => some '\x08'
  | 'f' => some '\x0c'
  | 'n' => some '\n'
  | 'r' => some '\r'
  | 't' => some '\t'
  | _ => none

/-- Put a character in front of a text that is still being read. -/
def prepend (c : Char) (read : Option (List Char × List Char)) : Option (List Char × List Char) :=
  read.map fun (text, rest) => (c :: text, rest)

/-- Read a string up to its closing quotation mark, and what follows it. -/
def readString : List Char → Option (List Char × List Char)
  | [] => none
  | '"' :: rest => some ([], rest)
  | '\\' :: 'u' :: a :: b :: c :: d :: '\\' :: 'u' :: e :: f :: g :: h :: rest =>
    match hexValue? [a, b, c, d], hexValue? [e, f, g, h] with
    | some high, some low =>
      if isHighHalf high && isLowHalf low then
        prepend (Char.ofNat (0x10000 + (high - 0xD800) * 0x400 + (low - 0xDC00))) (readString rest)
      else if isHighHalf high || isLowHalf high then none
      else prepend (Char.ofNat high) (readString ('\\' :: 'u' :: e :: f :: g :: h :: rest))
    | some high, none =>
      if isHighHalf high || isLowHalf high then none
      else prepend (Char.ofNat high) (readString ('\\' :: 'u' :: e :: f :: g :: h :: rest))
    | none, _ => none
  | '\\' :: 'u' :: a :: b :: c :: d :: rest =>
    match hexValue? [a, b, c, d] with
    | some code =>
      if isHighHalf code || isLowHalf code then none
      else prepend (Char.ofNat code) (readString rest)
    | none => none
  | '\\' :: c :: rest =>
    match shortEscape? c with
    | some d => prepend d (readString rest)
    | none => none
  | c :: rest => if c.toNat < 0x20 then none else prepend c (readString rest)

/-- The digits at the front of a text, and what follows them. -/
def digitSpan (text : List Char) : List Char × List Char := text.span Char.isDigit

/-- Read the fraction of a numeral; a point needs a digit after it. -/
def readFraction (text : List Char) : Option (Option (List Char) × List Char) :=
  match text with
  | '.' :: rest =>
    match digitSpan rest with
    | ([], _) => none
    | (digits, after) => some (some digits, after)
  | _ => some (none, text)

/-- Read the exponent of a numeral; it needs a digit. -/
def readExponent (text : List Char) : Option (Option (Bool × List Char) × List Char) :=
  match text with
  | c :: rest =>
    if c = 'e' || c = 'E' then
      let (negative, rest) := match rest with
        | '+' :: after => (false, after)
        | '-' :: after => (true, after)
        | _ => (false, rest)
      match digitSpan rest with
      | ([], _) => none
      | (digits, after) => some (some (negative, digits), after)
    else some (none, text)
  | [] => some (none, text)

/-- Read a numeral. A leading zero stands alone before the point. -/
def readNumeral (text : List Char) : Option (Numeral × List Char) := do
  let (negative, body) := match text with
    | '-' :: rest => (true, rest)
    | _ => (false, text)
  let (whole, afterWhole) ← match body with
    | '0' :: rest => some (['0'], rest)
    | _ => match digitSpan body with
      | ([], _) => none
      | (digits, rest) => some (digits, rest)
  let (fraction, afterFraction) ← readFraction afterWhole
  let (exponent, rest) ← readExponent afterFraction
  return (⟨negative, whole, fraction, exponent⟩, rest)

/-- A blank between tokens. -/
def isGap (c : Char) : Bool := c = ' ' || c = '\t' || c = '\n' || c = '\r'

/-- Read one token from a text that does not start with a blank. -/
def readToken (text : List Char) : Option (Token × List Char) :=
  match text with
  | '\x7b' :: rest => some (.openObject, rest)
  | '\x7d' :: rest => some (.closeObject, rest)
  | '[' :: rest => some (.openArray, rest)
  | ']' :: rest => some (.closeArray, rest)
  | ':' :: rest => some (.colon, rest)
  | ',' :: rest => some (.comma, rest)
  | '"' :: rest =>
    (readString rest).map fun (chars, after) => (.scalar (.string (String.ofList chars)), after)
  | 't' :: 'r' :: 'u' :: 'e' :: rest => some (.scalar (.bool true), rest)
  | 'f' :: 'a' :: 'l' :: 's' :: 'e' :: rest => some (.scalar (.bool false), rest)
  | 'n' :: 'u' :: 'l' :: 'l' :: rest => some (.scalar .null, rest)
  | _ => do
    let (numeral, rest) ← readNumeral text
    let value ← numeral.value?
    return (.scalar (.number value), rest)

/-- The tokens of a text, at most `fuel` of them. -/
def tokensWithin : Nat → List Char → Option (List Token)
  | fuel, text =>
    match text.dropWhile isGap with
    | [] => some []
    | c :: rest =>
      match fuel with
      | 0 => none
      | fuel + 1 =>
        (readToken (c :: rest)).bind fun (token, after) =>
          (tokensWithin fuel after).map (token :: ·)

/-- The tokens of a text. A token has at least one character, so there are no
more of them than characters. -/
def tokens? (text : List Char) : Option (List Token) := tokensWithin text.length text

end TypedClient.Json
