import TypedClient.Yaml.Tag

/-!
# Values of scalars

A plain scalar without a tag is null, a truth value or a number when it is
spelled like one, and a text otherwise. A tag of the standard set demands its
kind of value, and any other tag makes a text, unless it starts with an exclamation
mark: then it is either one of the document's own or does not count. Infinite
numbers and those that are no numbers become null.
-/

namespace TypedClient.Yaml

namespace Scalar

/-- Whether a text is a spelling of null. -/
def isNull (text : String) : Bool :=
  text == "null" || text == "Null" || text == "NULL" || text == "~"

/-- The truth value that a text spells. -/
def truth? (text : String) : Option Bool :=
  if text == "true" || text == "True" || text == "TRUE" then some true
  else if text == "false" || text == "False" || text == "FALSE" then some false
  else none

/-- Whether a character is a sign. -/
def isSign (c : Char) : Bool := c = '+' || c = '-'

/-- Take a sign off a text: whether it is a minus, and the rest. -/
def takeSign (text : List Char) : Bool × List Char :=
  match text with
  | '-' :: rest => (true, rest)
  | '+' :: rest => (false, rest)
  | _ => (false, text)

/-- Whether a text, a sign apart, is a zero and further digits. Such a text is no
number. -/
def hasLeadingZero (text : List Char) : Bool :=
  match (takeSign text).2 with
  | '0' :: c :: rest => (c :: rest).all Char.isDigit
  | _ => false

/-- The number that digits of a base up to sixteen spell. -/
def inBase? (base : Nat) (digits : List Char) : Option Nat :=
  if digits.isEmpty then none
  else digits.foldlM (fun n c =>
    (Json.hexDigit? c).bind fun d => if d < base then some (base * n + d) else none) 0

/-- The size of an integer by its digits, which may have a mark for their base. -/
def magnitude? (digits : List Char) : Option Nat :=
  let marked := match digits with
    | '0' :: 'x' :: rest => inBase? 16 rest
    | '0' :: 'o' :: rest => inBase? 8 rest
    | '0' :: 'b' :: rest => inBase? 2 rest
    | _ => none
  marked.or (inBase? 10 digits)

/-- The integer that a text spells, if it is between -2^127 and 2^128. -/
def integer? (text : List Char) : Option Int :=
  if hasLeadingZero text then none
  else
    let (negative, digits) := takeSign text
    (magnitude? digits).bind fun n =>
      if negative then (if n ≤ Nat.pow 2 127 then some (-(n : Int)) else none)
      else if n < Nat.pow 2 128 then some n else none

/-- Whether an integer fits into 64 bits with or without a sign. -/
def isWord (n : Int) : Bool := -(Nat.pow 2 63 : Int) ≤ n && n < Nat.pow 2 64

/-- The exponent at the end of a decimal, if what is left is one or nothing. -/
def exponent? (text : List Char) : Option Int :=
  match text with
  | [] => some 0
  | c :: rest =>
    if c = 'e' || c = 'E' then
      let (negative, digits) := takeSign rest
      if digits.isEmpty || !digits.all Char.isDigit then none
      else
        let n : Int := digitsValue digits
        some (if negative then -n else n)
    else none

/-- The number nearest to the decimal that a text spells, if it is finite. There
has to be a digit before or after the point. -/
def decimal? (text : List Char) : Option Binary64 :=
  let (negative, body) := takeSign text
  let (whole, afterWhole) := Json.digitSpan body
  let (fraction, afterFraction) := match afterWhole with
    | '.' :: rest => Json.digitSpan rest
    | _ => ([], afterWhole)
  if whole.isEmpty && fraction.isEmpty then none
  else
    (exponent? afterFraction).bind fun e =>
      Binary64.ofDecimal? negative (digitsValue (whole ++ fraction)) (e - fraction.length)

/-- Whether a text spells infinity or what is no number. -/
def isNotFinite (text : List Char) : Bool :=
  let words := [".inf", ".Inf", ".INF"].map String.toList
  words.contains (takeSign text).2 || [".nan", ".NaN", ".NAN"].contains (String.ofList text)

/-- The floating-point value that a text spells. -/
def float? (text : List Char) : Option Json :=
  if isNotFinite text then some .null
  else
    match text with
    | '+' :: c :: _ => if isSign c then none else (decimal? text).map fun x => .number (.float x)
    | _ => (decimal? text).map fun x => .number (.float x)

/-- The value of a plain scalar without a tag. An integer of more than 64 bits has
none. -/
def plain? (text : String) : Option Json :=
  if text.isEmpty || isNull text then some .null
  else
    match truth? text, integer? text.toList with
    | some b, _ => some (.bool b)
    | none, some n => if isWord n then some (.number (.integer n)) else none
    | none, none =>
      if hasLeadingZero text.toList then some (.string text)
      else some ((float? text.toList).getD (.string text))

/-- The value of a scalar with a tag. A tag of the document's own has no value. -/
def tagged? (tag : Tag) (text : String) (plain : Bool) : Option Json :=
  if tag.isOwn then none
  else if tag = Tag.standard "bool" then (truth? text).map .bool
  else if tag = Tag.standard "int" then
    (integer? text.toList).bind fun n => if isWord n then some (.number (.integer n)) else none
  else if tag = Tag.standard "float" then float? text.toList
  else if tag = Tag.standard "null" then (if isNull text then some .null else none)
  else if plain && tag.isMarked then plain? text
  else some (.string text)

/-- The value of a scalar. -/
def value? (tag : Option Tag) (text : String) (plain : Bool) : Option Json :=
  match tag with
  | some tag => tagged? tag text plain
  | none => if plain then plain? text else some (.string text)

end Scalar

end TypedClient.Yaml
