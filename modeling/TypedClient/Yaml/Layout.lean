import TypedClient.Yaml.Scalars
import TypedClient.Yaml.Token

/-!
# Layout

Cutting an indented text into tokens. Indentation opens and closes blocks, and a
colon turns what came before it on the line into a key: the place where a key
may have started is remembered, and the token for it is put there afterwards. A
key has to end on its line and within 1024 bytes.
-/

namespace TypedClient.Yaml

/-- A place where a key may have started. -/
structure KeyPlace where
  /-- Whether nothing but a key can stand there. -/
  required : Bool
  /-- How many tokens come before. -/
  position : Nat
  /-- The place. -/
  spot : Spot

/-- The state of the cutting. -/
structure Layout where
  /-- The tokens so far, the last one first. -/
  tokens : List Token
  /-- How many tokens there are. -/
  count : Nat
  /-- The column of the innermost block, -1 outside of all. -/
  indent : Int
  /-- The columns of the blocks around it. -/
  outer : List Int
  /-- Whether a key may start here. -/
  keyAllowed : Bool
  /-- Where the key that is being read may have started, for the innermost level. -/
  place : Option KeyPlace
  /-- The same for each bracket that is open. -/
  outerPlaces : List (Option KeyPlace)

namespace Layout

/-- Nothing read yet. -/
def start : Layout := ⟨[], 0, -1, [], true, none, []⟩

/-- Whether a bracket is open. -/
def inFlow (l : Layout) : Bool := !l.outerPlaces.isEmpty

/-- Add a token. -/
def emit (l : Layout) (token : Token) : Layout :=
  { l with tokens := token :: l.tokens, count := l.count + 1 }

/-- Put a token behind the first `position` tokens. -/
def emitAt (l : Layout) (position : Nat) (token : Token) : Layout :=
  let later := l.count - position
  { l with tokens := l.tokens.take later ++ token :: l.tokens.drop later, count := l.count + 1 }

/-- Open a block at a column unless one is open there, its token behind the first
`position` tokens. -/
def openBlock (l : Layout) (column position : Nat) (token : Token) : Layout :=
  if !l.inFlow && l.indent < column then
    { l.emitAt position token with indent := column, outer := l.indent :: l.outer }
  else l

/-- Close the blocks to the right of a column, where `outer` are those around the
innermost. -/
def closeBlocks (column : Int) : List Int → Layout → Layout
  | [], l => l
  | next :: outer, l =>
    if column < l.indent then
      closeBlocks column outer { l.emit .blockEnd with indent := next, outer := outer }
    else l

/-- Close the blocks to the right of a column. Brackets suspend indentation. -/
def dedent (l : Layout) (column : Int) : Layout :=
  if l.inFlow then l else closeBlocks column l.outer l

/-- Give up the place where a key may have started. -/
def dropPlace (l : Layout) : Option Layout :=
  match l.place with
  | some p => if p.required then none else some { l with place := none }
  | none => some l

/-- Remember this place as one where a key may start. -/
def savePlace (l : Layout) (spot : Spot) : Option Layout :=
  if l.keyAllowed then
    l.dropPlace.map fun l =>
      { l with place := some ⟨!l.inFlow && l.indent = spot.column, l.count, spot⟩ }
  else some l

/-- How many bytes a key may have. -/
def longestKey : Nat := 1024

/-- Whether a key that started at a place cannot end here any more. -/
def isStale (spot : Spot) (p : KeyPlace) : Bool :=
  p.spot.line < spot.line || p.spot.index + longestKey < spot.index

/-- A place that is not stale; a stale place may not be required. -/
def refresh (spot : Spot) (place : Option KeyPlace) : Option (Option KeyPlace) :=
  match place with
  | some p => if isStale spot p then (if p.required then none else some none) else some (some p)
  | none => some none

/-- Refresh each place. -/
def refreshAll (spot : Spot) : List (Option KeyPlace) → Option (List (Option KeyPlace))
  | [] => some []
  | p :: rest => do
    let first ← refresh spot p
    return first :: (← refreshAll spot rest)

/-- Give up the places that are stale. -/
def dropStale (l : Layout) (spot : Spot) : Option Layout := do
  let place ← refresh spot l.place
  let outerPlaces ← refreshAll spot l.outerPlaces
  return { l with place := place, outerPlaces := outerPlaces }

/-! ### Tokens that change the layout -/

/-- Leave all blocks. -/
def leave (l : Layout) : Option Layout :=
  (l.dedent (-1)).dropPlace.map fun l => { l with keyAllowed := false }

/-- An opening bracket. -/
def openFlow (l : Layout) (spot : Spot) (token : Token) : Option Layout :=
  (l.savePlace spot).map fun l =>
    { l.emit token with
      place := none, outerPlaces := l.place :: l.outerPlaces, keyAllowed := true }

/-- A closing bracket. -/
def closeFlow (l : Layout) (token : Token) : Option Layout :=
  l.dropPlace.map fun l =>
    let closed := match l.outerPlaces with
      | place :: others => { l with place := place, outerPlaces := others }
      | [] => l
    { closed.emit token with keyAllowed := false }

/-- A comma. -/
def separate (l : Layout) : Option Layout :=
  l.dropPlace.map fun l => { l.emit .flowEntry with keyAllowed := true }

/-- The hyphen of an entry. Inside brackets it is left to the grammar to refuse it. -/
def entry (l : Layout) (spot : Spot) : Option Layout :=
  if !l.inFlow && !l.keyAllowed then none
  else
    (l.openBlock spot.column l.count .blockSequenceStart).dropPlace.map fun l =>
      { l.emit .blockEntry with keyAllowed := true }

/-- The mark of a key. -/
def markKey (l : Layout) (spot : Spot) : Option Layout :=
  if !l.inFlow && !l.keyAllowed then none
  else
    (l.openBlock spot.column l.count .blockMappingStart).dropPlace.map fun l =>
      { l.emit .key with keyAllowed := !l.inFlow }

/-- The mark of a value. When a key may have started, it did; otherwise the value
has no key. -/
def markValue (l : Layout) (spot : Spot) : Option Layout :=
  match l.place with
  | some p =>
    let opened := (l.emitAt p.position .key).openBlock p.spot.column p.position .blockMappingStart
    some { opened.emit .value with place := none, keyAllowed := false }
  | none =>
    if !l.inFlow && !l.keyAllowed then none
    else
      let opened := l.openBlock spot.column l.count .blockMappingStart
      some { opened.emit .value with keyAllowed := !l.inFlow }

/-- A token that may be a key or a part of one. -/
def word (l : Layout) (spot : Spot) (read : Option (Token × List Spot)) :
    Option (Layout × List Spot) := do
  let l ← l.savePlace spot
  let (token, rest) ← read
  return ({ l.emit token with keyAllowed := false }, rest)

/-! ### Cutting -/

/-- Skip blanks, comments and breaks, where `comment` tells that a comment goes
on; a break allows a key outside of brackets. A tab may not stand where a key
may start, except inside brackets. A byte-order mark may start a line. -/
def skipGaps (flow : Bool) : Bool → Bool → List Spot → Bool × List Spot
  | keyAllowed, _, [] => (keyAllowed, [])
  | keyAllowed, comment, s :: rest =>
    if isBreak s.char then skipGaps flow (keyAllowed || !flow) false rest
    else if comment && !isEnd s.char then skipGaps flow keyAllowed true rest
    else if s.char = ' ' || (s.char = '\t' && (flow || !keyAllowed)) then
      skipGaps flow keyAllowed false rest
    else if s.char = '#' then skipGaps flow keyAllowed true rest
    else if s.char = '\ufeff' && s.column = 0 then skipGaps flow keyAllowed false rest
    else (keyAllowed, s :: rest)

/-- Whether a plain scalar can start with a character that another one follows.
Inside brackets a question mark and a colon cannot. -/
def startsPlain (flow : Bool) (c next : Char) : Bool :=
  if c = '-' then !isSpaceOrTab next
  else if c = '?' || c = ':' then !flow && !isGap next
  else
    !(isGap c || isFlowMark c || c = '#' || c = '&' || c = '*' || c = '!' || c = '|' || c = '>' ||
      c = '\'' || c = '"' || c = '%' || c = '@' || c = '\x60')

/-- Read a plain scalar. After a break a key may start again. -/
def plainScalar (l : Layout) (spot : Spot) (text : List Spot) : Option (Layout × List Spot) := do
  let l ← l.savePlace spot
  let (f, rest) ← readPlain l.inFlow (l.indent + 1) Folding.start false text
  return ({ l.emit (.scalar f.result true) with keyAllowed := f.broken }, rest)

/-- Read a quoted scalar after its opening mark. -/
def quotedScalar (l : Layout) (spot : Spot) (single : Bool) (text : List Spot) :
    Option (Layout × List Spot) :=
  l.word spot
    ((readQuoted single Folding.start false 0 text).map fun (f, rest) =>
      (.scalar f.result false, rest))

/-- Read a block scalar after its mark. -/
def blockScalar (l : Layout) (literal : Bool) (text : List Spot) : Option (Layout × List Spot) := do
  let l ← l.dropPlace
  let (value, rest) ← readBlock literal l.indent text
  return ({ l.emit (.scalar value false) with keyAllowed := true }, rest)

/-- Read one token at a spot that is neither a gap nor the end of the text. -/
def readToken (l : Layout) (s : Spot) (rest : List Spot) : Option (Layout × List Spot) :=
  let text := s :: rest
  let next := ahead 0 rest
  let after (result : Option Layout) : Option (Layout × List Spot) := result.map (·, rest)
  if s.column = 0 && s.char = '%' then do
    let l ← l.leave
    let (token, rest) ← readDirective rest
    return (l.emit token, rest)
  else if startsMark '-' text then l.leave.map fun l => (l.emit .documentStart, text.drop 3)
  else if startsMark '.' text then l.leave.map fun l => (l.emit .documentEnd, text.drop 3)
  else if s.char = '[' then after (l.openFlow s .flowSequenceStart)
  else if s.char = '\x7b' then after (l.openFlow s .flowMappingStart)
  else if s.char = ']' then after (l.closeFlow .flowSequenceEnd)
  else if s.char = '\x7d' then after (l.closeFlow .flowMappingEnd)
  else if s.char = ',' then after l.separate
  else if s.char = '-' && isGap next then after (l.entry s)
  else if s.char = '?' && (l.inFlow || isGap next) then after (l.markKey s)
  else if s.char = ':' && (l.inFlow || isGap next) then after (l.markValue s)
  else if s.char = '*' then l.word s ((readName rest).map fun (n, r) => (.alias n, r))
  else if s.char = '&' then l.word s ((readName rest).map fun (n, r) => (.anchor n, r))
  else if s.char = '!' then l.word s (readTag l.inFlow text)
  else if s.char = '|' && !l.inFlow then l.blockScalar true rest
  else if s.char = '>' && !l.inFlow then l.blockScalar false rest
  else if s.char = '\'' then l.quotedScalar s true rest
  else if s.char = '"' then l.quotedScalar s false rest
  else if startsPlain l.inFlow s.char next then l.plainScalar s text
  else none

/-- Close everything at the end of the text. -/
def finish (l : Layout) : Option (List Token) := l.leave.map fun l => l.tokens.reverse

/-- Cut a text, reading at most `fuel` tokens. -/
def cutWithin : Nat → Layout → List Spot → Option (List Token)
  | 0, _, _ => none
  | fuel + 1, l, text =>
    let (keyAllowed, text) := skipGaps l.inFlow l.keyAllowed false text
    let l := { l with keyAllowed := keyAllowed }
    match text with
    | [] => l.finish
    | s :: rest => do
      let l ← l.dropStale s
      let l := l.dedent s.column
      if isEnd s.char then l.finish
      else
        let (l, rest) ← l.readToken s rest
        cutWithin fuel l rest

end Layout

/-- The tokens of an indented text. Each token that is read takes a character or
more, so there are no more of them than spots. -/
def tokens? (text : List Char) : Option (List Token) :=
  (spots? text).bind fun spots => Layout.cutWithin (spots.length + 1) Layout.start spots

end TypedClient.Yaml
