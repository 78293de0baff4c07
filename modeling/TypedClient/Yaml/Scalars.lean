import TypedClient.Json.Token
import TypedClient.Yaml.Folding

/-!
# Scalars in a text

The three ways to write a scalar: plain, quoted, and as a block of lines. Each
function reads one scalar and hands back what follows it.
-/

namespace TypedClient.Yaml

/-! ### Plain scalars -/

/-- A bracket or comma, which ends a plain scalar inside brackets. -/
def isFlowMark (c : Char) : Bool :=
  c = ',' || c = '[' || c = ']' || c = '\x7b' || c = '\x7d'

/-- Whether a plain scalar that goes on after a gap ends here instead. -/
def endsAfterGap (flow : Bool) (indent : Int) (text : List Spot) : Bool :=
  match text with
  | [] => true
  | s :: _ => (!flow && (s.column : Int) < indent) || atDocumentMark text || s.char = '#'

/-- Read a plain scalar, where `fresh` tells that a gap comes right before. -/
def readPlain (flow : Bool) (indent : Int) : Folding → Bool → List Spot →
    Option (Folding × List Spot)
  | f, _, [] => some (f, [])
  | f, fresh, s :: rest =>
    if isSpaceOrTab s.char || isBreak s.char then
      if f.broken && (s.column : Int) < indent && s.char = '\t' then none
      else readPlain flow indent (f.gap s.char) true rest
    else if isEnd s.char || (fresh && endsAfterGap flow indent (s :: rest)) then some (f, s :: rest)
    else if flow && s.char = ':' && (isFlowMark (ahead 0 rest) || ahead 0 rest = '?') then none
    else if (s.char = ':' && isGap (ahead 0 rest)) || (flow && isFlowMark s.char) then
      some (f, s :: rest)
    else readPlain flow indent (f.join.push s.char) false rest

/-! ### Quoted scalars -/

/-- The character that a one-letter escape stands for. -/
def simpleEscape? (c : Char) : Option Char :=
  match c with
  | '0' => some (Char.ofNat 0)
  | 'a' => some '\x07'
  | 'b' => some '\x08'
  | 't' | '\t' => some '\t'
  | 'n' => some '\n'
  | 'v' => some '\x0b'
  | 'f' => some '\x0c'
  | 'r' => some '\r'
  | 'e' => some '\x1b'
  | ' ' => some ' '
  | '"' => some '"'
  | '/' => some '/'
  | '\\' => some '\\'
  | 'N' => some '\u0085'
  | '_' => some '\u00a0'
  | 'L' => some '\u2028'
  | 'P' => some '\u2029'
  | _ => none

/-- How many hexadecimal digits follow the letter of an escape. -/
def escapeLength? (c : Char) : Option Nat :=
  match c with
  | 'x' => some 2
  | 'u' => some 4
  | 'U' => some 8
  | _ => none

/-- The character of a code, unless no character has it. -/
def charOfCode? (code : Nat) : Option Char :=
  if (0xD800 ≤ code && code ≤ 0xDFFF) || 0x10FFFF < code then none else some (Char.ofNat code)

/-- Read the rest of an escape after its backslash: the character, and how many
spots it takes. -/
def readEscape (text : List Spot) : Option (Char × Nat) :=
  let letter := ahead 0 text
  match simpleEscape? letter with
  | some c => some (c, 1)
  | none => do
    let count ← escapeLength? letter
    let code ← Json.hexValue? ((chars (text.drop 1)).take count)
    let c ← if (text.drop 1).length < count then none else charOfCode? code
    return (c, count + 1)

/-- Read a quoted scalar up to its closing mark. `skip` spots belong to an escape
that has been read, and `fresh` tells that a gap comes right before. -/
def readQuoted (single : Bool) : Folding → Bool → Nat → List Spot → Option (Folding × List Spot)
  | _, _, _, [] => none
  | f, fresh, skip + 1, _ :: rest => readQuoted single f fresh skip rest
  | f, fresh, 0, s :: rest =>
    if isSpaceOrTab s.char || isBreak s.char then readQuoted single (f.gap s.char) true 0 rest
    else
      let f := if fresh then f.join else f
      if fresh && atDocumentMark (s :: rest) || isEnd s.char then none
      else if single && s.char = '\'' && ahead 0 rest = '\'' then
        readQuoted single (f.push '\'') false 1 rest
      else if s.char = (if single then '\'' else '"') then some (f, rest)
      else if !single && s.char = '\\' then
        if isBreak (ahead 0 rest) then readQuoted single f.escapedBreak true 1 rest
        else
          match readEscape rest with
          | some (c, count) => readQuoted single (f.push c) false count rest
          | none => none
      else readQuoted single (f.push s.char) false 0 rest

/-! ### Block scalars -/

/-- What happens to the breaks at the end of a block. -/
inductive Chomping where
  /-- All of them are dropped. -/
  | strip
  /-- The first is kept. -/
  | clip
  /-- All of them are kept. -/
  | keep
  deriving DecidableEq

/-- The head of a block. -/
structure BlockHead where
  /-- What happens to the breaks at the end. -/
  chomping : Chomping
  /-- The additional indentation, if it is given. -/
  increment : Option Nat

/-- The chomping that a sign stands for. -/
def chomping? (c : Char) : Option Chomping :=
  if c = '+' then some .keep else if c = '-' then some .strip else none

/-- Read the head of a block: a sign and a digit in either order, both optional.
The digit may not be zero. -/
def readBlockHead (text : List Spot) : Option (BlockHead × List Spot) :=
  let digit (c : Char) : Nat := c.toNat - '0'.toNat
  let first := ahead 0 text
  let second := ahead 1 text
  match chomping? first with
  | some chomping =>
    if second = '0' then none
    else if second.isDigit then some (⟨chomping, some (digit second)⟩, text.drop 2)
    else some (⟨chomping, none⟩, text.drop 1)
  | none =>
    if first = '0' then none
    else if first.isDigit then
      match chomping? second with
      | some chomping => some (⟨chomping, some (digit first)⟩, text.drop 2)
      | none => some (⟨.clip, some (digit first)⟩, text.drop 1)
    else some (⟨.clip, none⟩, text)

/-- Eat indentation and empty lines: the widest indentation met, the breaks
backwards, and what follows. An indentation of zero is not known yet. -/
def eatBreaks (indent : Nat) : Nat → List Char → List Spot → Option (Nat × List Char × List Spot)
  | widest, breaks, [] => some (widest, breaks, [])
  | widest, breaks, s :: rest =>
    let inside := indent = 0 || s.column < indent
    if inside && s.char = ' ' then eatBreaks indent widest breaks rest
    else if inside && s.char = '\t' then none
    else if isBreak s.char then eatBreaks indent (max widest s.column) (s.char :: breaks) rest
    else some (max widest s.column, breaks, s :: rest)

/-- A block that is being read. -/
structure BlockText where
  /-- The text so far, backwards. -/
  text : List Char
  /-- The break after the last line, if there is one. -/
  lastBreak : Option Char
  /-- The breaks of empty lines after that, backwards. -/
  emptyLines : List Char
  /-- Whether the last line started with a blank. -/
  ledByBlank : Bool

/-- The breaks before a line, backwards: in a folded block a single one between
lines that do not start with blanks becomes a space, and the first of several is
dropped. -/
def BlockText.breaksBefore (b : BlockText) (literal ledByBlank : Bool) : List Char :=
  if !literal && b.lastBreak = some '\n' && !b.ledByBlank && !ledByBlank then
    if b.emptyLines.isEmpty then [' '] else b.emptyLines
  else b.emptyLines ++ b.lastBreak.toList

/-- Read the lines of a block that are indented as far as its first, at most
`fuel` of them. -/
def readBlockLines (literal : Bool) (indent : Nat) : Nat → BlockText → List Spot →
    Option (BlockText × List Spot)
  | 0, b, text => some (b, text)
  | fuel + 1, b, text =>
    match text with
    | [] => some (b, [])
    | s :: rest =>
      if s.column = indent && !isEnd s.char then do
        let ledByBlank := isSpaceOrTab s.char
        let (line, after) := lineSpan (s :: rest)
        let written := (chars line).reverse ++ b.breaksBefore literal ledByBlank ++ b.text
        let (lastBreak, after) := match after with
          | e :: others => if isBreak e.char then (some e.char, others) else (none, e :: others)
          | [] => (none, [])
        let (_, breaks, after) ← eatBreaks indent 0 [] after
        readBlockLines literal indent fuel ⟨written, lastBreak, breaks, ledByBlank⟩ after
      else some (b, s :: rest)

/-- The text of a block with the breaks at its end. -/
def BlockText.result (b : BlockText) (chomping : Chomping) : String :=
  let ending := match chomping with
    | .strip => []
    | .clip => b.lastBreak.toList
    | .keep => b.emptyLines ++ b.lastBreak.toList
  String.ofList (ending ++ b.text).reverse

/-- Read a block after its mark, where `parent` is the indentation around it. -/
def readBlock (literal : Bool) (parent : Int) (text : List Spot) :
    Option (String × List Spot) := do
  let (head, afterHead) ← readBlockHead text
  let body ← finishLine afterHead
  let given := match head.increment with
    | some n => if 0 ≤ parent then parent.toNat + n else n
    | none => 0
  let (widest, breaks, after) ← eatBreaks given 0 [] body
  let indent := if given = 0 then max (max widest (parent + 1).toNat) 1 else given
  let (block, rest) ← readBlockLines literal indent text.length ⟨[], none, breaks, false⟩ after
  return (block.result head.chomping, rest)

end TypedClient.Yaml
