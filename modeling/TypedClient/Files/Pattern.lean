import TypedClient.Files.Path

/-!
# Patterns for paths

A pattern is a path in which `?` stands for a character, `*` for any characters,
a bracket for one character of some or of all others, and a part that is `**`
for any number of folders. A pattern that is not well formed says where it is
not, counted in characters from its start.
-/

namespace TypedClient.Files

/-- Some characters. -/
inductive CharRange where
  /-- One character. -/
  | single (c : Char)
  /-- All characters from one to another. -/
  | span (first last : Char)
  deriving DecidableEq, Repr

/-- Whether a character is one of a range. -/
def CharRange.contains (range : CharRange) (c : Char) : Bool :=
  match range with
  | .single d => c == d
  | .span first last => first ≤ c && c ≤ last

/-- A piece of a pattern. -/
inductive Piece where
  /-- The character itself. -/
  | char (c : Char)
  /-- Any one character. -/
  | anyChar
  /-- Any characters. -/
  | anyText
  /-- Any number of folders. -/
  | anyFolders
  /-- One character of some ranges. -/
  | within (ranges : List CharRange)
  /-- One character of none of some ranges. -/
  | except (ranges : List CharRange)
  deriving DecidableEq, Repr

/-- What is wrong with a pattern. -/
inductive PatternFlaw where
  /-- More than two stars in a row. -/
  | manyStars
  /-- Two stars that are not a whole part. -/
  | starsInsidePart
  /-- A bracket that is not closed. -/
  | openBracket
  deriving DecidableEq, Repr

/-- Where a pattern is not well formed, and why. -/
structure PatternError where
  /-- How many characters are before the place. -/
  position : Nat
  /-- What is wrong there. -/
  flaw : PatternFlaw
  deriving DecidableEq, Repr

/-- The wording of a flaw. -/
def PatternFlaw.message : PatternFlaw → String
  | .manyStars => "wildcards are either regular `*` or recursive `**`"
  | .starsInsidePart => "recursive wildcards must form a single path component"
  | .openBracket => "invalid range pattern"

/-- The wording of an error in a pattern. -/
def PatternError.message (e : PatternError) : String :=
  "Pattern syntax error near position " ++ toString e.position ++ ": " ++ e.flaw.message

namespace Piece

/-- The ranges that are written between brackets. -/
def ranges : List Char → List CharRange
  | first :: '-' :: last :: rest => .span first last :: ranges rest
  | c :: rest => .single c :: ranges rest
  | [] => []

/-- The contents of a bracket whose first character is written, and how many
characters they and the closing bracket take. At least one character is inside. -/
def bracket? (text : List Char) : Option (List Char × Nat) :=
  match text with
  | [] => none
  | first :: rest =>
    let inside := rest.takeWhile (· != ']')
    if inside.length < rest.length then some (first :: inside, inside.length + 2) else none

/-- The piece that a bracket is, and how many characters follow the one that
opens it. -/
def ofBracket? (text : List Char) : Option (Piece × Nat) :=
  match text with
  | '!' :: rest => (bracket? rest).map fun (inside, length) => (.except (ranges inside), length + 1)
  | rest => (bracket? rest).map fun (inside, length) => (.within (ranges inside), length)

/-- The pieces of the rest of a pattern, when `skip` more characters belong to
the piece before, `position` characters are before the rest, and `previous` is
the last one of them. -/
def scan : Nat → Nat → Option Char → List Char → Except PatternError (List Piece)
  | _, _, _, [] => .ok []
  | skip + 1, position, _, c :: rest => scan skip (position + 1) (some c) rest
  | 0, position, previous, c :: rest =>
    if c = '?' then do return .anyChar :: (← scan 0 (position + 1) (some c) rest)
    else if c = '*' then
      match (rest.takeWhile (· == '*')).length with
      | 0 => do return .anyText :: (← scan 0 (position + 1) (some c) rest)
      | 1 =>
        if previous = none || previous = some '/' then
          match rest.drop 1 with
          | [] => do return .anyFolders :: (← scan 1 (position + 1) (some c) rest)
          | '/' :: _ => do return .anyFolders :: (← scan 2 (position + 1) (some c) rest)
          | _ => .error ⟨position + 2, .starsInsidePart⟩
        else .error ⟨position - 1, .starsInsidePart⟩
      | _ => .error ⟨position + 2, .manyStars⟩
    else if c = '[' then
      match ofBracket? rest with
      | some (piece, length) => do return piece :: (← scan length (position + 1) (some c) rest)
      | none => .error ⟨position, .openBracket⟩
    else do return .char c :: (← scan 0 (position + 1) (some c) rest)

/-- Whether a piece stands for one character, and for this one. -/
def accepts (piece : Piece) (c : Char) : Bool :=
  match piece with
  | .char d => c == d
  | .anyChar => true
  | .anyText | .anyFolders => false
  | .within ranges => ranges.any (·.contains c)
  | .except ranges => !ranges.any (·.contains c)

/-- Whether a piece stands for any number of characters. -/
def isOpen (piece : Piece) : Bool := piece == .anyText || piece == .anyFolders

/-- A text and the ends of it, the longest first. -/
def ends : List Char → List (List Char)
  | [] => [[]]
  | c :: rest => (c :: rest) :: ends rest

/-- Whether pieces are a pattern of a whole name. -/
def matchesAll : List Piece → List Char → Bool
  | [], text => text.isEmpty
  | piece :: pieces, text =>
    if piece.isOpen then (ends text).any fun rest => matchesAll pieces rest
    else
      match text with
      | [] => false
      | c :: rest => piece.accepts c && matchesAll pieces rest

/-- For each end of a list, whether a flag is set in it. -/
def anyLater : List Bool → List Bool
  | [] => []
  | flag :: rest =>
    let later := anyLater rest
    (flag || later.headD false) :: later

/-- For each end of a text, whether the piece stands for its first character and the
flag of the next end is set. -/
def oneThen (piece : Piece) : List Char → List Bool → List Bool
  | c :: text, _ :: flags => (piece.accepts c && flags.headD false) :: oneThen piece text flags
  | _, _ => [false]

/-- For each end of a text, whether the pieces are a pattern of it. The flags of the
pieces that follow one piece give its own, so no end is tried twice. -/
def matchesEnds (text : List Char) : List Piece → List Bool
  | [] => (ends text).map List.isEmpty
  | piece :: pieces =>
    let flags := matchesEnds text pieces
    if piece.isOpen then anyLater flags else piece.oneThen text flags

theorem headD_map_ends (f : List Char → Bool) (text : List Char) :
    ((ends text).map f).headD false = f text := by
  cases text <;> rfl

theorem anyLater_map_ends (f : List Char → Bool) (text : List Char) :
    anyLater ((ends text).map f) = (ends text).map fun rest => (ends rest).any f := by
  induction text with
  | nil => simp [ends, anyLater]
  | cons c rest ih =>
    rw [ends, List.map_cons, anyLater, ih, headD_map_ends, List.map_cons, ends, List.any_cons]

theorem oneThen_map_ends (piece : Piece) (f : List Char → Bool) (text : List Char) :
    piece.oneThen text ((ends text).map f) = (ends text).map fun rest =>
      match rest with
      | [] => false
      | c :: rest => piece.accepts c && f rest := by
  induction text with
  | nil => rfl
  | cons c rest ih =>
    rw [ends, List.map_cons, oneThen, ih, headD_map_ends, List.map_cons]

/-- The flags say of each end whether the pieces are a pattern of it. -/
theorem matchesEnds_eq_map (text : List Char) (pieces : List Piece) :
    matchesEnds text pieces = (ends text).map (matchesAll pieces) := by
  induction pieces with
  | nil => exact List.map_congr_left fun rest _ => by rw [matchesAll]
  | cons piece pieces ih =>
    rw [matchesEnds, ih]
    cases h : piece.isOpen
    · rw [if_neg (by simp), oneThen_map_ends]
      exact List.map_congr_left fun rest _ => by cases rest <;> simp [matchesAll, h]
    · rw [if_pos rfl, anyLater_map_ends]
      exact List.map_congr_left fun rest _ => by simp [matchesAll, h]

/-- Whether pieces are a pattern of a name, from the flags of its ends. -/
def isPatternOf (pieces : List Piece) (name : List Char) : Bool :=
  (matchesEnds name pieces).headD false

theorem isPatternOf_eq_matchesAll (pieces : List Piece) (name : List Char) :
    isPatternOf pieces name = matchesAll pieces name := by
  rw [isPatternOf, matchesEnds_eq_map, headD_map_ends]

end Piece

/-- A part of a pattern between slashes. -/
inductive PatternPart where
  /-- Any number of folders. -/
  | folders
  /-- One name, without anything that stands for other characters. -/
  | name (text : String)
  /-- Names that have a pattern. -/
  | names (pieces : List Piece)
  deriving DecidableEq, Repr

namespace PatternPart

/-- The text of pieces that are all characters. -/
def literal? : List Piece → Option (List Char)
  | [] => some []
  | .char c :: rest => (literal? rest).map (c :: ·)
  | _ => none

/-- The part that pieces make up. -/
def ofPieces (pieces : List Piece) : PatternPart :=
  if pieces.contains .anyFolders then .folders
  else
    match literal? pieces with
    | some text => .name (String.ofList text)
    | none => .names pieces

/-- Whether a part stands for any number of folders. -/
def isFolders (part : PatternPart) : Bool := part == .folders

/-- Whether a name is one of those that a part stands for. -/
def accepts (part : PatternPart) (name : String) : Bool :=
  match part with
  | .folders => true
  | .name text => name == text
  | .names pieces => Piece.isPatternOf pieces name.toList

/-- Whether a part asks for names that start with a dot. -/
def startsWithDot (part : PatternPart) : Bool :=
  match part with
  | .names (.char '.' :: _) => true
  | _ => false

end PatternPart

/-- A pattern for paths. -/
structure Pattern where
  /-- Whether paths start at the root. -/
  rooted : Bool
  /-- The parts, from the start on. -/
  parts : List PatternPart
  /-- Whether only folders are meant. -/
  onlyFolders : Bool
  deriving DecidableEq, Repr

namespace Pattern

/-- Whether a location is a pattern, rather than a path as it stands. -/
def isPattern (text : String) : Bool := text.toList.any fun c => c = '*' || c = '?' || c = '['

/-- The parts of a text between slashes. A slash at the end starts no part. -/
def partsOf (text : List Char) : List (List Char) :=
  let parts := Text.splitAt '/' text
  if parts.getLast? = some [] then parts.dropLast else parts

/-- Read a pattern. The text as a whole has to be well formed, and so has each of
its parts. -/
def ofText (text : String) : Except PatternError Pattern := do
  let _ ← Piece.scan 0 0 none text.toList
  let rooted := text.toList.head? == some '/'
  let parts ← (partsOf (if rooted then text.toList.drop 1 else text.toList)).mapM
    (Piece.scan 0 0 none)
  return ⟨rooted, parts.map PatternPart.ofPieces, text.toList.getLast? == some '/'⟩

end Pattern

end TypedClient.Files
