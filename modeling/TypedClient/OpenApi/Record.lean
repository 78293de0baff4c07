import TypedClient.Error
import TypedClient.Json.Text
import TypedClient.Text.Visible

/-!
# Reading records

A record is read from an object, whose unknown members are passed over, or from
a list that holds its fields by position. Members are read in document order,
and the first one that is not as expected ends the reading with the place where
it stands.
-/

namespace TypedClient.OpenApi

/-- One step from a value to a part of it. -/
inductive Step where
  /-- To a member. -/
  | member (key : String)
  /-- To an element. -/
  | element (index : Nat)

/-- A part of a document that is not as expected. -/
structure Mismatch where
  /-- Where it stands, from the value that was to be read. -/
  steps : List Step
  /-- What is wrong with it. -/
  message : String

/-- The text of steps that come after others. -/
def stepsTextAfter : List Step → String
  | [] => ""
  | .member key :: rest => "/" ++ key ++ stepsTextAfter rest
  | .element index :: rest => "[" ++ toString index ++ "]" ++ stepsTextAfter rest

/-- The text of steps: a slash before each member, and before an element when it
comes first. -/
def stepsText (steps : List Step) : String :=
  match steps with
  | .element _ :: _ => "/" ++ stepsTextAfter steps
  | _ => stepsTextAfter steps

/-- A mismatch inside the value at `pointer` as a failure. -/
def Mismatch.toFailure (pointer : String) (m : Mismatch) : Failure :=
  .invalidDocument (pointer ++ stepsText m.steps) m.message

/-- Reading a value as something. -/
abbrev Reader (α : Type) := Json → Except Mismatch α

/-- How a value is called in a message. -/
def kindText : Json → String
  | .null => "null"
  | .bool b => "boolean `" ++ (if b then "true" else "false") ++ "`"
  | .number (.integer n) => "integer `" ++ toString n ++ "`"
  | .number (.float x) => "floating point `" ++ x.text ++ "`"
  | .string text => "string " ++ Text.visiblyQuoted text
  | .array _ => "sequence"
  | .object _ => "map"

/-- The mismatch of a value that is not of the expected kind. -/
def wrongKind {α : Type} (expected : String) (value : Json) : Except Mismatch α :=
  .error ⟨[], "invalid type: " ++ kindText value ++ ", expected " ++ expected⟩

/-- Say that a mismatch stands one step further down. -/
def within {α : Type} (step : Step) (result : Except Mismatch α) : Except Mismatch α :=
  match result with
  | .ok a => .ok a
  | .error m => .error { m with steps := step :: m.steps }

/-- Read a text. -/
def text : Reader String
  | .string text => .ok text
  | value => wrongKind "a string" value

/-- Read a truth value. -/
def truth : Reader Bool
  | .bool b => .ok b
  | value => wrongKind "a boolean" value

/-- Read the members of an object. -/
def members : Reader (List (String × Json))
  | .object members => .ok members
  | value => wrongKind "a map" value

/-- Read any value. -/
def anything : Reader Json := .ok

/-- Read null as absent. -/
def nullable {α : Type} (read : Reader α) : Reader (Option α)
  | .null => .ok none
  | value => (read value).map some

/-- Read elements from a position on. -/
def elementsFrom {α : Type} (read : Reader α) : Nat → List Json → Except Mismatch (List α)
  | _, [] => .ok []
  | index, value :: rest => do
    let first ← within (.element index) (read value)
    return first :: (← elementsFrom read (index + 1) rest)

/-- Read a list. -/
def listOf {α : Type} (read : Reader α) : Reader (List α)
  | .array elements => elementsFrom read 0 elements
  | value => wrongKind "a sequence" value

/-- A field of a record `ρ`. -/
structure Slot (ρ : Type) where
  /-- The name of the member. -/
  name : String
  /-- Whether a list may end before the field. -/
  hasDefault : Bool
  /-- Read the value and store it. -/
  store : Json → ρ → Except Mismatch ρ

/-- A field whose value is read and then stored. -/
def slot {ρ α : Type} (name : String) (hasDefault : Bool) (read : Reader α) (put : α → ρ → ρ) :
    Slot ρ :=
  ⟨name, hasDefault, fun value record => (read value).map fun a => put a record⟩

/-- Store the members of an object in document order. -/
def storeMembers {ρ : Type} (slots : List (Slot ρ)) : List (String × Json) → ρ → Except Mismatch ρ
  | [], record => .ok record
  | (key, value) :: rest, record =>
    match slots.find? (·.name = key) with
    | some s => (within (.member key) (s.store value record)).bind (storeMembers slots rest)
    | none => storeMembers slots rest record

/-- Store elements by position, where `count` of `total` fields come before. -/
def storeElements {ρ : Type} (title : String) (total length : Nat) :
    Nat → List (Slot ρ) → List Json → ρ → Except Mismatch ρ
  | _, [], [], record => .ok record
  | _, [], _ :: _, _ =>
    .error ⟨[], "invalid length " ++ toString length ++ ", expected fewer elements in array"⟩
  | count, s :: slots, [], record =>
    if s.hasDefault then storeElements title total length (count + 1) slots [] record
    else
      .error ⟨[], "invalid length " ++ toString count ++ ", expected struct " ++ title ++
        " with " ++ toString total ++ " elements"⟩
  | count, s :: slots, value :: rest, record =>
    (within (.element count) (s.store value record)).bind
      (storeElements title total length (count + 1) slots rest)

/-- Read a record, starting from the one that holds the defaults. -/
def recordOf {ρ : Type} (title : String) (slots : List (Slot ρ)) (defaults : ρ) : Reader ρ
  | .object members => storeMembers slots members defaults
  | .array elements => storeElements title slots.length elements.length 0 slots elements defaults
  | value => wrongKind ("struct " ++ title) value

end TypedClient.OpenApi
