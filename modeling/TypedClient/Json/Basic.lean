import TypedClient.Number.Text

/-!
# Document values

A document is a JSON value whose objects keep the order of their members. A
number is an integer within 64 bits or a binary floating-point number, and the
two never equal each other. Two objects are equal when they have the same
members in whatever order, which is why equality here is a test of its own and
not equality of the data.
-/

namespace TypedClient

/-- A number of a document. Integers range from -2^63 to 2^64 - 1. -/
inductive Number where
  /-- A number written without a fraction and without an exponent. -/
  | integer (value : Int)
  /-- Any other number. -/
  | float (value : Binary64)
  deriving DecidableEq, Repr

/-- A document value. -/
inductive Json where
  /-- The null value. -/
  | null
  /-- A truth value. -/
  | bool (value : Bool)
  /-- A number. -/
  | number (value : Number)
  /-- A text. -/
  | string (value : String)
  /-- A list of values. -/
  | array (elements : List Json)
  /-- Named members in the order in which they were first written. -/
  | object (members : List (String × Json))
  deriving Inhabited

namespace Number

/-- Equality of numbers: integers by value, floating-point numbers numerically. -/
def same : Number → Number → Bool
  | .integer a, .integer b => a == b
  | .float a, .float b => a.sameValue b
  | _, _ => false

/-- The text of a number. -/
def text : Number → String
  | .integer n => toString n
  | .float x => x.text

end Number

namespace Json

/-- The value of the first member named `key` in a list of members. -/
def find? (key : String) : List (String × Json) → Option Json
  | [] => none
  | (name, value) :: rest => if name = key then some value else find? key rest

/-- The member of an object named `key`; other values have no members. -/
def get? (value : Json) (key : String) : Option Json :=
  match value with
  | .object members => find? key members
  | _ => none

/-- The text, when the value is one. -/
def asString? : Json → Option String
  | .string text => some text
  | _ => none

/-- The elements, when the value is a list. -/
def asArray? : Json → Option (List Json)
  | .array elements => some elements
  | _ => none

/-- The members, when the value is an object. -/
def asObject? : Json → Option (List (String × Json))
  | .object members => some members
  | _ => none

/-- The truth value, when the value is one. -/
def asBool? : Json → Option Bool
  | .bool b => some b
  | _ => none

/-- Whether the value is null. -/
def isNull : Json → Bool
  | .null => true
  | _ => false

/-- Whether the value is a list or an object. -/
def isComposite : Json → Bool
  | .array _ | .object _ => true
  | _ => false

/-- Add a member at the end, or replace the value of the member of that name in
its place. -/
def insert (key : String) (value : Json) : List (String × Json) → List (String × Json)
  | [] => [(key, value)]
  | (name, old) :: rest =>
    if name = key then (name, value) :: rest else (name, old) :: insert key value rest

/-- The object made by adding the members one by one. -/
def ofMembers (members : List (String × Json)) : Json :=
  .object (members.foldl (fun acc (key, value) => insert key value acc) [])

mutual

/-- Equality of values. -/
def same : Json → Json → Bool
  | .null, .null => true
  | .bool a, .bool b => a == b
  | .number a, .number b => a.same b
  | .string a, .string b => a == b
  | .array a, .array b => sameElements a b
  | .object a, .object b => a.length == b.length && sameMembers a b
  | _, _ => false

/-- Equality of lists, position by position. -/
def sameElements : List Json → List Json → Bool
  | [], [] => true
  | a :: as, b :: bs => same a b && sameElements as bs
  | _, _ => false

/-- Whether every member of the first list has an equal one in the second. -/
def sameMembers : List (String × Json) → List (String × Json) → Bool
  | [], _ => true
  | (key, value) :: rest, others =>
    (match find? key others with
      | some other => same value other
      | none => false) && sameMembers rest others

end

instance : BEq Json := ⟨same⟩

/-- Looking up a key that was just inserted finds the inserted value. -/
@[simp] theorem find?_insert_self (key : String) (value : Json) (members : List (String × Json)) :
    find? key (insert key value members) = some value := by
  induction members with
  | nil => simp [insert, find?]
  | cons m rest ih =>
    obtain ⟨name, old⟩ := m
    by_cases h : name = key <;> simp [insert, find?, h, ih]

/-- Inserting a key leaves every other key as it was. -/
theorem find?_insert_of_ne {key other : String} (h : other ≠ key) (value : Json)
    (members : List (String × Json)) :
    find? other (insert key value members) = find? other members := by
  induction members with
  | nil => simp [insert, find?, h.symm]
  | cons m rest ih =>
    obtain ⟨name, old⟩ := m
    by_cases hn : name = key
    · subst hn
      simp [insert, find?, h.symm]
    · simp only [insert, if_neg hn, find?, ih]

/-- A member that is found is in the list. -/
theorem mem_of_find?_eq_some {key : String} {value : Json} {members : List (String × Json)}
    (h : find? key members = some value) : (key, value) ∈ members := by
  induction members with
  | nil => simp [find?] at h
  | cons m rest ih =>
    obtain ⟨name, old⟩ := m
    by_cases hn : name = key <;> simp_all [find?]

/-- A value found under a key is smaller than the list it was found in. -/
theorem sizeOf_find?_lt {key : String} {value : Json} {members : List (String × Json)}
    (h : find? key members = some value) : sizeOf value < sizeOf members := by
  have hm := List.sizeOf_lt_of_mem (mem_of_find?_eq_some h)
  have hp : sizeOf (key, value) = 1 + sizeOf key + sizeOf value := rfl
  omega

end Json

end TypedClient
