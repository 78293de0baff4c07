/-!
# Unsigned numbers in decimal

Digits spell a number with the most significant one first. Where a number has to
fit in some bits it may have one plus sign in front and any number of zeros.
-/

namespace TypedClient

/-- The number that a list of decimal digits spells. -/
def digitsValue (digits : List Char) : Nat :=
  digits.foldl (fun n c => 10 * n + (c.toNat - '0'.toNat)) 0

/-- A text without the plus sign that it may start with. -/
def withoutPlus : List Char → List Char
  | '+' :: rest => rest
  | text => text

/-- Read an unsigned number of at most `bits` bits. -/
def unsigned? (bits : Nat) (text : List Char) : Option Nat :=
  let digits := withoutPlus text
  if digits.isEmpty || !digits.all Char.isDigit then none
  else if digitsValue digits < Nat.pow 2 bits then some (digitsValue digits)
  else none

/-- What is read fits in the bits. -/
theorem unsigned?_lt {bits value : Nat} {text : List Char} (h : unsigned? bits text = some value) :
    value < Nat.pow 2 bits := by
  unfold unsigned? at h
  simp only at h
  split at h
  · cases h
  · split at h
    · rename_i hlt
      cases h
      exact hlt
    · cases h

end TypedClient
