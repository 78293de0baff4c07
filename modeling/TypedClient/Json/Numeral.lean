import TypedClient.Json.Basic
import TypedClient.Number.Unsigned

/-!
# Numerals

A numeral is a sign, whole digits, and possibly a fraction and an exponent. One
with neither that fits into 64 bits is an integer. Any other is a floating-point
number that is rounded twice: its leading digits, as many as fit into an
unsigned 64-bit word, give the nearest number, and that is multiplied or divided
by the nearest number to a power of ten.
-/

namespace TypedClient

/-- The parts of a numeral; the digit lists of parts that are present are not empty. -/
structure Numeral where
  /-- Whether a minus sign comes first. -/
  negative : Bool
  /-- The digits before the decimal point. -/
  whole : List Char
  /-- The digits after the decimal point, if there is one. -/
  fraction : Option (List Char)
  /-- The sign of the exponent (true for minus) and its digits, if there is one. -/
  exponent : Option (Bool × List Char)

namespace Numeral

/-- The largest unsigned 64-bit word. -/
def greatestWord : Nat := Nat.pow 2 64 - 1

/-- Append digits to a significand while it stays within a word; the digits that
did not fit are handed back. -/
def absorb (significand : Nat) : List Char → Nat × List Char
  | [] => (significand, [])
  | d :: rest =>
    let longer := 10 * significand + (d.toNat - '0'.toNat)
    if greatestWord < longer then (significand, d :: rest) else absorb longer rest

/-- Largest power of ten that a floating-point number can be near to. -/
def greatestPower : Nat := 308

/-- The number nearest to `10 ^ power`, where the power is at most 308. -/
def powerOfTen (power : Nat) : Binary64 :=
  (Binary64.nearest false (Nat.pow 10 power) 1).getD (Binary64.zero false)

/-- Divide by `10 ^ power` in steps of at most 308 places. Three such steps bring
every word to zero. -/
def scaleDown (x : Binary64) (power : Nat) : Nat → Option Binary64
  | 0 => some (Binary64.zero false)
  | steps + 1 =>
    if power ≤ greatestPower then x.div? (powerOfTen power)
    else if x.isZero then some x
    else (x.div? (powerOfTen greatestPower)).bind (scaleDown · (power - greatestPower) steps)

/-- Scale a word by a power of ten, with one rounding before and one after. -/
def scaled? (significand : Nat) (power : Int) : Option Binary64 :=
  (Binary64.ofNat? significand).bind fun x =>
    if 0 ≤ power then
      if power.toNat ≤ greatestPower then x.mul? (powerOfTen power.toNat)
      else if x.isZero then some x else none
    else scaleDown x (-power).toNat 5

/-- The power of ten that a written exponent stands for. -/
def exponentValue : Option (Bool × List Char) → Int
  | none => 0
  | some (negative, digits) =>
    if negative then -(digitsValue digits : Int) else digitsValue digits

/-- The floating-point value, or `none` when it is out of range. -/
def float? (n : Numeral) : Option Binary64 :=
  let (first, dropped) := absorb 0 n.whole
  let fraction := n.fraction.getD []
  let (significand, unused) := absorb first fraction
  let power : Int := dropped.length + unused.length - fraction.length + exponentValue n.exponent
  (scaled? significand power).map fun x => if n.negative then x.neg else x

/-- The value of a numeral, or `none` when it is out of range. -/
def value? (n : Numeral) : Option Number :=
  let magnitude := digitsValue n.whole
  let isWhole := n.fraction.isNone && n.exponent.isNone
  if isWhole && !n.negative && magnitude ≤ greatestWord then some (.integer magnitude)
  else if isWhole && n.negative && magnitude ≠ 0 && magnitude ≤ Nat.pow 2 63 then
    some (.integer (-(magnitude : Int)))
  else n.float?.map .float

end Numeral

end TypedClient
