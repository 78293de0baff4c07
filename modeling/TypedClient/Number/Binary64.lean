/-!
# Binary floating-point numbers

A finite number of the 64-bit binary format, kept as a sign, a natural
significand and a power of two, so that all arithmetic on it is exact integer
arithmetic. Every result is the nearest number of the format, and of two that
are equally near the one with the even significand.
-/

namespace TypedClient

/-- The number `±significand · 2 ^ exponent`. In the numbers that this library
builds the exponent is at least -1074, the significand has at most 53 bits, and
it has fewer only at the least exponent. -/
structure Binary64 where
  /-- The sign, which zero has too. -/
  negative : Bool
  /-- The size in units of the last place. -/
  significand : Nat
  /-- The power of two that one unit of the last place is worth. -/
  exponent : Int
  deriving DecidableEq, Repr

namespace Binary64

/-- The power of two of the smallest positive number. -/
def leastExponent : Int := -1074

/-- The power of two of the last place in the largest finite numbers. -/
def greatestExponent : Int := 971

/-- Zero with the given sign. -/
def zero (negative : Bool) : Binary64 := ⟨negative, 0, leastExponent⟩

/-- Whether the number is one of the two zeros. -/
def isZero (x : Binary64) : Bool := x.significand == 0

/-- The number with its sign changed. -/
def neg (x : Binary64) : Binary64 := { x with negative := !x.negative }

/-- `numerator / denominator` to the nearest natural number, a half to the even one. -/
def roundQuotient (numerator denominator : Nat) : Nat :=
  let q := numerator / denominator
  let r := numerator % denominator
  if 2 * r < denominator then q else if denominator < 2 * r then q + 1 else q + q % 2

/-- `numerator / (denominator · 2 ^ e)` as a fraction of natural numbers. -/
def unscaled (numerator denominator : Nat) (e : Int) : Nat × Nat :=
  if 0 ≤ e then (numerator, denominator * Nat.pow 2 e.toNat)
  else (numerator * Nat.pow 2 (-e).toNat, denominator)

/-- The exponent at which a positive fraction has a 53-bit integer part, or the
least exponent if that is larger. -/
def exponentFor (numerator denominator : Nat) : Int :=
  let guess := max ((Nat.log2 numerator : Int) - Nat.log2 denominator - 53) leastExponent
  let (n, d) := unscaled numerator denominator guess
  if n / d < Nat.pow 2 53 then guess else guess + 1

/-- The number nearest to `±numerator / denominator`, or `none` when that lies
beyond the largest finite number. The denominator is positive. -/
def nearest (negative : Bool) (numerator denominator : Nat) : Option Binary64 :=
  if numerator = 0 then some (zero negative)
  else
    let e := exponentFor numerator denominator
    let (n, d) := unscaled numerator denominator e
    let m := roundQuotient n d
    let (m, e) := if m = Nat.pow 2 53 then (Nat.pow 2 52, e + 1) else (m, e)
    if greatestExponent < e then none else some ⟨negative, m, e⟩

/-- The nearest number to a natural number. -/
def ofNat? (n : Nat) : Option Binary64 := nearest false n 1

/-- The absolute value as a fraction. -/
def fraction (x : Binary64) : Nat × Nat :=
  if 0 ≤ x.exponent then (x.significand * Nat.pow 2 x.exponent.toNat, 1)
  else (x.significand, Nat.pow 2 (-x.exponent).toNat)

/-- The product, or `none` beyond the largest finite number. -/
def mul? (x y : Binary64) : Option Binary64 :=
  let (a, b) := x.fraction
  let (c, d) := y.fraction
  nearest (x.negative != y.negative) (a * c) (b * d)

/-- The quotient by a number that is not zero. -/
def div? (x y : Binary64) : Option Binary64 :=
  let (a, b) := x.fraction
  let (c, d) := y.fraction
  nearest (x.negative != y.negative) (a * d) (b * c)

/-- The number nearest to `±digits · 10 ^ power`. A power that is out of reach
whatever the digits are is settled by the count of digits, without computing it. -/
def ofDecimal? (negative : Bool) (digits : Nat) (power : Int) : Option Binary64 :=
  let leading : Int := (Nat.toDigits 10 digits).length + power
  if digits = 0 || leading < -330 then some (zero negative)
  else if 310 < leading then none
  else if 0 ≤ power then nearest negative (digits * Nat.pow 10 power.toNat) 1
  else nearest negative digits (Nat.pow 10 (-power).toNat)

/-- Numeric equality: the two zeros are equal. -/
def sameValue (x y : Binary64) : Bool := x == y || (x.isZero && y.isZero)

end Binary64

end TypedClient
