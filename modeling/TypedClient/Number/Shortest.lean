import TypedClient.Number.Binary64

/-!
# Shortest decimal digits

The decimal spelling of a number has the fewest digits among those that read
back as the number; of two spellings with equally many digits the nearer one is
taken, and of two equally near ones the even one. The numbers that read back as
`x` are those of an interval around it, whose ends belong to it exactly when
the significand is even.
-/

namespace TypedClient.Binary64

/-- Digits and a power of ten: the value `digits · 10 ^ power`. -/
structure Decimal where
  /-- The digits as one natural number, without trailing zeros. -/
  digits : Nat
  /-- The power of ten of the last digit. -/
  power : Int
  deriving DecidableEq, Repr

/-- The interval of reals that round to a number, as numerators over one common
denominator. -/
structure Interval where
  /-- Numerator of the number itself. -/
  centre : Nat
  /-- Numerator of the lower end. -/
  low : Nat
  /-- Numerator of the upper end. -/
  high : Nat
  /-- The common denominator. -/
  denominator : Nat
  /-- Whether the two ends round to the number. -/
  closed : Bool

/-- The rounding interval of a positive number. Below a power of two the
neighbour is only half as far away. -/
def interval (x : Binary64) : Interval :=
  let narrow := x.significand == Nat.pow 2 52 && leastExponent < x.exponent
  let centre := 4 * x.significand
  let low := centre - (if narrow then 1 else 2)
  let high := centre + 2
  let e := x.exponent - 2
  let scale := if 0 ≤ e then Nat.pow 2 e.toNat else 1
  let denominator := if 0 ≤ e then 1 else Nat.pow 2 (-e).toNat
  ⟨centre * scale, low * scale, high * scale, denominator, x.significand % 2 == 0⟩

/-- Whether the grid point `n / d` lies in the interval. -/
def Interval.holds (i : Interval) (n d : Nat) : Bool :=
  let a := n * i.denominator
  if i.closed then i.low * d ≤ a && a ≤ i.high * d else i.low * d < a && a < i.high * d

/-- The point of the grid of `10 ^ power` that lies in the interval and is
nearest to its centre, if any does. Only the two neighbours of the centre need
to be tried, because the interval holds its centre. -/
def Interval.gridPoint? (i : Interval) (power : Int) : Option Nat :=
  let up := if 0 ≤ power then Nat.pow 10 power.toNat else 1
  let down := if 0 ≤ power then 1 else Nat.pow 10 (-power).toNat
  let n := i.centre * down
  let d := i.denominator * up
  let below := n / d
  let rest := n % d
  let lowHolds := 0 < below && i.holds (below * up) down
  let highHolds := i.holds ((below + 1) * up) down
  if lowHolds && highHolds then
    some (if 2 * rest < d then below else if d < 2 * rest then below + 1 else below + below % 2)
  else if lowHolds then some below
  else if highHolds then some (below + 1)
  else none

/-- Remove trailing zeros, at most `fuel` of them. -/
def Decimal.stripZeros : Nat → Decimal → Decimal
  | 0, d => d
  | fuel + 1, d =>
    if d.digits ≠ 0 && d.digits % 10 = 0 then stripZeros fuel ⟨d.digits / 10, d.power + 1⟩ else d

/-- Try finer and finer grids: `fuel` of them, from `10 ^ power` downwards. -/
def Interval.coarsest (i : Interval) : Nat → Int → Decimal
  | 0, power => ⟨i.centre * Nat.pow 10 (-power).toNat / i.denominator, power⟩
  | fuel + 1, power =>
    match i.gridPoint? power with
    | some n => ⟨n, power⟩
    | none => coarsest i fuel (power - 1)

/-- The power of ten of the leading digit of `n / d`, or one less or more. -/
def leadingPower (n d : Nat) : Int :=
  ((Nat.toDigits 10 n).length : Int) - (Nat.toDigits 10 d).length

/-- The shortest digits that read back as the number; zero has the digit 0.
Seventeen digits always suffice, and the first grid tried is coarser than the
leading digit by two places. -/
def shortest (x : Binary64) : Decimal :=
  if x.isZero then ⟨0, 0⟩
  else
    let i := x.interval
    (i.coarsest 24 (leadingPower i.centre i.denominator + 2)).stripZeros 400

end TypedClient.Binary64
