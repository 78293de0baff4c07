import TypedClient.Number.Shortest

/-!
# Spelled numbers

How a number is written in a document: positional notation with at least one
decimal while the leading digit stands between the fifth decimal and the
sixteenth place, and scientific notation with a signed exponent otherwise.
-/

namespace TypedClient.Binary64

/-- Least power of ten of a leading digit that is written positionally. -/
def leastPositional : Int := -5

/-- Least power of ten of a leading digit that is written with an exponent again. -/
def beyondPositional : Int := 16

/-- The decimal digits of a natural number. -/
def decimalDigits (n : Nat) : List Char := Nat.toDigits 10 n

/-- Positional notation of digits whose first has the power of ten `lead`. -/
def positional (digits : List Char) (lead : Int) : List Char :=
  if lead < 0 then
    '0' :: '.' :: List.replicate (-lead - 1).toNat '0' ++ digits
  else
    let places := lead.toNat + 1
    let whole := digits.take places ++ List.replicate (places - digits.length) '0'
    let rest := digits.drop places
    whole ++ '.' :: (if rest.isEmpty then ['0'] else rest)

/-- Scientific notation: one digit, the others as decimals, a signed exponent. -/
def scientific (digits : List Char) (lead : Int) : List Char :=
  let mantissa := match digits with
    | [] => []
    | [d] => [d]
    | d :: rest => d :: '.' :: rest
  mantissa ++ 'e' :: (if lead < 0 then '-' else '+') :: decimalDigits lead.natAbs

/-- The text of a number: its shortest digits that read back. -/
def text (x : Binary64) : String :=
  let d := x.shortest
  let digits := decimalDigits d.digits
  let lead : Int := if x.isZero then 0 else d.power + digits.length - 1
  let body :=
    if leastPositional ≤ lead && lead < beyondPositional then positional digits lead
    else scientific digits lead
  String.ofList (if x.negative then '-' :: body else body)

end TypedClient.Binary64
