import PMachine.Decimal

/-!
# Written reals

A finite real is written with its shortest decimal, positionally where the leading digit stands for
a power of ten from `10 ^ -4` to `10 ^ 15`, and otherwise as a mantissa with an exponent. `Layout`
holds what two uses of this form decide differently.
-/

namespace PMachine

namespace Decimal

/-- The decisions of a written form. -/
structure Layout where
  /-- What stands for a value that is not a number. -/
  nan : String
  /-- Exponents that are not negative bear a plus sign. -/
  signedExponent : Bool
  /-- The least number of digits of an exponent. -/
  exponentWidth : Nat

/-- The decimal digits of `n`. -/
def digitText (n : Nat) : List Char := Nat.toDigits 10 n

/-- The power of ten of the leading digit. -/
def leadingPower (d : Decimal) : Int := d.exponent + digitCount d.digits - 1

/-- Positional form, always with a point and a digit on either side of it. -/
def positional (d : Decimal) : List Char :=
  let digits := digitText d.digits
  let power := d.leadingPower
  if 0 ≤ d.exponent then digits ++ List.replicate d.exponent.toNat '0' ++ ['.', '0']
  else if 0 ≤ power then digits.take (power.toNat + 1) ++ '.' :: digits.drop (power.toNat + 1)
  else '0' :: '.' :: List.replicate (-power - 1).toNat '0' ++ digits

/-- The exponent as the layout writes it. -/
def Layout.exponent (l : Layout) (e : Int) : List Char :=
  let digits := digitText e.natAbs
  let sign := if e < 0 then ['-'] else if l.signedExponent then ['+'] else []
  sign ++ List.replicate (l.exponentWidth - digits.length) '0' ++ digits

/-- Mantissa and exponent; the mantissa has a point only if it has more than one digit. -/
def scientific (l : Layout) (d : Decimal) : List Char :=
  let mantissa := match digitText d.digits with
    | c :: [] => [c]
    | c :: more => c :: '.' :: more
    | [] => []
  mantissa ++ 'e' :: l.exponent d.leadingPower

/-- A decimal with its sign, in positional form or with an exponent. -/
def written (l : Layout) (d : Decimal) : List Char :=
  let body :=
    if d.digits = 0 then ['0', '.', '0']
    else if -4 ≤ d.leadingPower ∧ d.leadingPower < 16 then d.positional
    else d.scientific l
  if d.negative then '-' :: body else body

end Decimal

namespace Binary64

/-- The written form of a real. -/
def chars (l : Decimal.Layout) (x : Binary64) : List Char :=
  if x.isNaN then l.nan.toList
  else if x.isFinite then (Decimal.ofBinary64 x).written l
  else if x.isNegative then ['-', 'i', 'n', 'f'] else ['i', 'n', 'f']

end Binary64

end PMachine
