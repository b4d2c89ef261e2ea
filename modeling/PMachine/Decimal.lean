import PMachine.Binary64

/-!
# Decimals

Reals are read from decimal text and written as decimal text. Reading rounds a decimal to the
nearest real. Writing selects the decimal with the fewest digits that reads back as the same real,
by exact integer arithmetic.

* `Decimal.toBinary64`: the real nearest to a decimal.
* `Decimal.shortest`: the fewest digits that read back; of two candidates the nearer, and the
  larger if they are equally near.
-/

namespace PMachine

/-- The decimal number `±digits * 10 ^ exponent`. The sign is kept also for zero. -/
structure Decimal where
  negative : Bool
  digits : Nat
  exponent : Int
deriving DecidableEq, Repr

namespace Decimal

/-- The number of decimal digits of `n`; one for zero. -/
def digitCount (n : Nat) : Nat := (Nat.toDigits 10 n).length

/-- The real nearest to `digits * 10 ^ exponent`; a tie goes to the even neighbour. What lies
beyond all reals in size is infinite, and what is far below the least one is zero. -/
def nearest (digits : Nat) (exponent : Int) : Binary64 :=
  let top := exponent + digitCount digits
  if digits = 0 ∨ top < -330 then .zero
  else if 310 < top then .infinity
  else .ofFloat (Float.ofScientific digits (exponent < 0) exponent.natAbs)

/-- The real nearest to a decimal. -/
def toBinary64 (d : Decimal) : Binary64 :=
  let x := nearest d.digits d.exponent
  if d.negative then x.neg else x

/-! ### The fewest digits that read back -/

/-- Compares `a * 10 ^ i` with `n * 2 ^ j`. -/
def compareScaled (a : Nat) (i : Int) (n : Nat) (j : Int) : Ordering :=
  compare (a * Nat.pow 10 i.toNat * Nat.pow 2 (-j).toNat)
    (n * Nat.pow 2 j.toNat * Nat.pow 10 (-i).toNat)

/-- Whether `digits * 10 ^ exponent` rounds to the given magnitude: it lies between the midpoints
to the two neighbours, which belong to the interval if the scale is even. -/
def readsBack (m : Binary64.Magnitude) (digits : Nat) (exponent : Int) : Bool :=
  let low := if m.narrowBelow then 4 * m.scale - 1 else 4 * m.scale - 2
  let below := compareScaled digits exponent low (m.power - 2)
  let above := compareScaled digits exponent (4 * m.scale + 2) (m.power - 2)
  let even := m.scale % 2 = 0
  (below = .gt ∨ (even ∧ below = .eq)) ∧ (above = .lt ∨ (even ∧ above = .eq))

/-- The least `k` with `m < 10 ^ k`, for a nonzero magnitude. The logarithm of the power of two
below `m` is at most two steps off. -/
def decade (m : Binary64.Magnitude) : Int :=
  let estimate := (((m.scale.log2 : Int) + m.power) * 30103).fdiv 100000
  if compareScaled 1 estimate m.scale m.power = .gt then estimate
  else if compareScaled 1 (estimate + 1) m.scale m.power = .gt then estimate + 1
  else estimate + 2

/-- How often `10 ^ exponent` goes into a magnitude. -/
def multiples (m : Binary64.Magnitude) (exponent : Int) : Nat :=
  m.scale * Nat.pow 2 m.power.toNat * Nat.pow 10 (-exponent).toNat
    / (Nat.pow 2 (-m.power).toNat * Nat.pow 10 exponent.toNat)

/-- The multiple of `10 ^ exponent` that reads back as the magnitude, if there is one: the nearer of
its two neighbours, the upper one on a tie. -/
def onGrid (m : Binary64.Magnitude) (exponent : Int) : Option Nat :=
  let low := multiples m exponent
  match readsBack m low exponent, readsBack m (low + 1) exponent with
  | true, true =>
    -- twice the magnitude against the sum of the two neighbours
    if compareScaled (2 * low + 1) exponent (2 * m.scale) m.power = .gt then some low
    else some (low + 1)
  | true, false => some low
  | false, true => some (low + 1)
  | false, false => none

/-- Moves factors of ten from the digits into the exponent, at most `fuel` of them. -/
def stripZeros : Nat → Nat → Int → Nat × Int
  | 0, digits, exponent => (digits, exponent)
  | fuel + 1, digits, exponent =>
    if digits % 10 = 0 then stripZeros fuel (digits / 10) (exponent + 1) else (digits, exponent)

/-- The shortest decimal of a nonzero magnitude: digits without trailing zeros, and exponent.
Seventeen digits always suffice; the exact value stands in if they did not. -/
def shortest (m : Binary64.Magnitude) : Nat × Int :=
  let k := decade m
  let grids := (List.range 17).map fun n : Nat => k - 1 - (n : Int)
  match grids.findSome? fun e => (onGrid m e).map (·, e) with
  | some (digits, e) => stripZeros 17 digits e
  | none => (m.scale * Nat.pow 2 m.power.toNat * Nat.pow 5 (-m.power).toNat, min m.power 0)

/-- The shortest decimal that reads back as a finite real. -/
def ofBinary64 (x : Binary64) : Decimal :=
  if x.isZero then ⟨x.isNegative, 0, 0⟩
  else
    let (digits, exponent) := shortest x.magnitude
    ⟨x.isNegative, digits, exponent⟩

end Decimal

end PMachine
