import PMachine.Word

/-!
# Reals

A real is a 64-bit binary floating-point number, held by its bits: two zeros and every
not-a-number pattern are told apart as constants, while comparison goes by value.

* `Binary64.magnitude`: a finite real as an integer times a power of two.
* `Binary64.truncate?`: the integer part of a finite real, computed exactly.
* `Binary64.order?`: the order of two reals, absent if either is not a number.
-/

namespace PMachine

/-- A real number of the machine. -/
structure Binary64 where
  /-- The sign bit, eleven exponent bits and fifty-two fraction bits. -/
  bits : UInt64
deriving DecidableEq, Repr

namespace Binary64

/-- The real with the value of a hardware number. -/
def ofFloat (f : Float) : Binary64 := ⟨f.toBits⟩

/-- The hardware number with the value of a real. -/
def toFloat (x : Binary64) : Float := Float.ofBits x.bits

/-- Positive zero. -/
def zero : Binary64 := ⟨0⟩

/-- Positive infinity. -/
def infinity : Binary64 := ⟨0x7FF0000000000000⟩

instance : Inhabited Binary64 := ⟨zero⟩

/-- Whether the sign bit is set. -/
def isNegative (x : Binary64) : Bool := 0x8000000000000000 ≤ x.bits

/-- The exponent bits, as a number. -/
def exponentBits (x : Binary64) : Nat := ((x.bits >>> 52) &&& 0x7FF).toNat

/-- The fraction bits, as a number. -/
def fractionBits (x : Binary64) : Nat := (x.bits &&& 0xFFFFFFFFFFFFF).toNat

/-- Neither infinite nor undefined. -/
def isFinite (x : Binary64) : Bool := x.exponentBits ≠ 2047

/-- Not a number. -/
def isNaN (x : Binary64) : Bool := x.exponentBits = 2047 ∧ x.fractionBits ≠ 0

/-- Either of the two zeros. -/
def isZero (x : Binary64) : Bool := x.exponentBits = 0 ∧ x.fractionBits = 0

/-- The absolute value `scale * 2 ^ power` of a finite real. -/
structure Magnitude where
  scale : Nat
  power : Int
  /-- The next lower real is half as far away as the next higher one. -/
  narrowBelow : Bool

/-- The absolute value of a finite real. -/
def magnitude (x : Binary64) : Magnitude :=
  if x.exponentBits = 0 then ⟨x.fractionBits, -1074, false⟩
  else ⟨0x10000000000000 + x.fractionBits, (x.exponentBits : Int) - 1075,
    x.fractionBits = 0 ∧ 1 < x.exponentBits⟩

/-- The integer part of a magnitude. -/
def Magnitude.floor (m : Magnitude) : Nat :=
  m.scale * Nat.pow 2 m.power.toNat / Nat.pow 2 (-m.power).toNat

/-- The integer part of a real, toward zero, or `none` if it is not finite. -/
def truncate? (x : Binary64) : Option Int :=
  if x.isFinite then
    let n : Int := x.magnitude.floor
    some (if x.isNegative then -n else n)
  else none

/-- The real nearest to an integer; a tie goes to the even neighbour. -/
def ofWord (n : Word) : Binary64 := ofFloat (Float.ofInt n.toInt)

/-- The real with the opposite sign. -/
def neg (x : Binary64) : Binary64 := ⟨x.bits ^^^ 0x8000000000000000⟩

/-- The real without its sign. -/
def abs (x : Binary64) : Binary64 := ⟨x.bits &&& 0x7FFFFFFFFFFFFFFF⟩

/-- The sum, rounded once. -/
def add (x y : Binary64) : Binary64 := ofFloat (x.toFloat + y.toFloat)

/-- The difference, rounded once. -/
def sub (x y : Binary64) : Binary64 := ofFloat (x.toFloat - y.toFloat)

/-- The product, rounded once. -/
def mul (x y : Binary64) : Binary64 := ofFloat (x.toFloat * y.toFloat)

/-- The quotient, rounded once. -/
def div (x y : Binary64) : Binary64 := ofFloat (x.toFloat / y.toFloat)

/-- Applies a function of hardware numbers. -/
def map (f : Float → Float) (x : Binary64) : Binary64 := ofFloat (f x.toFloat)

/-- Equality of values: the two zeros are equal, and what is not a number equals nothing. -/
def sameValue (x y : Binary64) : Bool := x.toFloat == y.toFloat

/-- The order of two values, or `none` if either is not a number. -/
def order? (x y : Binary64) : Option Ordering :=
  if x.toFloat < y.toFloat then some .lt
  else if y.toFloat < x.toFloat then some .gt
  else if x.sameValue y then some .eq
  else none

end Binary64

end PMachine
