import PMachine.Machine

/-!
# Output fields

Values are written to the right end of a field. A value longer than its field is written in full,
except that character data is cut to the field.

* `Field.integer`, `Field.real`, `Field.character`, `Field.string`: the bytes of a field.
-/

namespace PMachine

namespace Field

/-- The blank. -/
def blank : UInt8 := 32

/-- Bytes at the right end of a field. -/
def right (width : Nat) (bytes : List UInt8) : List UInt8 := List.leftpad width blank bytes

/-- The bytes of characters that are all ASCII. -/
def ascii (cs : List Char) : List UInt8 := cs.map fun c => UInt8.ofNat c.toNat

/-- Reals in output: exponents bear a sign and have two digits or more. -/
def realLayout : Decimal.Layout where
  nan := "nan"
  signedExponent := true
  exponentWidth := 2

/-- The decimal digits of an integer, with a sign if it is negative. -/
def decimal (n : Int) : List Char :=
  let digits := Nat.toDigits 10 n.natAbs
  if n < 0 then '-' :: digits else digits

/-- An integer in a field. -/
def integer (width : Nat) (n : Word) : List UInt8 := right width (ascii (decimal n.toInt))

/-- A real in a field. -/
def real (width : Nat) (x : Binary64) : List UInt8 := right width (ascii (x.chars realLayout))

/-- A character in a field. -/
def character (width : Nat) (b : UInt8) : List UInt8 := right width [b]

/-- Character data in a field; what does not fit is left out by the caller. -/
def string (width length : Nat) (bytes : List UInt8) : List UInt8 :=
  List.replicate (width - length) blank ++ bytes

end Field

namespace Cell

/-- The field width in a cell; a negative one counts as zero. -/
def asWidth (c : Cell) : Except Fault Nat := do
  let n ← c.asInt
  return n.count

/-- The character in a cell: a code from 0 to 255. -/
def asCharacter (c : Cell) : Except Fault UInt8 := do
  let n ← c.asInt
  if 0 ≤ n.toInt ∧ n.toInt < 256 then .ok (UInt8.ofNat n.toInt.toNat) else .error .characterCode

end Cell

namespace Machine

/-- The characters in `n` cells from an address on. -/
def characters : (n : Nat) → (a : Nat) → Action Machine (List UInt8)
  | 0, _ => return []
  | n + 1, a => do
    let c ← read a
    let b ← Action.lift c.asCharacter
    let more ← characters n (a + 1)
    return b :: more

end Machine

end PMachine
