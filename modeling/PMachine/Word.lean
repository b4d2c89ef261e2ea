/-!
# Machine words and addresses

Integers are signed 64-bit words. An operation computes the exact integer first and is refused if
the result does not fit. Only the size of a frame is computed by arithmetic that wraps around.

Addresses are natural numbers. Where an address is added to a word it is read as a signed 64-bit
number, and where a signed number selects a cell it is read as an unsigned one; the two readings
agree on every address below `2 ^ 63`.

* `Word.ofInt?`: the word of an integer, if it fits.
* `Word.quotientSteps`, `Word.remainderSteps`: the numbers on the way to quotient and remainder.
* `Word.wrap`: the signed 64-bit number that an integer wraps around to.
* `Address.offset?`: an address moved by a signed distance, if it stays in range.
-/

namespace PMachine

/-- A machine integer. -/
abbrev Word := Int64

namespace Word

/-- An integer fits a word if it lies in `-2 ^ 63 .. 2 ^ 63 - 1`. -/
abbrev Fits (n : Int) : Prop := -0x8000000000000000 ≤ n ∧ n < 0x8000000000000000

/-- The word with the value `n`, or `none` if `n` does not fit. -/
def ofInt? (n : Int) : Option Word :=
  if Fits n then some (Int64.ofInt n) else none

/-- The signed 64-bit number that an integer wraps around to. -/
def wrap (n : Int) : Int := n.bmod 0x10000000000000000

/-- The numbers on the way to the quotient of words: the quotient toward zero, and the one below it if
there is a remainder and the signs differ. -/
def quotientSteps (l r : Int) : List Int :=
  if l.tmod r ≠ 0 ∧ ¬ (l < 0 ↔ r < 0) then [l.tdiv r, l.tdiv r - 1] else [l.tdiv r]

/-- The numbers on the way to the remainder of words: that of the quotient toward zero, and the divisor
added to it if the signs differ. -/
def remainderSteps (l r : Int) : List Int :=
  if l.tmod r ≠ 0 ∧ ¬ (l.tmod r < 0 ↔ r < 0) then [l.tmod r, l.tmod r + r] else [l.tmod r]

/-- The address that a word names, or `none` if it is negative. -/
def toAddress? (n : Word) : Option Nat :=
  if 0 ≤ n.toInt then some n.toInt.toNat else none

/-- The number of cells or characters that a word asks for; a negative word asks for none. -/
def count (n : Word) : Nat := n.toInt.toNat

/-- The bits of a word, read as an unsigned number. -/
def unsigned (n : Word) : Nat := n.toUInt64.toNat

theorem fits_toInt (n : Word) : Fits n.toInt := ⟨n.le_toInt, n.toInt_lt⟩

theorem ofInt?_toInt (n : Word) : ofInt? n.toInt = some n := by
  rw [ofInt?, if_pos (fits_toInt n), Int64.ofInt_toInt]

theorem ofInt?_eq_some_iff {n : Int} {w : Word} : ofInt? n = some w ↔ w.toInt = n := by
  constructor
  · intro h
    simp only [ofInt?] at h
    split at h
    · rename_i hn
      cases h
      exact Int64.toInt_ofInt_of_le hn.1 hn.2
    · contradiction
  · rintro rfl
    exact ofInt?_toInt w

theorem ofInt?_eq_none_iff {n : Int} : ofInt? n = none ↔ ¬ Fits n := by
  simp [ofInt?]

theorem wrap_of_fits {n : Int} (h : Fits n) : wrap n = n :=
  Int.bmod_eq_of_le (by omega) (by omega)

theorem wrap_of_ge {n : Int} (h : 0x8000000000000000 ≤ n) (h' : n < 0x18000000000000000) :
    wrap n = n - 0x10000000000000000 := by
  rw [wrap, Int.bmod_def]
  split <;> omega

end Word

namespace Address

/-- The word with the bits of an address; addresses from `2 ^ 63` on become negative. -/
def toWord (a : Nat) : Word := Int64.ofNat a

/-- An address read as a signed 64-bit number. -/
def signed (a : Nat) : Int := (toWord a).toInt

/-- A signed number read as an address: negative numbers wrap around to the top. -/
def ofSigned (n : Int) : Nat := (n % 0x10000000000000000).toNat

/-- The address `d` cells after `base`, or `none` if that is negative or `2 ^ 63` and more. -/
def offset? (base : Nat) (d : Int) : Option Nat :=
  let n := signed base + d
  if 0 ≤ n ∧ n < 0x8000000000000000 then some n.toNat else none

theorem signed_of_lt {a : Nat} (h : a < 0x8000000000000000) : signed a = a := by
  simp only [signed, toWord]
  exact Int64.toInt_ofNat_of_lt h

theorem wrap_signed_add (a : Nat) (n : Int) : Word.wrap (signed a + n) = Word.wrap (a + n) := by
  have hsigned : signed a = Int.bmod a 0x10000000000000000 := Int64.toInt_ofNat'
  rw [hsigned]
  exact Int.bmod_add_bmod

end Address

end PMachine
