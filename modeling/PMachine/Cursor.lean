import PMachine.Action
import PMachine.Decimal

/-!
# Reading numbers from a text

A cursor stands in a text, shows the next character and steps over it. The numbers of program text
and of input files have one grammar, so they are read here once for every kind of cursor. Reading
is greedy, and a number that turns out malformed has been consumed as far as it was read.

* `Cursor.takeWhile`: the longest run of characters with a property.
* `Cursor.integer`: an optional sign and at least one digit.
* `Cursor.decimal`: an optional sign, digits with an optional point among them, and an optional
  exponent.
-/

namespace PMachine

/-- A place in a text. Showing the next character may fetch more text and may fail. -/
class Cursor (σ : Type) where
  /-- The next character, or `none` at the end of the text. -/
  peek : Action σ (Option Char)
  /-- The place after the next character. -/
  advance : σ → σ
  /-- At most this many characters are left. -/
  left : σ → Nat

namespace Cursor

variable {σ : Type} [Cursor σ]

/-- Steps over the next character and returns it, if it has the property. -/
def accept (p : Char → Bool) : Action σ (Option Char) := do
  match ← peek with
  | some c =>
    if p c then
      modify advance
      return some c
    else return none
  | none => return none

/-- Steps over the longest run of characters with the property and returns it. -/
def takeWhile (p : Char → Bool) : Action σ (List Char) := fun s => go (left s + 1) s
where
  /-- The run, if it has fewer than the given number of characters. -/
  go : Nat → Action σ (List Char)
    | 0 => return []
    | n + 1 => do
      match ← accept p with
      | some c =>
        let cs ← go n
        return c :: cs
      | none => return []

/-- The value of a run of decimal digits. -/
def value (digits : List Char) : Nat :=
  digits.foldl (fun n c => 10 * n + (c.toNat - '0'.toNat)) 0

/-- Steps over a sign, if there is one, and tells whether it is a minus. -/
def sign : Action σ Bool := do
  let c ← accept fun c => c = '-' || c = '+'
  return c = some '-'

/-- A run of at least one digit; otherwise the given fault. -/
def digits (missing : Fault) : Action σ (List Char) := do
  let cs ← takeWhile Char.isDigit
  if cs.isEmpty then throw missing
  return cs

/-- The integer `n`, negated if asked. -/
def signed (negative : Bool) (n : Nat) : Int := if negative then -n else n

/-- An unsigned integer of any size. -/
def natural : Action σ Nat := do
  let cs ← digits .integerExpected
  return value cs

/-- An integer of any size. -/
def integer : Action σ Int := do
  let negative ← sign
  let n ← natural
  return signed negative n

/-- An exponent mark with its exponent, or 0 if there is no mark. -/
def exponent : Action σ Int := do
  match ← accept fun c => c = 'e' || c = 'E' with
  | some _ =>
    let negative ← sign
    let cs ← digits .exponentExpected
    return signed negative (value cs)
  | none => return 0

/-- The digits after a point, or none if there is no point. -/
def fraction : Action σ (List Char) := do
  match ← accept (· = '.') with
  | some _ => takeWhile Char.isDigit
  | none => return []

/-- A decimal number. It has a digit before or after the point. -/
def decimal : Action σ Decimal := do
  let negative ← sign
  let whole ← takeWhile Char.isDigit
  let part ← fraction
  if whole.isEmpty && part.isEmpty then throw .realExpected
  let power ← exponent
  return ⟨negative, value (whole ++ part), power - part.length⟩

end Cursor

end PMachine
