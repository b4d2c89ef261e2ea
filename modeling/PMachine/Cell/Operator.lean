import PMachine.Cell

/-!
# Operators on cells

The operators of the machine. Integer results are exact or refused; reals follow binary64
arithmetic, except that no real is divided by zero. Of two operands that are both at fault the left
one is reported, with two exceptions noted at `divReal` and `member`.

* `Cell.ofExact`, `Cell.ofSteps`: an exact integer as a cell, at once or by way of others.
* `Cell.divInt`, `Cell.modInt`: division toward negative infinity and its remainder.
* `Cell.increment`: moves an integer, a truth value or an address by a constant.
-/

namespace PMachine

namespace Cell

/-- An exact integer as a cell, or the overflow fault if it does not fit. -/
def ofExact (n : Int) : Except Fault Cell :=
  match Word.ofInt? n with
  | some w => .ok (.int w)
  | none => .error .overflow

/-! ### Integers -/

/-- The sum of two integers. -/
def addInt (c d : Cell) : Except Fault Cell := do
  let m ← c.asInt
  let n ← d.asInt
  ofExact (m.toInt + n.toInt)

/-- The difference of two integers. -/
def subInt (c d : Cell) : Except Fault Cell := do
  let m ← c.asInt
  let n ← d.asInt
  ofExact (m.toInt - n.toInt)

/-- The product of two integers. -/
def mulInt (c d : Cell) : Except Fault Cell := do
  let m ← c.asInt
  let n ← d.asInt
  ofExact (m.toInt * n.toInt)

/-- The last of some numbers that are computed one after the other, if each of them is a word. -/
def ofSteps (steps : List Int) : Except Fault Cell :=
  if ∀ n ∈ steps, Word.Fits n then ofExact (steps.getLastD 0) else .error .overflow

/-- The quotient of two integers, rounded toward negative infinity. -/
def divInt (c d : Cell) : Except Fault Cell := do
  let m ← c.asInt
  let n ← d.asInt
  if n = 0 then .error .divisionByZero
  else ofSteps (Word.quotientSteps m.toInt n.toInt)

/-- The remainder of `divInt`, with the sign of the divisor. It is refused where the quotient toward
zero would overflow, although it would fit itself. -/
def modInt (c d : Cell) : Except Fault Cell := do
  let m ← c.asInt
  let n ← d.asInt
  if n = 0 then .error .divisionByZero
  else if ¬ Word.Fits (m.toInt.tdiv n.toInt) then .error .overflow
  else ofSteps (Word.remainderSteps m.toInt n.toInt)

/-- The integer with the opposite sign. -/
def negInt (c : Cell) : Except Fault Cell := do
  let n ← c.asInt
  ofExact (-n.toInt)

/-- The absolute value of an integer. -/
def absInt (c : Cell) : Except Fault Cell := do
  let n ← c.asInt
  ofExact n.toInt.natAbs

/-- The square of an integer. -/
def squareInt (c : Cell) : Except Fault Cell := c.mulInt c

/-- Whether an integer is odd. -/
def odd (c : Cell) : Except Fault Cell := do
  let n ← c.asInt
  return .bool (n.toInt % 2 = 1)

/-- Moves an integer, a truth value or an address by `d`. Truth values count as 0 and 1, and what
was a mark becomes an address. -/
def increment (c : Cell) (d : Word) : Except Fault Cell :=
  match c with
  | int n => ofExact (n.toInt + d.toInt)
  | bool b =>
    let n := b.toNat + d.toInt
    if n = 0 then .ok (.bool false)
    else if n = 1 then .ok (.bool true)
    else .error .valueOutOfRange
  | address a | mark a => match Address.offset? a d.toInt with
    | some b => .ok (.address b)
    | none => .error .addressBelowZero
  | undefined => .error .valueUndefined
  | _ => .error .typeMismatch

/-! ### Reals -/

/-- The sum of two reals. -/
def addReal (c d : Cell) : Except Fault Cell := do
  let x ← c.asReal
  let y ← d.asReal
  return .real (x.add y)

/-- The difference of two reals. -/
def subReal (c d : Cell) : Except Fault Cell := do
  let x ← c.asReal
  let y ← d.asReal
  return .real (x.sub y)

/-- The product of two reals. -/
def mulReal (c d : Cell) : Except Fault Cell := do
  let x ← c.asReal
  let y ← d.asReal
  return .real (x.mul y)

/-- The quotient of two reals. The divisor is examined first. -/
def divReal (c d : Cell) : Except Fault Cell := do
  let y ← d.asReal
  if y.isZero then .error .divisionByZero
  else
    let x ← c.asReal
    return .real (x.div y)

/-- The real with the opposite sign. -/
def negReal (c : Cell) : Except Fault Cell := do
  let x ← c.asReal
  return .real x.neg

/-- The absolute value of a real. -/
def absReal (c : Cell) : Except Fault Cell := do
  let x ← c.asReal
  return .real x.abs

/-- The square of a real. -/
def squareReal (c : Cell) : Except Fault Cell := do
  let x ← c.asReal
  return .real (x.mul x)

/-- The real of a number. -/
def float (c : Cell) : Except Fault Cell := do
  let x ← c.asReal
  return .real x

/-- The integer part of a number, toward zero. -/
def truncate (c : Cell) : Except Fault Cell := do
  let x ← c.asReal
  match x.truncate? with
  | some n => ofExact n
  | none => .error .overflow

/-! ### Truth values -/

/-- Negation. -/
def not (c : Cell) : Except Fault Cell := do
  let b ← c.asBool
  return .bool !b

/-- Conjunction. The right operand is not looked at if the left one is false. -/
def and (c d : Cell) : Except Fault Cell := do
  if ← c.asBool then
    let b ← d.asBool
    return .bool b
  else return .bool false

/-- Disjunction. The right operand is not looked at if the left one is true. -/
def or (c d : Cell) : Except Fault Cell := do
  if ← c.asBool then return .bool true
  else
    let b ← d.asBool
    return .bool b

/-! ### Sets -/

/-- The set of one integer. -/
def singleton (c : Cell) : Except Fault Cell := do
  let n ← c.asInt
  return .set (.singleton n)

/-- The members of the left set that are not in the right one. -/
def difference (c d : Cell) : Except Fault Cell := do
  let s ← c.asSet
  let t ← d.asSet
  return .set (s.diff t)

/-- The common members of two sets. -/
def intersection (c d : Cell) : Except Fault Cell := do
  let s ← c.asSet
  let t ← d.asSet
  return .set (s.inter t)

/-- The members of two sets together. -/
def union (c d : Cell) : Except Fault Cell := do
  let s ← c.asSet
  let t ← d.asSet
  return .set (s.union t)

/-- Whether the integer on the left is a member of the set on the right. The set is examined
first. -/
def member (c d : Cell) : Except Fault Cell := do
  let s ← d.asSet
  let n ← c.asInt
  return .bool (n ∈ s)

end Cell

end PMachine
