import PMachine.Cell.Operator

/-!
# The addresses in cells

Operators make no addresses: their results are numbers, truth values and sets. Only moving an address
makes another one, and that is below `2 ^ 63`, as is every address that a word names.

* `Cell.Points`: the address in a cell, if there is one, has a property.
* `Cell.Yields`: so has the address in the result of a computation.
-/

namespace PMachine

/-- An offset is added to the signed number of the base, and the sum must be an address below `2 ^ 63`. -/
theorem Address.offset?_eq_some_iff {base a : Nat} {d : Int} :
    offset? base d = some a ↔ (a : Int) = signed base + d ∧ a < 0x8000000000000000 := by
  unfold offset?
  by_cases hrange : 0 ≤ signed base + d ∧ signed base + d < 0x8000000000000000
  · simp only [if_pos hrange, Option.some.injEq]
    omega
  · simp only [if_neg hrange]
    constructor
    · nofun
    · omega

/-- The address that an offset leads to is below `2 ^ 63`. -/
theorem Address.offset?_lt {base a : Nat} {d : Int} (h : offset? base d = some a) :
    a < 0x8000000000000000 :=
  (offset?_eq_some_iff.1 h).2

/-- An address that is read from a word is below `2 ^ 63`. -/
theorem Word.toAddress?_lt {n : Word} {a : Nat} (h : n.toAddress? = some a) :
    a < 0x8000000000000000 := by
  unfold toAddress? at h
  split at h
  · have ha : n.toInt.toNat = a := Option.some.inj h
    have hn := n.toInt_lt
    omega
  · cases h

namespace Cell

/-- The address in a cell, if there is one, has the property. -/
def Points (V : Nat → Prop) : Cell → Prop
  | address a | mark a => V a
  | undefined | int _ | real _ | bool _ | set _ => True

/-- So has the address in the result of a computation, if it succeeds. -/
def Yields (V : Nat → Prop) (x : Except Fault Cell) : Prop := ∀ c, x = .ok c → c.Points V

variable {V : Nat → Prop} {c d : Cell}

/-- What a cell gives as an address is one that it may point to, if all below `2 ^ 63` are such. -/
theorem Points.asAddress (h : c.Points V) (hV : ∀ {a}, a < 0x8000000000000000 → V a) {a : Nat}
    (ha : c.asAddress = .ok a) : V a := by
  cases c with
  | address b | mark b =>
    have hab : b = a := Except.ok.inj ha
    exact hab ▸ h
  | int n =>
    dsimp only [Cell.asAddress] at ha
    cases hb : n.toAddress? with
    | some b =>
      rw [hb] at ha
      have hab : b = a := Except.ok.inj ha
      exact hab ▸ hV (Word.toAddress?_lt hb)
    | none =>
      rw [hb] at ha
      cases ha
  | undefined | real _ | bool _ | set _ => cases ha

/-- A cell that holds a value is taken as it is. -/
theorem Points.defined (h : c.Points V) : Yields V c.defined := by
  intro d hd
  cases c <;> cases hd <;> exact h

namespace Yields

theorem ok (h : c.Points V) : Yields V (.ok c) := by
  intro d hd
  cases hd
  exact h

theorem error (f : Fault) : Yields V (.error f) := by
  intro d hd
  cases hd

/-- A computation yields what its last part does. -/
theorem bind {α : Type} {x : Except Fault α} {k : α → Except Fault Cell} (h : ∀ a, Yields V (k a)) :
    Yields V (x >>= k) := by
  intro d hd
  cases x with
  | ok a => exact h a d hd
  | error f => cases hd

theorem ite {p : Prop} [Decidable p] {x y : Except Fault Cell} (hx : Yields V x) (hy : Yields V y) :
    Yields V (if p then x else y) := by
  split
  · exact hx
  · exact hy

end Yields

/-! ### Operators -/

/-- An exact result is an integer, and points nowhere. -/
theorem ofExact_yields (n : Int) : Yields V (ofExact n) := by
  unfold ofExact
  split
  · exact .ok trivial
  · exact .error _

theorem addInt_yields : Yields V (addInt c d) := .bind fun _ => .bind fun _ => ofExact_yields _

theorem subInt_yields : Yields V (subInt c d) := .bind fun _ => .bind fun _ => ofExact_yields _

theorem mulInt_yields : Yields V (mulInt c d) := .bind fun _ => .bind fun _ => ofExact_yields _

/-- A result that is computed in steps is an integer too. -/
theorem ofSteps_yields (steps : List Int) : Yields V (ofSteps steps) := .ite (ofExact_yields _) (.error _)

theorem divInt_yields : Yields V (divInt c d) :=
  .bind fun _ => .bind fun _ => .ite (.error _) (ofSteps_yields _)

theorem modInt_yields : Yields V (modInt c d) :=
  .bind fun _ => .bind fun _ => .ite (.error _) (.ite (.error _) (ofSteps_yields _))

theorem negInt_yields : Yields V (negInt c) := .bind fun _ => ofExact_yields _

theorem absInt_yields : Yields V (absInt c) := .bind fun _ => ofExact_yields _

theorem odd_yields : Yields V (odd c) := .bind fun _ => .ok trivial

/-- A cell that is moved points to an address below `2 ^ 63`. -/
theorem increment_yields (hV : ∀ {a}, a < 0x8000000000000000 → V a) (n : Word) :
    Yields V (c.increment n) := by
  cases c with
  | int m => exact ofExact_yields _
  | bool b => exact .ite (.ok trivial) (.ite (.ok trivial) (.error _))
  | address a | mark a =>
    dsimp only [increment]
    cases hb : Address.offset? a n.toInt with
    | some b => exact .ok (hV (Address.offset?_lt hb))
    | none => exact .error _
  | undefined | real _ | set _ => exact .error _

theorem addReal_yields : Yields V (addReal c d) := .bind fun _ => .bind fun _ => .ok trivial

theorem subReal_yields : Yields V (subReal c d) := .bind fun _ => .bind fun _ => .ok trivial

theorem mulReal_yields : Yields V (mulReal c d) := .bind fun _ => .bind fun _ => .ok trivial

theorem divReal_yields : Yields V (divReal c d) :=
  .bind fun _ => .ite (.error _) (.bind fun _ => .ok trivial)

theorem negReal_yields : Yields V (negReal c) := .bind fun _ => .ok trivial

theorem absReal_yields : Yields V (absReal c) := .bind fun _ => .ok trivial

theorem squareReal_yields : Yields V (squareReal c) := .bind fun _ => .ok trivial

theorem float_yields : Yields V (float c) := .bind fun _ => .ok trivial

/-- The integer part of a real is an integer. -/
theorem truncate_yields : Yields V (truncate c) := by
  refine .bind fun x => ?_
  split
  · exact ofExact_yields _
  · exact .error _

theorem not_yields : Yields V c.not := .bind fun _ => .ok trivial

theorem and_yields : Yields V (c.and d) := .bind fun _ => .ite (.bind fun _ => .ok trivial) (.ok trivial)

theorem or_yields : Yields V (c.or d) := .bind fun _ => .ite (.ok trivial) (.bind fun _ => .ok trivial)

theorem singleton_yields : Yields V (singleton c) := .bind fun _ => .ok trivial

theorem difference_yields : Yields V (difference c d) := .bind fun _ => .bind fun _ => .ok trivial

theorem intersection_yields : Yields V (intersection c d) := .bind fun _ => .bind fun _ => .ok trivial

theorem union_yields : Yields V (union c d) := .bind fun _ => .bind fun _ => .ok trivial

theorem member_yields : Yields V (member c d) := .bind fun _ => .bind fun _ => .ok trivial

end Cell

end PMachine
