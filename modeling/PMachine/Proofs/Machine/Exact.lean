import PMachine.Proofs.Division
import PMachine.Proofs.Machine.Stack

/-!
# Results that fit and are refused

A remainder fits a word, and so does many a difference. The machine comes to a remainder by way of the
quotient toward zero, and to a difference by way of the negative of what is taken away. Where that
number does not fit a word, the operation is refused although its result would fit.

* `Word.ofInt?_neg_eq_none_iff`: the one word without a negative.
* `Machine.moveTop_int`: an integer on top is moved to where it fits, or refused.
* `Machine.overflows_iff`: a remainder is refused for the least word by -1 alone, and a difference if it
  does not fit or if the least word is taken away.
-/

namespace PMachine

namespace Word

/-- Every word but the least one has a negative. -/
theorem ofInt?_neg_eq_none_iff {q : Word} : ofInt? (-q.toInt) = none ↔ q = Int64.minValue := by
  have hq := fits_toInt q
  rw [ofInt?_eq_none_iff, eq_least_iff]
  omega

end Word

open Word (FloorRemainder)

namespace Machine

variable {m : Machine} {n : Word}

/-- A remainder is that of the floor division, but the least integer by minus one has none. -/
theorem perform_mod {p : Nat} {q l r w : Word} (hright : m.top? = some (.int r))
    (hleft : m.popped.top? = some (.int l)) (hr : r ≠ 0)
    (hw : FloorRemainder l.toInt r.toInt w.toInt) :
    perform ⟨.mod, p, q⟩ m = if l = Int64.minValue ∧ r = -1 then .error .overflow m.popped
      else .ok () (m.popped.replaced (.int w)) := by
  have hrun : perform ⟨.mod, p, q⟩ m = binary Cell.modInt m := rfl
  have hcell := Cell.modInt_int hr hw
  by_cases hedge : l = Int64.minValue ∧ r = -1
  · rw [if_pos hedge] at hcell ⊢
    rw [hrun, binary_error hright hleft hcell]
  · rw [if_neg hedge] at hcell ⊢
    rw [hrun, binary_eq hright hleft hcell]

/-- An integer on top is moved to where it fits, or refused. -/
theorem moveTop_int (htop : m.top? = some (.int n)) (d : Word) :
    moveTop d m = match Word.ofInt? (n.toInt + d.toInt) with
      | some w => .ok () (m.replaced (.int w))
      | none => .error .overflow m := by
  have hmove : Cell.increment (.int n) d = Cell.ofExact (n.toInt + d.toInt) := rfl
  rw [moveTop, Action.bind_of_ok (peek_zero_eq htop), hmove, Cell.ofExact]
  cases Word.ofInt? (n.toInt + d.toInt) with
  | some w => rw [Action.bind_of_ok (Action.lift_ok _ m), setTop_eq htop]
  | none => rw [Action.bind_of_error (Action.lift_error _ m)]

/-- A distance without a negative is refused before the cell is looked at. -/
theorem moveTopDown_least : moveTopDown Int64.minValue m = .error .overflow m := by
  have hnone : Word.ofInt? (-(Int64.minValue : Word).toInt) = none :=
    Word.ofInt?_neg_eq_none_iff.2 rfl
  rw [moveTopDown, hnone, Action.bind_of_error (Action.orFault_none _ m)]

/-- An integer is moved down by subtraction, if the distance has a negative. -/
theorem moveTopDown_int (htop : m.top? = some (.int n)) {q : Word} (hq : q ≠ Int64.minValue) :
    moveTopDown q m = match Word.ofInt? (n.toInt - q.toInt) with
      | some w => .ok () (m.replaced (.int w))
      | none => .error .overflow m := by
  cases hneg : Word.ofInt? (-q.toInt) with
  | none => exact absurd (Word.ofInt?_neg_eq_none_iff.1 hneg) hq
  | some d =>
    have hd : d.toInt = -q.toInt := Word.ofInt?_eq_some_iff.1 hneg
    rw [moveTopDown, hneg, Action.bind_of_ok (Action.orFault_some _ _ m), moveTop_int htop, hd,
      Int.sub_eq_add_neg]

/-- **Where a result that fits is refused.** The remainder of two integers always fits; it is put on the
stack, but for the least word by -1, which overflows. A difference is put on the stack if it fits and
what is taken away is not the least word; else it overflows. -/
theorem overflows_iff (m : Machine) (p : Nat) (q : Word) :
    (∀ l r : Word, m.top? = some (.int r) → m.popped.top? = some (.int l) → r ≠ 0 →
      ∃ w : Word, (∀ n, FloorRemainder l.toInt r.toInt n ↔ n = w.toInt) ∧
        (perform ⟨.mod, p, q⟩ m = .ok () (m.popped.replaced (.int w)) ↔
          ¬ (l = Int64.minValue ∧ r = -1)) ∧
        (perform ⟨.mod, p, q⟩ m = .error .overflow m.popped ↔ l = Int64.minValue ∧ r = -1)) ∧
    ∀ n : Word, m.top? = some (.int n) →
      (∀ w : Word, w.toInt = n.toInt - q.toInt →
        (perform ⟨.dec, p, q⟩ m = .ok () (m.replaced (.int w)) ↔ q ≠ Int64.minValue)) ∧
      (perform ⟨.dec, p, q⟩ m = .error .overflow m ↔
        ¬ Word.Fits (n.toInt - q.toInt) ∨ q = Int64.minValue) := by
  constructor
  · intro l r hright hleft hr
    obtain ⟨w, hw⟩ := Word.exists_floorRemainder l hr
    refine ⟨w, hw, ?_⟩
    rw [perform_mod hright hleft hr ((hw _).2 rfl)]
    by_cases hedge : l = Int64.minValue ∧ r = -1
    · simp [hedge]
    · simp [hedge]
  · intro n htop
    have hrun : perform ⟨.dec, p, q⟩ m = moveTopDown q m := rfl
    rw [hrun]
    by_cases hq : q = Int64.minValue
    · subst hq
      rw [moveTopDown_least]
      simp
    · rw [moveTopDown_int htop hq]
      constructor
      · intro w hw
        rw [Word.ofInt?_eq_some_iff.2 hw]
        simp [hq]
      · cases hfit : Word.ofInt? (n.toInt - q.toInt) with
        | some w =>
          have hw := Word.ofInt?_eq_some_iff.1 hfit
          have hword := Word.fits_toInt w
          rw [hw] at hword
          simp [hq, hword]
        | none =>
          have hword := Word.ofInt?_eq_none_iff.1 hfit
          simp [hword]

/-- A machine with the least word on its stack, and -1 on top of it. -/
def least : Machine where
  pc := 0
  mp := 0
  sp := 1
  np := 4
  code := #[]
  store := ⟨default, #[.int Int64.minValue, .int (-1), .undefined, .undefined], default⟩
  files := default

theorem overflows_iff_least : (perform ⟨.mod, 0, 0⟩ least = .error .overflow least.popped ∧
      FloorRemainder (Int64.minValue : Word).toInt (-1 : Word).toInt 0) ∧
    perform ⟨.dec, 0, Int64.minValue⟩ least = .error .overflow least ∧
      Word.Fits ((-1 : Word).toInt - (Int64.minValue : Word).toInt) ∧
    perform ⟨.dec, 0, 1⟩ least = .ok () (least.replaced (.int (-2))) := by
  obtain ⟨w, -, -, hmod⟩ := (overflows_iff least 0 0).1 Int64.minValue (-1) rfl rfl (by decide)
  have hleast := ((overflows_iff least 0 Int64.minValue).2 (-1) rfl).2
  have hone := ((overflows_iff least 0 1).2 (-1) rfl).1 (-2) (by decide)
  exact ⟨⟨hmod.2 ⟨rfl, rfl⟩, by decide⟩, hleast.2 (Or.inr rfl), by decide, hone.2 (by decide)⟩

end Machine

end PMachine
