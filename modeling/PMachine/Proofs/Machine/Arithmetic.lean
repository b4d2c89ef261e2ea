import PMachine.Proofs.Machine.Exact

/-!
# Integer arithmetic

Arithmetic on integers is exact: an instruction leaves the mathematical result if that is a word, and
else it overflows. Division rounds toward negative infinity, and what it computes on the way stays among
the words.

* `Machine.GivesExact`: an instruction leaves an exact result, or overflows.
* `Machine.arithmetic_exact`: so do all instructions of integer arithmetic.
-/

namespace PMachine

open Word (FloorDivision quotientSteps remainderSteps)

namespace Machine

variable {m rest : Machine} {i : Instruction} {n : Int}

/-- An instruction leaves the integer `n` on top of the stack of `rest` if it is a word, and overflows
if it is none. -/
def GivesExact (i : Instruction) (m rest : Machine) (n : Int) : Prop :=
  ((∃ w : Word, w.toInt = n ∧ perform i m = .ok () (rest.replaced (.int w))) ↔ Word.Fits n) ∧
  (perform i m = .error .overflow rest ↔ ¬ Word.Fits n)

/-- An exact result is the only one. -/
theorem GivesExact.toInt_eq {left right : Cell} {w : Word} (h : GivesExact i m m.popped n)
    (hops : m.Operands left right) (hw : Gives i m (.int w)) : w.toInt = n := by
  by_cases hfits : Word.Fits n
  · obtain ⟨w', hw', hrun⟩ := h.1.2 hfits
    have hsame := hw.unique hops hrun
    cases hsame
    exact hw'
  · have hrefused := h.2.2 hfits
    rw [Gives, hrefused] at hw
    cases hw

/-- An instruction is exact if its result is what the exact one is as a word. -/
theorem givesExact_of_eq (h : perform i m = match Word.ofInt? n with
    | some w => .ok () (rest.replaced (.int w))
    | none => .error .overflow rest) : GivesExact i m rest n := by
  unfold GivesExact
  rw [h]
  cases hn : Word.ofInt? n with
  | some w =>
    have hw : w.toInt = n := Word.ofInt?_eq_some_iff.1 hn
    have hfits : Word.Fits n := hw ▸ Word.fits_toInt w
    exact ⟨iff_of_true ⟨w, hw, rfl⟩ hfits, iff_of_false (fun heq => by cases heq) (not_not.2 hfits)⟩
  | none =>
    have hfits : ¬ Word.Fits n := Word.ofInt?_eq_none_iff.1 hn
    refine ⟨iff_of_false ?_ hfits, iff_of_true rfl hfits⟩
    rintro ⟨w, -, heq⟩
    cases heq

/-- An operator on two cells is exact if its function is. -/
theorem givesExact_binary {left right : Cell} {g : Cell → Cell → Except Fault Cell}
    (hrun : perform i m = binary g m) (hops : m.Operands left right)
    (hg : g left right = Cell.ofExact n) : GivesExact i m m.popped n := by
  refine givesExact_of_eq ?_
  rw [hrun]
  unfold Cell.ofExact at hg
  cases hn : Word.ofInt? n with
  | some w =>
    rw [hn] at hg
    exact binary_eq hops.1 hops.2 hg
  | none =>
    rw [hn] at hg
    exact binary_error hops.1 hops.2 hg

/-- An operator on one cell is exact if its function is. -/
theorem givesExact_unary {c : Cell} {g : Cell → Except Fault Cell} (hrun : perform i m = unary g m)
    (htop : m.top? = some c) (hg : g c = Cell.ofExact n) : GivesExact i m m n := by
  refine givesExact_of_eq ?_
  rw [hrun]
  unfold Cell.ofExact at hg
  cases hn : Word.ofInt? n with
  | some w =>
    rw [hn] at hg
    exact unary_eq htop hg
  | none =>
    rw [hn] at hg
    exact unary_error htop hg

variable {l r : Word}

/-- An absolute value is computed exactly, and then has to fit. -/
theorem absInt_int (n : Word) : Cell.absInt (.int n) = Cell.ofExact n.toInt.natAbs :=
  pure_bind (m := Except Fault) n fun k => Cell.ofExact k.toInt.natAbs

/-- The remainder that division leaves is that of the rounded quotient, and it is left just if that
quotient is a word. -/
theorem gives_mod {p : Nat} {q : Word} (hops : m.Operands (.int l) (.int r)) (hr : r ≠ 0) :
    (∀ v : Word, Gives ⟨.mod, p, q⟩ m (.int v) → v.toInt = l.toInt.fmod r.toInt) ∧
    ((∃ v : Word, Gives ⟨.mod, p, q⟩ m (.int v)) ↔ Word.Fits (l.toInt.fdiv r.toInt)) := by
  obtain ⟨v', hiff⟩ := Word.exists_floorRemainder l hr
  have hv' : v'.toInt = l.toInt.fmod r.toInt :=
    (Word.floorRemainder_iff (Word.toInt_ne_zero hr)).1 ((hiff _).2 rfl)
  have hrun := perform_mod (p := p) (q := q) hops.1 hops.2 hr ((hiff _).2 rfl)
  rw [Word.fits_fdiv_iff hr, Word.fits_tdiv_iff hr]
  by_cases hedge : l = Int64.minValue ∧ r = -1
  · rw [if_pos hedge] at hrun
    have hnone : ∀ v : Word, ¬ Gives ⟨.mod, p, q⟩ m (.int v) := by
      intro v hv
      rw [Gives, hrun] at hv
      cases hv
    refine ⟨fun v hv => absurd hv (hnone v), iff_of_false ?_ (not_not.2 hedge)⟩
    rintro ⟨v, hv⟩
    exact hnone v hv
  · rw [if_neg hedge] at hrun
    refine ⟨fun v hv => ?_, iff_of_true ⟨v', hrun⟩ hedge⟩
    have hsame := hv.unique hops hrun
    cases hsame
    exact hv'

/-- **Integer arithmetic.** Addition, subtraction, multiplication, negation, absolute value, square and
movement by a constant leave the exact result if it is a word, and overflow just if it is none. So does
division with the quotient rounded toward negative infinity, while a division by zero is refused as such.
A remainder is left just if the quotient is a word, and the two then belong together. They are the last of
the steps from the quotient toward zero on; where that is a word, no step leaves the words. -/
theorem arithmetic_exact (m : Machine) (p : Nat) (q : Word) :
    (∀ l r : Word, m.Operands (.int l) (.int r) →
      GivesExact ⟨.adi, p, q⟩ m m.popped (l.toInt + r.toInt) ∧
      GivesExact ⟨.sbi, p, q⟩ m m.popped (l.toInt - r.toInt) ∧
      GivesExact ⟨.mpi, p, q⟩ m m.popped (l.toInt * r.toInt) ∧
      (r = 0 → perform ⟨.dvi, p, q⟩ m = .error .divisionByZero m.popped ∧
        perform ⟨.mod, p, q⟩ m = .error .divisionByZero m.popped) ∧
      (r ≠ 0 → GivesExact ⟨.dvi, p, q⟩ m m.popped ⌊(l.toInt / r.toInt : ℚ)⌋ ∧
        ((∃ v : Word, Gives ⟨.mod, p, q⟩ m (.int v)) ↔ Word.Fits ⌊(l.toInt / r.toInt : ℚ)⌋) ∧
        (∀ w v : Word, Gives ⟨.dvi, p, q⟩ m (.int w) → Gives ⟨.mod, p, q⟩ m (.int v) →
          FloorDivision l.toInt r.toInt w.toInt v.toInt ∧
          (quotientSteps l.toInt r.toInt).getLast? = some w.toInt ∧
          (remainderSteps l.toInt r.toInt).getLast? = some v.toInt) ∧
        (Word.Fits (l.toInt.tdiv r.toInt) →
          ∀ n ∈ quotientSteps l.toInt r.toInt ++ remainderSteps l.toInt r.toInt, Word.Fits n))) ∧
    ∀ n : Word, m.top? = some (.int n) →
      GivesExact ⟨.ngi, p, q⟩ m m (-n.toInt) ∧
      GivesExact ⟨.abi, p, q⟩ m m |n.toInt| ∧
      GivesExact ⟨.sqi, p, q⟩ m m (n.toInt ^ 2) ∧
      GivesExact ⟨.inc, p, q⟩ m m (n.toInt + q.toInt) := by
  constructor
  · intro l r hops
    refine ⟨givesExact_binary rfl hops rfl, givesExact_binary rfl hops rfl,
      givesExact_binary rfl hops rfl, ?_, fun hr => ?_⟩
    · rintro rfl
      exact ⟨binary_error hops.1 hops.2 rfl, binary_error hops.1 hops.2 rfl⟩
    · have hne := Word.toInt_ne_zero hr
      have hdvi : GivesExact ⟨.dvi, p, q⟩ m m.popped (l.toInt.fdiv r.toInt) :=
        givesExact_binary rfl hops (Cell.divInt_int hr)
      rw [Word.floor_div]
      refine ⟨hdvi, (gives_mod hops hr).2, ?_, Word.fits_steps hr⟩
      intro w v hw hv
      rw [hdvi.toInt_eq hops hw, (gives_mod hops hr).1 v hv]
      exact ⟨Word.floorDivision_fdiv _ hne, Word.getLast?_steps hne⟩
  · intro n htop
    have hinc : perform ⟨.inc, p, q⟩ m = moveTop q m := rfl
    have hsquare : Cell.squareInt (.int n) = Cell.ofExact (n.toInt * n.toInt) := rfl
    rw [← sq] at hsquare
    rw [Int.abs_eq_natAbs]
    exact ⟨givesExact_unary rfl htop rfl, givesExact_unary rfl htop (absInt_int n),
      givesExact_unary rfl htop hsquare, givesExact_of_eq (hinc.trans (moveTop_int htop q))⟩

/-- A machine with -7 on its stack, and 2 on top of it. -/
def uneven : Machine where
  pc := 0
  mp := 0
  sp := 1
  np := 4
  code := #[]
  store := ⟨default, #[.int (-7), .int 2, .undefined, .undefined], default⟩
  files := default

theorem arithmetic_exact_uneven : uneven.Operands (.int (-7)) (.int 2) ∧
    Gives ⟨.dvi, 0, 0⟩ uneven (.int (-4)) ∧ Gives ⟨.mod, 0, 0⟩ uneven (.int 1) ∧
    FloorDivision (-7) 2 (-4) 1 ∧ quotientSteps (-7) 2 = [-3, -4] ∧ remainderSteps (-7) 2 = [-1, 1] ∧
    perform ⟨.inc, 0, Int64.maxValue⟩ uneven = .error .overflow uneven := by
  have hops : uneven.Operands (.int (-7)) (.int 2) := ⟨rfl, rfl⟩
  have hdvi : Gives ⟨.dvi, 0, 0⟩ uneven (.int (-4)) := rfl
  have hmod : Gives ⟨.mod, 0, 0⟩ uneven (.int 1) := rfl
  obtain ⟨-, -, -, -, hdivision⟩ := (arithmetic_exact uneven 0 0).1 (-7) 2 hops
  have hboth := ((hdivision (by decide)).2.2.1 (-4) 1 hdvi hmod).1
  have hinc := ((arithmetic_exact uneven 0 Int64.maxValue).2 2 rfl).2.2.2.2
  exact ⟨hops, hdvi, hmod, hboth, by decide, by decide, hinc.2 (by decide)⟩

end Machine

end PMachine
