import Mathlib.Data.Rat.Floor
import Mathlib.Tactic.Common
import PMachine.Cell.Operator

/-!
# Division

Division rounds toward negative infinity. Words are divided toward zero first, and the quotient and the
remainder are corrected where that rounds up. The corrections stay among the words, so that a division is
refused just if its quotient is no word; a remainder is refused along with the quotient, although it would
fit itself.

* `Word.floor_div`: the rounded quotient.
* `Word.FloorRemainder`, `Word.FloorDivision`: the remainder, and both results of one division.
* `Word.fits_tdiv_iff`: where the quotient toward zero does not fit.
* `Word.getLast?_steps`, `Word.fits_steps`: where the steps of a division lead, and that they fit.
* `Cell.divInt_int`, `Cell.modInt_int`: so division is exact or refused.
-/

namespace PMachine

namespace Word

/-- The integer `n` is the remainder of `l` by `r` when quotients are rounded toward negative infinity:
it is off by a multiple of `r`, and it lies between 0 and `r`. -/
def FloorRemainder (l r n : Int) : Prop := r ∣ l - n ∧ (0 ≤ n ∧ n < r ∨ r < n ∧ n ≤ 0)

instance (l r n : Int) : Decidable (FloorRemainder l r n) := inferInstanceAs (Decidable (_ ∧ _))

/-- The least word, as an integer. -/
theorem toInt_least : (Int64.minValue : Word).toInt = -0x8000000000000000 := by decide

/-- The least word is the least number of 64 bits. -/
theorem eq_least_iff {n : Word} : n = Int64.minValue ↔ n.toInt = -0x8000000000000000 := by
  rw [← Int64.toInt_inj, toInt_least]

/-- A word that is not zero is no zero as a number. -/
theorem toInt_ne_zero {r : Word} (hr : r ≠ 0) : r.toInt ≠ 0 := by
  intro h
  exact hr (Int64.toInt_inj.1 h)

/-- There is one such remainder. -/
theorem floorRemainder_iff {l r n : Int} (hr : r ≠ 0) : FloorRemainder l r n ↔ n = l.fmod r := by
  have hself : FloorRemainder l r (l.fmod r) := by
    refine ⟨Int.dvd_self_sub_fmod, ?_⟩
    rcases Int.lt_or_gt_of_ne hr with hneg | hpos
    · have hopposite := Int.neg_fmod_neg (-l) (-r)
      have hlow := Int.fmod_nonneg_of_pos (-l) (b := -r) (by omega)
      have hhigh := Int.fmod_lt_of_pos (-l) (b := -r) (by omega)
      rw [neg_neg, neg_neg] at hopposite
      omega
    · have hlow := Int.fmod_nonneg_of_pos l hpos
      have hhigh := Int.fmod_lt_of_pos l hpos
      omega
  constructor
  · rintro ⟨hdvd, hrange⟩
    -- two remainders are off by a multiple of `r` that is smaller than `r`
    have hoff : r ∣ n - l.fmod r := by
      have hsub := Int.dvd_sub hself.1 hdvd
      have heq : l - l.fmod r - (l - n) = n - l.fmod r := by omega
      rwa [heq] at hsub
    have hrange' := hself.2
    have hsmall : (n - l.fmod r).natAbs < r.natAbs := by omega
    have hzero := Int.eq_zero_of_dvd_of_natAbs_lt_natAbs hoff hsmall
    omega
  · rintro rfl
    exact hself

/-- A remainder by a word fits a word. -/
theorem FloorRemainder.fits {l n : Int} {r : Word} (h : FloorRemainder l r.toInt n) : Fits n := by
  have hr := fits_toInt r
  have hrange := h.2
  omega

/-- There is one such word. -/
theorem exists_floorRemainder (l : Word) {r : Word} (hr : r ≠ 0) :
    ∃ w : Word, ∀ n, FloorRemainder l.toInt r.toInt n ↔ n = w.toInt := by
  have hiff : ∀ n, FloorRemainder l.toInt r.toInt n ↔ n = l.toInt.fmod r.toInt :=
    fun n => floorRemainder_iff (toInt_ne_zero hr)
  have hfits := ((hiff _).2 rfl).fits
  refine ⟨Int64.ofInt (l.toInt.fmod r.toInt), fun n => ?_⟩
  rw [hiff, Int64.toInt_ofInt_of_le hfits.1 hfits.2]

/-- The quotient toward zero fits a word, but for the least word by -1. -/
theorem fits_tdiv_iff {l r : Word} (hr : r ≠ 0) :
    Fits (l.toInt.tdiv r.toInt) ↔ ¬ (l = Int64.minValue ∧ r = -1) := by
  have hl := fits_toInt l
  have hne := toInt_ne_zero hr
  have hminus : r = -1 ↔ r.toInt = -1 := by
    rw [← Int64.toInt_inj]
    rfl
  rw [eq_least_iff, hminus]
  by_cases hone : r.toInt = -1
  · rw [hone, Int.tdiv_neg, Int.tdiv_one]
    omega
  · -- any other divisor leaves the sign as it is or halves the size at least
    have habs : (l.toInt.tdiv r.toInt).natAbs = l.toInt.natAbs / r.toInt.natAbs :=
      Int.natAbs_tdiv _ _
    refine ⟨fun _ hboth => hone hboth.2, fun _ => ?_⟩
    by_cases hid : r.toInt = 1
    · rw [hid, Int.tdiv_one]
      exact hl
    · have hhalf : l.toInt.natAbs / r.toInt.natAbs ≤ l.toInt.natAbs / 2 :=
        Nat.div_le_div_left (by omega) (by decide)
      omega

/-- The quotient of integers, rounded toward negative infinity. -/
theorem floor_div (l r : Int) : ⌊(l / r : ℚ)⌋ = l.fdiv r := by
  have hnat : ∀ (l : Int) (d : Nat), ⌊(l / (d : Int) : ℚ)⌋ = l.fdiv d := by
    intro l d
    have hfloor := Rat.floor_intCast_div_natCast l d
    rw [Int.cast_natCast, hfloor, Int.fdiv_eq_ediv_of_nonneg l (Int.natCast_nonneg d)]
  obtain ⟨d, rfl | rfl⟩ := Int.eq_nat_or_neg r
  · exact hnat l d
  · -- both signs change together
    have hflip : (l / ((-(d : Int) : Int) : ℚ)) = ((-l : Int) / (d : Int) : ℚ) := by
      push_cast
      rw [div_neg, neg_div]
    have hopposite := Int.neg_fdiv_neg (-l) d
    rw [neg_neg] at hopposite
    rw [hflip, hnat, ← hopposite]

/-- Quotient and remainder of a division: the remainder is smaller than the divisor and has its sign. -/
structure FloorDivision (l r quotient remainder : Int) : Prop where
  sum : l = quotient * r + remainder
  small : |remainder| < |r|
  sign : remainder = 0 ∨ (remainder < 0 ↔ r < 0)

/-- The quotient toward zero lies above the other one: there is a remainder, and not of the sign of the
divisor. -/
def RoundsUp (l r : Int) : Prop := l.tmod r ≠ 0 ∧ ¬ (l.tmod r < 0 ↔ r < 0)

variable {l r : Int}

/-- A remainder is smaller than the divisor, signs aside. -/
theorem natAbs_tmod_lt (l : Int) (hr : r ≠ 0) : (l.tmod r).natAbs < r.natAbs := by
  rw [Int.natAbs_tmod]
  exact Nat.mod_lt _ (by omega)

/-- The remainder of the quotient toward zero has the sign of what is divided. -/
theorem tmod_neg_iff (h : l.tmod r ≠ 0) : l.tmod r < 0 ↔ l < 0 := by
  rcases Int.le_total 0 l with hpos | hneg
  · have hnonneg := Int.tmod_nonneg r hpos
    omega
  · have hopposite := Int.tmod_nonneg r (a := -l) (by omega)
    rw [Int.neg_tmod] at hopposite
    have hzero : l = 0 → l.tmod r = 0 := by
      rintro rfl
      exact Int.zero_tmod r
    omega

theorem roundsUp_iff : RoundsUp l r ↔ l.tmod r ≠ 0 ∧ ¬ (l < 0 ↔ r < 0) :=
  and_congr_right fun h => by rw [tmod_neg_iff h]

/-- Quotient and remainder of the floor division are those of the specification. -/
theorem floorDivision_fdiv (l : Int) (hr : r ≠ 0) : FloorDivision l r (l.fdiv r) (l.fmod r) := by
  have hsum := Int.fmod_add_mul_fdiv l r
  have hrange := ((floorRemainder_iff hr).2 rfl : FloorRemainder l r (l.fmod r)).2
  refine ⟨?_, ?_, by omega⟩
  · rw [Int.mul_comm]
    omega
  · rw [Int.abs_eq_natAbs, Int.abs_eq_natAbs]
    omega

/-- There is one quotient and one remainder. -/
theorem FloorDivision.unique {quotient remainder : Int} (hr : r ≠ 0)
    (h : FloorDivision l r quotient remainder) : quotient = l.fdiv r ∧ remainder = l.fmod r := by
  have hsum := h.sum
  have hsmall := h.small
  have hsign := h.sign
  have hself := (floorDivision_fdiv l hr).sum
  rw [Int.abs_eq_natAbs, Int.abs_eq_natAbs] at hsmall
  have hoff : l - remainder = r * quotient := by
    rw [Int.mul_comm]
    omega
  have hremainder : remainder = l.fmod r := (floorRemainder_iff hr).1 ⟨⟨quotient, hoff⟩, by omega⟩
  have hmul : quotient * r = l.fdiv r * r := by omega
  exact ⟨Int.eq_of_mul_eq_mul_right hr hmul, hremainder⟩

/-- A quotient toward zero that does not round up is right, and so is its remainder. -/
theorem floorDivision_of_not_roundsUp (hr : r ≠ 0) (h : ¬ RoundsUp l r) :
    FloorDivision l r (l.tdiv r) (l.tmod r) := by
  have hsum := Int.tmod_add_tdiv_mul l r
  have hlt := natAbs_tmod_lt l hr
  unfold RoundsUp at h
  refine ⟨by omega, ?_, by tauto⟩
  rw [Int.abs_eq_natAbs, Int.abs_eq_natAbs]
  omega

/-- One that does is off by one, and its remainder by the divisor. -/
theorem floorDivision_of_roundsUp (hr : r ≠ 0) (h : RoundsUp l r) :
    FloorDivision l r (l.tdiv r - 1) (l.tmod r + r) := by
  have hsum := Int.tmod_add_tdiv_mul l r
  have hlt := natAbs_tmod_lt l hr
  obtain ⟨hne, hsign⟩ := h
  refine ⟨?_, ?_, by omega⟩
  · rw [Int.sub_mul]
    omega
  · rw [Int.abs_eq_natAbs, Int.abs_eq_natAbs]
    omega

/-- Where truncation rounds up, the quotient is corrected down and the remainder by the divisor. -/
theorem steps_of_roundsUp (h : RoundsUp l r) : quotientSteps l r = [l.tdiv r, l.tdiv r - 1] ∧
    remainderSteps l r = [l.tmod r, l.tmod r + r] :=
  ⟨if_pos (roundsUp_iff.1 h), if_pos h⟩

/-- Elsewhere the truncated results stand. -/
theorem steps_of_not_roundsUp (h : ¬ RoundsUp l r) : quotientSteps l r = [l.tdiv r] ∧
    remainderSteps l r = [l.tmod r] :=
  ⟨if_neg fun hup => h (roundsUp_iff.2 hup), if_neg h⟩

/-- The truncated quotient is computed first, whatever is corrected after it. -/
theorem tdiv_mem_quotientSteps (l r : Int) : l.tdiv r ∈ quotientSteps l r := by
  unfold quotientSteps
  split <;> exact List.mem_cons_self

/-- The last steps are the quotient and the remainder. -/
theorem getLast?_steps (hr : r ≠ 0) : (quotientSteps l r).getLast? = some (l.fdiv r) ∧
    (remainderSteps l r).getLast? = some (l.fmod r) := by
  by_cases h : RoundsUp l r
  · obtain ⟨hquotient, hremainder⟩ := (floorDivision_of_roundsUp hr h).unique hr
    rw [(steps_of_roundsUp h).1, (steps_of_roundsUp h).2, ← hquotient, ← hremainder]
    exact ⟨rfl, rfl⟩
  · obtain ⟨hquotient, hremainder⟩ := (floorDivision_of_not_roundsUp hr h).unique hr
    rw [(steps_of_not_roundsUp h).1, (steps_of_not_roundsUp h).2, ← hquotient, ← hremainder]
    exact ⟨rfl, rfl⟩

/-- A quotient toward zero that rounds up is at most half of what is divided. -/
theorem natAbs_tdiv_le_of_roundsUp (hr : r ≠ 0) (h : RoundsUp l r) :
    (l.tdiv r).natAbs ≤ l.natAbs / 2 := by
  have hlt := natAbs_tmod_lt l hr
  have hne := h.1
  rw [Int.natAbs_tdiv]
  exact Nat.div_le_div_left (by omega) (by decide)

/-- No step leaves the words if the first quotient is one. -/
theorem fits_steps {l r : Word} (hr : r ≠ 0) (h : Fits (l.toInt.tdiv r.toInt)) :
    ∀ n ∈ quotientSteps l.toInt r.toInt ++ remainderSteps l.toInt r.toInt, Fits n := by
  have hl := fits_toInt l
  have hrfits := fits_toInt r
  have hne := toInt_ne_zero hr
  have hlt := natAbs_tmod_lt l.toInt hne
  have hfirst : Fits (l.toInt.tmod r.toInt) := by unfold Fits; omega
  by_cases hup : RoundsUp l.toInt r.toInt
  · have hhalf := natAbs_tdiv_le_of_roundsUp hne hup
    obtain ⟨hzero, hsign⟩ := id hup
    have hquotient : Fits (l.toInt.tdiv r.toInt - 1) := by unfold Fits; omega
    have hremainder : Fits (l.toInt.tmod r.toInt + r.toInt) := by unfold Fits; omega
    rw [(steps_of_roundsUp hup).1, (steps_of_roundsUp hup).2]
    simp only [List.cons_append, List.nil_append, List.mem_cons, List.not_mem_nil, or_false]
    rintro n (rfl | rfl | rfl | rfl)
    · exact h
    · exact hquotient
    · exact hfirst
    · exact hremainder
  · rw [(steps_of_not_roundsUp hup).1, (steps_of_not_roundsUp hup).2]
    simp only [List.cons_append, List.nil_append, List.mem_cons, List.not_mem_nil, or_false]
    rintro n (rfl | rfl)
    · exact h
    · exact hfirst

/-- The quotient is a word if the one toward zero is. -/
theorem fits_fdiv_iff {l r : Word} (hr : r ≠ 0) :
    Fits (l.toInt.fdiv r.toInt) ↔ Fits (l.toInt.tdiv r.toInt) := by
  have hne := toInt_ne_zero hr
  constructor
  · intro h
    by_cases hup : RoundsUp l.toInt r.toInt
    · have hl := fits_toInt l
      have hhalf := natAbs_tdiv_le_of_roundsUp hne hup
      unfold Fits
      omega
    · rwa [((floorDivision_of_not_roundsUp hne hup).unique hne).1]
  · intro h
    have hlast := (getLast?_steps (l := l.toInt) hne).1
    exact fits_steps hr h _ (List.mem_append_left _ (List.mem_of_getLast? hlast))

end Word

open Word (FloorRemainder)

namespace Cell

variable {l r : Word}

/-- Numbers that are all words lead to the last of them. -/
theorem ofSteps_of_fits {steps : List Int} {n : Int} (h : ∀ k ∈ steps, Word.Fits k)
    (hlast : steps.getLast? = some n) : ofSteps steps = ofExact n := by
  rw [ofSteps, if_pos h, List.getLastD_eq_getLast?, hlast, Option.getD_some]

/-- A step that does not fit fails as a whole, also if the result would fit. -/
theorem ofSteps_of_not_fits {steps : List Int} {n : Int} (hn : n ∈ steps) (h : ¬ Word.Fits n) :
    ofSteps steps = .error .overflow := if_neg fun hall => h (hall n hn)

/-- The quotient of two integers, or the fault. -/
theorem divInt_int (hr : r ≠ 0) : divInt (.int l) (.int r) = ofExact (l.toInt.fdiv r.toInt) := by
  have hrun : divInt (.int l) (.int r) =
      if r = 0 then .error .divisionByZero else ofSteps (Word.quotientSteps l.toInt r.toInt) := rfl
  have hne := Word.toInt_ne_zero hr
  rw [hrun, if_neg hr]
  by_cases hfits : Word.Fits (l.toInt.tdiv r.toInt)
  · exact ofSteps_of_fits (fun k hk => Word.fits_steps hr hfits k (List.mem_append_left _ hk))
      (Word.getLast?_steps hne).1
  · rw [ofSteps_of_not_fits (Word.tdiv_mem_quotientSteps _ _) hfits, ofExact,
      Word.ofInt?_eq_none_iff.2 fun h => hfits ((Word.fits_fdiv_iff hr).1 h)]

/-- The remainder of two integers, or the fault. -/
theorem modInt_int {w : Word} (hr : r ≠ 0) (hw : FloorRemainder l.toInt r.toInt w.toInt) :
    modInt (.int l) (.int r) = if l = Int64.minValue ∧ r = -1 then .error .overflow else .ok (.int w) := by
  have hrun : modInt (.int l) (.int r) =
      if r = 0 then .error .divisionByZero
      else if ¬ Word.Fits (l.toInt.tdiv r.toInt) then .error .overflow
      else ofSteps (Word.remainderSteps l.toInt r.toInt) := rfl
  have hne := Word.toInt_ne_zero hr
  rw [hrun, if_neg hr]
  simp only [Word.fits_tdiv_iff hr, not_not]
  split
  · rfl
  · rename_i hedge
    have hfits := (Word.fits_tdiv_iff hr).2 hedge
    rw [ofSteps_of_fits (fun k hk => Word.fits_steps hr hfits k (List.mem_append_right _ hk))
      (Word.getLast?_steps hne).2, ← (Word.floorRemainder_iff hne).1 hw, ofExact, Word.ofInt?_toInt]

end Cell

end PMachine
