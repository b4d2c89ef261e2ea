import PMachine.Decimal.Layout
import PMachine.Proofs.Lexeme

/-!
# Decimals as numbers

A decimal stands for a rational number and a sign, which zero has too. The decimal that is chosen for a finite
real lies between the midpoints to the neighbours of the real.

* `Decimal.size`: the rational number of a decimal.
* `Binary64.Magnitude.Rounds`: the numbers between the two midpoints.
* `Decimal.readsBack_iff`: the integers that are compared are these rational numbers, up to a factor.
* `Decimal.ofBinary64_rounds`: the decimal of a real.
* `Numeral.Denotes`: the number that a text stands for.
-/

namespace PMachine

namespace Decimal

/-- The number that a decimal stands for, without its sign. -/
def size (d : Decimal) : ℚ := d.digits * 10 ^ d.exponent

/-! ### Comparison with a power of two -/

variable {a n digits : Nat} {i j exponent : Int}

/-- A negative power is cleared by its counterpart. -/
theorem zpow_mul_toNat {b : ℚ} (hb : b ≠ 0) (i : Int) : b ^ i * b ^ (-i).toNat = b ^ i.toNat := by
  have hsum : i + ((-i).toNat : Int) = (i.toNat : Int) := by omega
  rw [← zpow_natCast, ← zpow_natCast, ← zpow_add₀ hb, hsum]

/-- Both sides of a comparison are multiplied by the same positive number. -/
theorem exists_factor (a : Nat) (i : Int) (n : Nat) (j : Int) : ∃ k : ℚ, 0 < k ∧
    ((a * Nat.pow 10 i.toNat * Nat.pow 2 (-j).toNat : Nat) : ℚ) = a * 10 ^ i * k ∧
    ((n * Nat.pow 2 j.toNat * Nat.pow 10 (-i).toNat : Nat) : ℚ) = n * 2 ^ j * k := by
  refine ⟨10 ^ (-i).toNat * 2 ^ (-j).toNat, by positivity, ?_, ?_⟩
  · have hten := zpow_mul_toNat (show (10 : ℚ) ≠ 0 by norm_num) i
    push_cast [Nat.pow_eq]
    rw [← hten]
    ring
  · have htwo := zpow_mul_toNat (show (2 : ℚ) ≠ 0 by norm_num) j
    push_cast [Nat.pow_eq]
    rw [← htwo]
    ring

/-- The comparison of scaled integers is that of the rationals that they stand for. -/
theorem compareScaled_eq_lt : compareScaled a i n j = .lt ↔ (a : ℚ) * 10 ^ i < n * 2 ^ j := by
  obtain ⟨k, hk, hleft, hright⟩ := exists_factor a i n j
  rw [compareScaled, Nat.compare_eq_lt, ← Nat.cast_lt (α := ℚ), hleft, hright, mul_lt_mul_iff_left₀ hk]

theorem compareScaled_eq_gt : compareScaled a i n j = .gt ↔ (n : ℚ) * 2 ^ j < a * 10 ^ i := by
  obtain ⟨k, hk, hleft, hright⟩ := exists_factor a i n j
  rw [compareScaled, Nat.compare_eq_gt, ← Nat.cast_lt (α := ℚ), hleft, hright, mul_lt_mul_iff_left₀ hk]

theorem compareScaled_eq_eq : compareScaled a i n j = .eq ↔ (a : ℚ) * 10 ^ i = n * 2 ^ j := by
  obtain ⟨k, hk, hleft, hright⟩ := exists_factor a i n j
  rw [compareScaled, Nat.compare_eq_eq, ← Nat.cast_inj (R := ℚ), hleft, hright, mul_left_inj' hk.ne']

end Decimal

namespace Binary64.Magnitude

/-- The rational number of a magnitude. -/
def size (m : Magnitude) : ℚ := m.scale * 2 ^ m.power

/-- The midpoint to the next lower real. -/
def low (m : Magnitude) : ℚ := m.size - if m.narrowBelow then 2 ^ (m.power - 2) else 2 ^ (m.power - 1)

/-- The midpoint to the next higher real. -/
def high (m : Magnitude) : ℚ := m.size + 2 ^ (m.power - 1)

/-- A number lies between the midpoints to the neighbours of a magnitude. The midpoints count if the scale is
even. -/
def Rounds (m : Magnitude) (q : ℚ) : Prop :=
  (m.low < q ∨ m.scale % 2 = 0 ∧ q = m.low) ∧ (q < m.high ∨ m.scale % 2 = 0 ∧ q = m.high)

/-- A power of two and the one below it, counted in the second one below it. -/
theorem two_zpow (p : Int) : (2 : ℚ) ^ p = 4 * 2 ^ (p - 2) ∧ (2 : ℚ) ^ (p - 1) = 2 * 2 ^ (p - 2) := by
  have htwo : (2 : ℚ) ≠ 0 := by norm_num
  have hsub : p - 1 = (p - 2) + 1 := by omega
  have hsub' : p = (p - 2) + 2 := by omega
  constructor
  · conv_lhs => rw [hsub', zpow_add₀ htwo]
    norm_num
    ring
  · rw [hsub, zpow_add_one₀ htwo]
    ring

variable {m : Magnitude} {q : ℚ}

/-- The midpoints in quarters of a unit. -/
theorem low_eq (hm : m.scale ≠ 0) :
    ((if m.narrowBelow then 4 * m.scale - 1 else 4 * m.scale - 2 : Nat) : ℚ) * 2 ^ (m.power - 2) = m.low := by
  obtain ⟨hunit, hhalf⟩ := two_zpow m.power
  rw [low, size, hunit, hhalf]
  split
  · rw [Nat.cast_sub (by omega)]
    push_cast
    ring
  · rw [Nat.cast_sub (by omega)]
    push_cast
    ring

/-- The upper midpoint, counted in quarters of a place. -/
theorem high_eq (m : Magnitude) : ((4 * m.scale + 2 : Nat) : ℚ) * 2 ^ (m.power - 2) = m.high := by
  obtain ⟨hunit, hhalf⟩ := two_zpow m.power
  rw [high, size, hunit, hhalf]
  push_cast
  ring

/-- A magnitude is above its lower midpoint. -/
theorem low_lt_size (m : Magnitude) : m.low < m.size := by
  unfold low
  split
  · linarith [zpow_pos (show (0 : ℚ) < 2 by norm_num) (m.power - 2)]
  · linarith [zpow_pos (show (0 : ℚ) < 2 by norm_num) (m.power - 1)]

/-- A magnitude is below its upper midpoint. -/
theorem size_lt_high (m : Magnitude) : m.size < m.high := by
  unfold high
  linarith [zpow_pos (show (0 : ℚ) < 2 by norm_num) (m.power - 1)]

/-- A magnitude rounds to itself. -/
theorem rounds_size (m : Magnitude) : m.Rounds m.size := ⟨Or.inl m.low_lt_size, Or.inl m.size_lt_high⟩

/-- What rounds to a magnitude other than zero is not zero. -/
theorem Rounds.pos (h : m.Rounds q) (hm : m.scale ≠ 0) : 0 < q := by
  have hlow : 0 < m.low := by
    rw [← low_eq hm]
    have hpos : 0 < (if m.narrowBelow then 4 * m.scale - 1 else 4 * m.scale - 2 : Nat) := by
      split <;> omega
    positivity
  rcases h.1 with hlt | ⟨-, rfl⟩
  · linarith
  · exact hlow

end Binary64.Magnitude

namespace Decimal

open Binary64 (Magnitude)

variable {m : Magnitude} {digits fuel : Nat} {exponent : Int}

/-- **Reading back is rounding**: the digits are compared with the midpoints. -/
theorem readsBack_iff (hm : m.scale ≠ 0) :
    readsBack m digits exponent = true ↔ m.Rounds (digits * 10 ^ exponent) := by
  unfold readsBack Magnitude.Rounds
  simp only [compareScaled_eq_lt, compareScaled_eq_gt, compareScaled_eq_eq, Magnitude.low_eq hm,
    Magnitude.high_eq, decide_eq_true_eq]

/-! ### The fewest digits -/

/-- A count on the grid of a power of ten reads back. -/
theorem onGrid_readsBack {k : Nat} (h : onGrid m exponent = some k) : readsBack m k exponent = true := by
  unfold onGrid at h
  simp only at h
  split at h
  · split at h <;> cases h <;> assumption
  · cases h
    assumption
  · cases h
    assumption
  · cases h

/-- A factor of ten is the same in the digits and in the exponent. -/
theorem stripZeros_size (fuel digits : Nat) (exponent : Int) :
    ((stripZeros fuel digits exponent).1 : ℚ) * 10 ^ (stripZeros fuel digits exponent).2 =
      digits * 10 ^ exponent := by
  induction fuel generalizing digits exponent with
  | zero => rfl
  | succ fuel ih =>
    unfold stripZeros
    split
    · rename_i hzero
      have hdigits : (digits : ℚ) = (digits / 10 : Nat) * 10 := by
        exact_mod_cast (Nat.div_mul_cancel (Nat.dvd_of_mod_eq_zero hzero)).symm
      rw [ih, zpow_add_one₀ (by norm_num), hdigits]
      ring
    · rfl

/-- The exact value of a magnitude as a decimal. -/
theorem exact_size (m : Magnitude) :
    ((m.scale * Nat.pow 2 m.power.toNat * Nat.pow 5 (-m.power).toNat : Nat) : ℚ) * 10 ^ (min m.power 0) =
      m.size := by
  rw [Magnitude.size]
  rcases Int.le_total 0 m.power with hpower | hpower
  · obtain ⟨k, hk⟩ := Int.eq_ofNat_of_zero_le hpower
    rw [hk]
    simp
  · obtain ⟨k, hk⟩ := Int.exists_eq_neg_ofNat hpower
    have hten : (10 : ℚ) ^ k = 2 ^ k * 5 ^ k := by rw [← mul_pow]; norm_num
    have hmin : min (-(k : Int)) 0 = -k := by omega
    rw [hk, hmin, zpow_neg, zpow_neg, zpow_natCast, zpow_natCast, hten]
    push_cast [Nat.pow_eq]
    rw [neg_neg, Int.toNat_natCast, Int.toNat_neg_natCast, pow_zero, mul_one]
    field_simp

/-- **The shortest decimal of a magnitude rounds to it.** -/
theorem shortest_rounds (hm : m.scale ≠ 0) :
    m.Rounds ((shortest m).1 * 10 ^ (shortest m).2) := by
  unfold shortest
  simp only
  split
  · rename_i digits e hfound
    obtain ⟨e', -, hgrid⟩ := List.exists_of_findSome?_eq_some hfound
    obtain ⟨k, hk, heq⟩ := Option.map_eq_some_iff.1 hgrid
    cases heq
    rw [stripZeros_size]
    exact (readsBack_iff hm).1 (onGrid_readsBack hk)
  · rw [exact_size]
    exact m.rounds_size

/-! ### The decimal of a real -/

variable {x : Binary64}

/-- Only zero has no magnitude. -/
theorem scale_magnitude_eq_zero : x.magnitude.scale = 0 ↔ x.isZero = true := by
  unfold Binary64.magnitude Binary64.isZero
  split <;> simp_all

/-- The decimal of a real has the size of the shortest one that reads back. -/
theorem size_ofBinary64 (h : x.isZero = false) :
    (ofBinary64 x).size = (shortest x.magnitude).1 * 10 ^ (shortest x.magnitude).2 := by
  rw [ofBinary64, h]
  rfl

/-- The decimal of a real has its sign. -/
theorem negative_ofBinary64 (x : Binary64) : (ofBinary64 x).negative = x.isNegative := by
  unfold ofBinary64
  split <;> rfl

/-- **The decimal of a real rounds to the real**, and only zero has the decimal zero. -/
theorem ofBinary64_rounds (x : Binary64) :
    x.magnitude.Rounds (ofBinary64 x).size ∧ ((ofBinary64 x).size = 0 ↔ x.isZero = true) := by
  cases hzero : x.isZero with
  | true =>
    have hdecimal : (ofBinary64 x).size = 0 := by
      rw [ofBinary64, hzero]
      simp [size]
    have hmagnitude : x.magnitude.size = 0 := by
      rw [Magnitude.size, scale_magnitude_eq_zero.2 hzero, Nat.cast_zero, zero_mul]
    have hrounds := x.magnitude.rounds_size
    rw [hmagnitude, ← hdecimal] at hrounds
    exact ⟨hrounds, fun _ => rfl, fun _ => hdecimal⟩
  | false =>
    have hscale : x.magnitude.scale ≠ 0 := fun h => by
      rw [scale_magnitude_eq_zero.1 h] at hzero
      cases hzero
    have hrounds := shortest_rounds hscale
    rw [← size_ofBinary64 hzero] at hrounds
    exact ⟨hrounds, fun h => absurd h (hrounds.pos hscale).ne', nofun⟩

end Decimal

/-! ### Numerals -/

namespace Numeral

open Lexeme (denoted value_eq_denoted)

/-- The number that a numeral stands for, without its sign: the digits before the point count ones and more, those
after it tenths and less, and the exponent counts factors of ten. -/
def size (n : Numeral) : ℚ :=
  (denoted n.whole + denoted (n.part.getD []) / 10 ^ (n.part.getD []).length) * 10 ^ powerValue n.power

/-- A text is a number with the given sign and size. -/
def Denotes (text : List Char) (negative : Bool) (q : ℚ) : Prop :=
  ∃ n : Numeral, n.Sound ∧ text = n.text ∧ (n.sign = some '-' ↔ negative = true) ∧ n.size = q

/-- Digits in front count as often as the places after them say. -/
theorem denoted_append (ds es : List Char) :
    denoted (ds ++ es) = denoted ds * 10 ^ es.length + denoted es := by
  unfold denoted
  rw [List.reverse_append, List.map_append, Nat.ofDigits_append, List.length_map, List.length_reverse]
  ring

/-- The decimal of a numeral is the same number. -/
theorem size_toDecimal (n : Numeral) : n.toDecimal.size = n.size := by
  have hten : (10 : ℚ) ≠ 0 := by norm_num
  unfold toDecimal Decimal.size size
  simp only [value_eq_denoted, denoted_append]
  rw [zpow_sub₀ hten, zpow_natCast]
  push_cast
  field_simp

end Numeral

end PMachine
