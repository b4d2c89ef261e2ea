import PMachine.Proofs.Decimal

/-!
# Written decimals are numerals

In every layout the text of a decimal is a number of the grammar, with the sign and the size of the decimal: in
positional form, where the digits are on both sides of the point or need zeros to reach it, and with an exponent,
however long the mantissa is and however the exponent is written.

* `Decimal.Unsigned`: a text without a sign that is a number of some size.
* `Decimal.positional_unsigned`, `Decimal.scientific_unsigned`: the two forms.
* `Decimal.written_spelled`: the text of a decimal.
-/

namespace PMachine.Decimal

open Lexeme (denoted value_eq_denoted)
open Numeral (denoted_append)

/-- A text without a sign that is a number of the given size. -/
def Unsigned (cs : List Char) (q : ℚ) : Prop :=
  ∃ n : Numeral, n.Sound ∧ n.sign = none ∧ cs = n.spelled 'e' ∧ n.size = q

/-! ### Digits -/

/-- The digits of a number denote it. -/
theorem denoted_digitText (k : Nat) : denoted (digitText k) = k := by
  rw [← value_eq_denoted]
  exact Cursor.value_toDigits k

/-- Zeros denote nothing. -/
theorem denoted_zeros (k : Nat) : denoted (List.replicate k '0') = 0 := by
  induction k with
  | zero => rfl
  | succ k ih =>
    rw [List.replicate_succ', denoted_append, ih]
    rfl

theorem digitText_ne_nil (k : Nat) : digitText k ≠ [] := Nat.toDigits_ne_nil

/-- All characters of a text are digits. -/
def AllDigits (cs : List Char) : Prop := ∀ c ∈ cs, c.isDigit = true

theorem allDigits_digitText (k : Nat) : AllDigits (digitText k) := fun _ => Field.isDigit_of_mem_toDigits

theorem allDigits_zeros (k : Nat) : AllDigits (List.replicate k '0') := fun c hc => by
  rw [List.eq_of_mem_replicate hc]
  decide

/-- Digits behind digits are digits. -/
theorem AllDigits.append {cs ds : List Char} (hcs : AllDigits cs) (hds : AllDigits ds) : AllDigits (cs ++ ds) :=
  fun c hc => (List.mem_append.1 hc).elim (hcs c) (hds c)

/-! ### Positional form -/

variable {whole part : List Char}

/-- Digits before and after a point. -/
theorem unsigned_point (hwhole : AllDigits whole) (hpart : AllDigits part) (hne : whole ≠ []) :
    Unsigned (whole ++ '.' :: part) (denoted (whole ++ part) * 10 ^ (-(part.length : Int))) := by
  refine ⟨⟨none, whole, some part, none⟩, ⟨nofun, hwhole, ?_, ?_, nofun⟩, rfl, ?_, ?_⟩
  · rintro _ ⟨⟩
    exact hpart
  · simp [hne]
  · simp [Numeral.spelled, Numeral.pointText, Numeral.markedText]
  · rw [← Numeral.size_toDecimal]
    simp [Numeral.toDecimal, Numeral.powerValue, size, value_eq_denoted]

variable (l : Layout) (d : Decimal)

/-- The positional form of a decimal is a numeral that denotes its size. -/
theorem positional_unsigned : Unsigned d.positional d.size := by
  have hlength : 0 < (digitText d.digits).length := List.length_pos_of_ne_nil (digitText_ne_nil _)
  have hpower : d.leadingPower = d.exponent + (digitText d.digits).length - 1 := rfl
  unfold positional
  simp only
  split
  · -- zeros fill the places before the point
    rename_i hexponent
    obtain ⟨k, hk⟩ := Int.eq_ofNat_of_zero_le hexponent
    have hsize : d.size = denoted ((digitText d.digits ++ List.replicate d.exponent.toNat '0') ++ ['0']) *
        10 ^ (-(['0'].length : Int)) := by
      rw [denoted_append, denoted_append, denoted_digitText, denoted_zeros, size, hk]
      simp [denoted]
    have hpoint := unsigned_point ((allDigits_digitText d.digits).append (allDigits_zeros d.exponent.toNat))
      (allDigits_zeros 1) (List.append_ne_nil_of_left_ne_nil (digitText_ne_nil _) _)
    rw [hsize]
    exact hpoint
  split
  · -- the point is among the digits
    rename_i hexponent hleading
    have hpart : -((((digitText d.digits).drop (d.leadingPower.toNat + 1)).length : Nat) : Int) = d.exponent := by
      rw [List.length_drop]
      omega
    have hbefore : AllDigits ((digitText d.digits).take (d.leadingPower.toNat + 1)) := fun c hc =>
      allDigits_digitText _ _ (List.mem_of_mem_take hc)
    have hafter : AllDigits ((digitText d.digits).drop (d.leadingPower.toNat + 1)) := fun c hc =>
      allDigits_digitText _ _ (List.mem_of_mem_drop hc)
    have hne : (digitText d.digits).take (d.leadingPower.toNat + 1) ≠ [] := by
      refine List.ne_nil_of_length_pos ?_
      rw [List.length_take]
      omega
    have hpoint := unsigned_point hbefore hafter hne
    rwa [List.take_append_drop, denoted_digitText, hpart] at hpoint
  · -- zeros fill the places after the point
    rename_i hexponent hleading
    have hpart : -(((List.replicate (-d.leadingPower - 1).toNat '0' ++ digitText d.digits).length : Nat) : Int) =
        d.exponent := by
      rw [List.length_append, List.length_replicate]
      omega
    have hpoint := unsigned_point (allDigits_zeros 1)
      ((allDigits_zeros (-d.leadingPower - 1).toNat).append (allDigits_digitText d.digits)) (by simp)
    rwa [hpart, ← List.append_assoc, List.replicate_append_replicate, denoted_append, denoted_zeros,
      Nat.zero_mul, Nat.zero_add, denoted_digitText] at hpoint

/-! ### With an exponent -/

/-- The sign of an exponent. -/
def Layout.sign? (e : Int) : Option Char :=
  if e < 0 then some '-' else if l.signedExponent then some '+' else none

/-- The digits of an exponent, with zeros up to the least number of them. -/
def Layout.padded (e : Int) : List Char :=
  List.replicate (l.exponentWidth - (digitText e.natAbs).length) '0' ++ digitText e.natAbs

/-- An exponent is its sign, if it has one, and its padded digits. -/
theorem Layout.exponent_eq (e : Int) : l.exponent e = (l.sign? e).toList ++ l.padded e := by
  unfold Layout.exponent Layout.sign? Layout.padded
  rw [← List.append_assoc]
  split
  · rfl
  · split <;> rfl

/-- The sign of an exponent is a sign. -/
theorem Layout.isSign_sign? (e : Int) : ∀ c ∈ l.sign? e, Numeral.isSign c = true := by
  unfold Layout.sign?
  split
  · rintro _ ⟨⟩
    rfl
  · split
    · rintro _ ⟨⟩
      rfl
    · nofun

/-- The digits of an exponent stay digits when they are padded. -/
theorem Layout.allDigits_padded (e : Int) : AllDigits (l.padded e) :=
  (allDigits_zeros _).append (allDigits_digitText _)

/-- An exponent has digits. -/
theorem Layout.padded_ne_nil (e : Int) : l.padded e ≠ [] :=
  List.append_ne_nil_of_right_ne_nil _ (digitText_ne_nil _)

/-- The exponent has its value, whatever zeros and sign it has. -/
theorem Layout.powerValue_exponent (e : Int) : Numeral.powerValue (some (l.sign? e, l.padded e)) = e := by
  have hdigits : Cursor.value (l.padded e) = e.natAbs := by
    rw [value_eq_denoted, padded, denoted_append, denoted_zeros, denoted_digitText, Nat.zero_mul, Nat.zero_add]
  unfold Numeral.powerValue
  simp only [hdigits]
  unfold Cursor.signed Layout.sign?
  split
  · rw [if_pos (by decide)]
    omega
  · split
    · rw [if_neg (by decide)]
      omega
    · rw [if_neg (by decide)]
      omega

/-- A digit, further digits after a point if there are any, and an exponent. -/
theorem unsigned_exponent {c : Char} {part : Option (List Char)} {sign : Option Char} {ds : List Char}
    (hc : c.isDigit = true) (hpart : ∀ cs ∈ part, AllDigits cs) (hsign : ∀ c ∈ sign, Numeral.isSign c = true)
    (hne : ds ≠ []) (hds : AllDigits ds) :
    Unsigned (c :: (Numeral.pointText part ++ 'e' :: (sign.toList ++ ds)))
      (denoted (c :: part.getD []) *
        10 ^ (Numeral.powerValue (some (sign, ds)) - ((part.getD []).length : Int))) := by
  refine ⟨⟨none, [c], part, some (sign, ds)⟩, ⟨nofun, ?_, hpart, rfl, ?_⟩, rfl, rfl, ?_⟩
  · exact List.forall_mem_singleton.2 hc
  · rintro _ ⟨⟩
    exact ⟨hsign, by simpa using hne, hds⟩
  · rw [← Numeral.size_toDecimal]
    simp [Numeral.toDecimal, size, value_eq_denoted]

/-- The form with an exponent is a numeral that denotes the size of the decimal. -/
theorem scientific_unsigned : Unsigned (d.scientific l) d.size := by
  obtain ⟨c, more, hdigits⟩ := List.exists_cons_of_ne_nil (digitText_ne_nil d.digits)
  have hall : AllDigits (c :: more) := hdigits ▸ allDigits_digitText d.digits
  have hvalue : denoted (c :: more) = d.digits := hdigits ▸ denoted_digitText d.digits
  have hpower : d.leadingPower - (more.length : Int) = d.exponent := by
    have hlength : digitCount d.digits = more.length + 1 := congrArg List.length hdigits
    rw [leadingPower, hlength]
    omega
  -- there is a point only if more than one digit is left
  have hmantissa : ∃ part : Option (List Char), part.getD [] = more ∧ (∀ cs ∈ part, AllDigits cs) ∧
      d.scientific l = c :: (Numeral.pointText part ++ 'e' :: l.exponent d.leadingPower) := by
    unfold scientific
    rw [hdigits]
    cases more with
    | nil => exact ⟨none, rfl, nofun, rfl⟩
    | cons x xs =>
      refine ⟨some (x :: xs), rfl, ?_, rfl⟩
      rintro _ ⟨⟩
      exact fun y hy => hall y (List.mem_cons_of_mem _ hy)
  obtain ⟨part, rfl, hpart, htext⟩ := hmantissa
  have hexponent := unsigned_exponent (hall c List.mem_cons_self) hpart (l.isSign_sign? d.leadingPower)
    (l.padded_ne_nil d.leadingPower) (l.allDigits_padded d.leadingPower)
  rw [htext, l.exponent_eq]
  rwa [hvalue, l.powerValue_exponent, hpower] at hexponent

/-! ### Both forms -/

/-- **The text of a decimal is a number**, with the sign and the size of the decimal. -/
theorem written_spelled : ∃ n : Numeral, n.Sound ∧ d.written l = n.spelled 'e' ∧
    (n.sign = some '-' ↔ d.negative = true) ∧ n.size = d.size := by
  have hbody : Unsigned (if d.digits = 0 then ['0', '.', '0']
      else if -4 ≤ d.leadingPower ∧ d.leadingPower < 16 then d.positional else d.scientific l) d.size := by
    split
    · rename_i hzero
      have hpoint := unsigned_point (allDigits_zeros 1) (allDigits_zeros 1) (by simp)
      rw [List.replicate_append_replicate, denoted_zeros, Nat.cast_zero, zero_mul] at hpoint
      rwa [size, hzero, Nat.cast_zero, zero_mul]
    split
    · exact d.positional_unsigned
    · exact d.scientific_unsigned l
  obtain ⟨n, hsound, hsign, htext, hsize⟩ := hbody
  unfold written
  simp only [htext]
  split
  · rename_i hnegative
    refine ⟨{ n with sign := some '-' }, ⟨?_, hsound.whole, hsound.part, hsound.digit, hsound.power⟩, ?_, ?_,
      hsize⟩
    · rintro _ ⟨⟩
      rfl
    · simp [Numeral.spelled, hsign]
    · simp [hnegative]
  · rename_i hpositive
    refine ⟨n, hsound, rfl, ?_, hsize⟩
    simp [hsign, hpositive]

end PMachine.Decimal
