import PMachine.Machine.Field
import PMachine.Proofs.Numeral

/-!
# Integers in fields

An integer is written in decimal at the right end of a field. Whatever the width of the field, what is
written reads back as the same integer: the blanks before it are white space, and the digits end with the
line.

* `Field.length_integer`: a field is as wide as it should be, or as long as the integer needs.
* `Field.integer_eq_encode`: the characters of a field.
* `Cursor.word_integerText`: an integer reads back from its field.
-/

namespace PMachine

/-! ### Writing -/

namespace Field

open Lines (encode)

/-- The decimal text of an integer is the usual one. -/
theorem decimal_eq (n : Int) : decimal n = (toString n).toList := by
  cases n with
  | ofNat n =>
    have hn : ¬ Int.ofNat n < 0 := Int.not_lt.2 (Int.natCast_nonneg n)
    rw [decimal]
    simp only [if_neg hn]
    exact Nat.toList_repr.symm
  | negSucc n =>
    rw [decimal]
    simp only [if_pos (Int.negSucc_lt_zero n)]
    show _ = ("-" ++ (n + 1).repr).toList
    rw [String.toList_append, Nat.toList_repr]
    rfl

/-- The field of an integer is as long as its width or as the text needs. -/
theorem length_integer (width : Nat) (n : Word) :
    (integer width n).length = max width (toString n.toInt).length := by
  rw [integer, right, List.length_leftpad, ascii, List.length_map, decimal_eq, String.length_toList]

/-- The characters of an integer in a field. -/
def integerText (width : Nat) (n : Word) : List Char := List.leftpad width ' ' (decimal n.toInt)

/-- The sign of an integer in a field. -/
def sign? (n : Int) : Option Char := if n < 0 then some '-' else none

/-- The decimal of an integer is its sign and its digits. -/
theorem decimal_eq_append (n : Int) : decimal n = (sign? n).toList ++ Nat.toDigits 10 n.natAbs := by
  unfold decimal sign?
  split <;> rfl

/-- What stands in the digits of a number are digits. -/
theorem isDigit_of_mem_toDigits {n : Nat} {c : Char} (h : c ∈ Nat.toDigits 10 n) : c.isDigit = true :=
  Nat.isDigit_of_mem_toDigits (by decide) (by decide) h

/-- The sign of an integer is a sign. -/
theorem isSign_sign? {n : Int} : ∀ c ∈ sign? n, Numeral.isSign c = true := by
  unfold sign?
  split
  · rintro _ ⟨⟩
    rfl
  · nofun

/-- Sign and absolute value make up the integer. -/
theorem signed_natAbs (n : Int) : Cursor.signed (sign? n = some '-') n.natAbs = n := by
  unfold sign? Cursor.signed
  split
  · rw [if_pos (by decide)]
    omega
  · rw [if_neg (by decide)]
    omega

theorem decimal_ne_nil (n : Int) : decimal n ≠ [] := by
  rw [decimal_eq_append]
  exact List.append_ne_nil_of_right_ne_nil _ Nat.toDigits_ne_nil

/-- A decimal is made of digits, behind a minus if it has one. -/
theorem mem_decimal {n : Int} {c : Char} (h : c ∈ decimal n) : c = '-' ∨ c.isDigit = true := by
  rw [decimal_eq_append] at h
  rcases List.mem_append.1 h with h | h
  · left
    unfold sign? at h
    split at h
    · exact List.mem_singleton.1 h
    · cases h
  · exact Or.inr (isDigit_of_mem_toDigits h)

/-- Each character of a decimal could start a number. -/
theorem starts_of_mem_decimal {n : Int} {c : Char} (h : c ∈ decimal n) : Numeral.Starts c := by
  rcases mem_decimal h with rfl | hc
  · exact Or.inl rfl
  · exact Or.inr (Or.inl hc)

/-- A field holds blanks and what belongs to an integer. -/
theorem mem_integerText {width : Nat} {n : Word} {c : Char} (h : c ∈ integerText width n) :
    c = ' ' ∨ c = '-' ∨ c.isDigit = true := by
  rw [integerText, List.leftpad] at h
  rcases List.mem_append.1 h with h | h
  · exact Or.inl (List.eq_of_mem_replicate h)
  · exact Or.inr (mem_decimal h)

/-- ASCII characters are encoded as their own bytes. -/
theorem ascii_eq_encode {cs : List Char} (h : ∀ c ∈ cs, c.toNat < 128) : ascii cs = encode cs := by
  induction cs with
  | nil => rfl
  | cons c cs ih =>
    have hc : String.utf8EncodeChar c = [UInt8.ofNat c.toNat] := by
      have hle : c.val.toNat ≤ 127 := Nat.le_of_lt_succ (h c List.mem_cons_self)
      simp only [String.utf8EncodeChar, if_pos hle]
      rfl
    rw [encode, List.flatMap_cons, hc, ← encode, ← ih fun x hx => h x (List.mem_cons_of_mem _ hx)]
    rfl

/-- The field of an integer is the encoding of its text. -/
theorem integer_eq_encode (width : Nat) (n : Word) : integer width n = encode (integerText width n) := by
  have hascii : ∀ c ∈ integerText width n, c.toNat < 128 := fun c hc => by
    rcases mem_integerText hc with rfl | rfl | hc
    · decide
    · decide
    · exact Lines.ascii_isDigit c hc
  rw [← ascii_eq_encode hascii, integer, right, integerText, List.leftpad, List.leftpad, ascii, ascii,
    List.map_append, List.map_replicate, List.length_map]
  rfl

end Field

/-! ### Reading -/

/-- A text without carriage returns is read as it is. -/
theorem FlatText.normalise_encode {cs : List Char} (h : ∀ c ∈ cs, c.toNat < 128 ∧ c ≠ '\r') :
    normalise (Lines.encode cs) = Lines.encode cs := by
  rw [← Field.ascii_eq_encode fun c hc => (h c hc).1]
  induction cs with
  | nil => rfl
  | cons c cs ih =>
    obtain ⟨hascii, hreturn⟩ := h c List.mem_cons_self
    have hbyte : UInt8.ofNat c.toNat ≠ 13 := fun hb => hreturn (by
      have hmod : c.toNat % 2 ^ 8 = 13 := by
        rw [← UInt8.toNat_ofNat', hb]
        rfl
      rw [← Char.toNat_inj]
      have : '\r'.toNat = 13 := rfl
      omega)
    rw [Field.ascii, List.map_cons, normalise, if_neg fun hb => hbyte hb.1, ← Field.ascii,
      ih fun x hx => h x (List.mem_cons_of_mem _ hx)]

namespace Cursor

open TextInput (isSpace)

/-- An integer after white space, as a file is read. -/
def word : Action LineText Word := do
  let _ ← takeWhile isSpace
  let n ← integer
  Action.orFault (Word.ofInt? n) .integerInput

/-- The digits of a number have its value. -/
theorem value_toDigits (n : Nat) : value (Nat.toDigits 10 n) = n :=
  Nat.ofDigitChars_toDigits (by decide) (by decide)

/-- Digits are read up to a character that is none. -/
theorem natural_digits {ds rest : LineText} (hds : ∀ c ∈ ds, c.isDigit = true) (hne : ds ≠ [])
    (hrest : ∀ c ∈ rest.head?, c.isDigit = false) : natural (ds ++ rest) = .ok (value ds) rest := by
  have hempty : ¬ ds.isEmpty = true := fun h => hne (List.isEmpty_iff.1 h)
  have hdigits : digits .integerExpected (ds ++ rest) = .ok ds rest := by
    rw [digits, Action.bind_of_ok (takeWhile_line_append hds hrest), if_neg hempty]
    rfl
  rw [natural, Action.bind_of_ok hdigits, Action.pure_apply]

/-- So is an integer, which may have a sign before its digits. -/
theorem integer_digits {sign? : Option Char} {ds rest : LineText}
    (hsign : ∀ c ∈ sign?, Numeral.isSign c = true) (hds : ∀ c ∈ ds, c.isDigit = true) (hne : ds ≠ [])
    (hrest : ∀ c ∈ rest.head?, c.isDigit = false) :
    integer (sign?.toList ++ (ds ++ rest)) = .ok (signed (sign? = some '-') (value ds)) rest := by
  have hunsigned : ∀ c ∈ (ds ++ rest).head?, Numeral.isSign c = false := by
    rw [List.head?_append_of_ne_nil _ hne]
    exact fun c hc => isSign_eq_false_of_isDigit (hds c (List.mem_of_mem_head? hc))
  have hread : sign (sign?.toList ++ (ds ++ rest)) = .ok (sign? = some '-') (ds ++ rest) :=
    Action.bind_of_ok (accept_line_toList hsign hunsigned)
  rw [integer, Action.bind_of_ok hread, Action.bind_of_ok (natural_digits hds hne hrest),
    Action.pure_apply]

/-- The digits of a number are read as the number, up to what is no digit. -/
theorem natural_toDigits (n : Nat) {rest : LineText} (hrest : ∀ c ∈ rest.head?, c.isDigit = false) :
    natural (Nat.toDigits 10 n ++ rest : LineText) = .ok n rest := by
  rw [natural_digits (fun _ => Field.isDigit_of_mem_toDigits) Nat.toDigits_ne_nil hrest, value_toDigits]

/-- Every integer reads back from its decimal text. -/
theorem integer_decimal (n : Int) {rest : LineText} (hrest : ∀ c ∈ rest.head?, c.isDigit = false) :
    integer (Field.decimal n ++ rest : LineText) = .ok n rest := by
  rw [Field.decimal_eq_append, List.append_assoc,
    integer_digits Field.isSign_sign? (fun _ => Field.isDigit_of_mem_toDigits) Nat.toDigits_ne_nil hrest,
    value_toDigits, Field.signed_natAbs]

/-- **An integer reads back from its field**, after white space and up to the end of the line. -/
theorem word_integerText {before : LineText} (hbefore : ∀ c ∈ before, isSpace c = true) (width : Nat)
    (n : Word) (rest : LineText) :
    word (before ++ (Field.integerText width n ++ '\n' :: rest) : LineText) = .ok n ('\n' :: rest) := by
  have hblanks : ∀ c ∈ before ++ List.replicate (width - (Field.decimal n.toInt).length) ' ',
      isSpace c = true := fun c hc => by
    rcases List.mem_append.1 hc with hc | hc
    · exact hbefore c hc
    · rw [List.eq_of_mem_replicate hc]
      decide
  have hhead : ∀ c ∈ (Field.decimal n.toInt ++ '\n' :: rest).head?, isSpace c = false := by
    rw [List.head?_append_of_ne_nil _ (Field.decimal_ne_nil _)]
    exact fun c hc => (Field.starts_of_mem_decimal (List.mem_of_mem_head? hc)).isSpace_eq_false
  rw [Field.integerText, List.leftpad, List.append_assoc, ← List.append_assoc before, word,
    Action.bind_of_ok (takeWhile_line_append hblanks hhead),
    Action.bind_of_ok (integer_decimal _ fun c hc => by cases hc; decide), Word.ofInt?_toInt]
  rfl

/-- Where only white space is left there is no integer. -/
theorem word_space {before : LineText} (hbefore : ∀ c ∈ before, isSpace c = true) :
    word before = .error .integerExpected [] := by
  rw [word, Action.bind_of_ok (takeWhile_line_all hbefore)]
  rfl

/-- A file is read as its characters are. -/
theorem word_agree : Agree word TextInput.readInteger := by
  have hfile : TextInput.readInteger = (do
      let _ ← takeWhile isSpace
      let n ← integer
      Action.orFault (Word.ofInt? n) .integerInput) := by
    unfold TextInput.readInteger TextInput.skipSpace
    simp only [bind_assoc, pure_bind]
  rw [hfile]
  exact (takeWhile_agree TextInput.ascii_isSpace).bind fun _ => integer_agree.bind fun _ => .orFault _ _

end Cursor

end PMachine
