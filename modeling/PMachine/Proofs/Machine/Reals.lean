import PMachine.Proofs.Decimal.Layout

/-!
# Reals in fields

A finite real is written with its decimal at the right end of a field, in positional form or with an exponent. A
line and a file read it back as the same decimal, sign included, and stop behind it.

* `Field.realText`: the characters of a field.
* `Binary64.chars_spelled`: a finite real is written as a number of the grammar.
* `Lexeme.spelling_append`, `TextInput.spelling_append`: a number after blanks, in a line and in a file.
* `Field.reals_read_back`: what was written is read.
-/

namespace PMachine

open Numeral (Ends isSign isMark)
open FlatText (character)

/-! ### Writing -/

/-- A finite real is written as a number with its sign and its decimal. -/
theorem Binary64.chars_spelled {x : Binary64} (hx : x.isFinite = true) (l : Decimal.Layout) :
    ∃ n : Numeral, n.Sound ∧ x.chars l = n.spelled 'e' ∧ (n.sign = some '-' ↔ x.isNegative = true) ∧
      n.size = (Decimal.ofBinary64 x).size := by
  have hnumber : x.isNaN = false := by
    unfold isFinite at hx
    unfold isNaN
    simp_all
  have htext : x.chars l = (Decimal.ofBinary64 x).written l := by
    unfold chars
    simp only [hnumber, hx, Bool.false_eq_true, if_false, if_true]
  rw [htext, ← Decimal.negative_ofBinary64]
  exact Decimal.written_spelled l _

namespace Field

/-- The characters of a real in a field. -/
def realText (width : Nat) (x : Binary64) : List Char := List.leftpad width ' ' (x.chars realLayout)

/-- The field of a real is made of ASCII characters. -/
theorem real_eq_ascii (width : Nat) (x : Binary64) : real width x = ascii (realText width x) := by
  rw [real, right, realText, List.leftpad, List.leftpad, ascii, ascii, List.map_append, List.map_replicate,
    List.length_map]
  rfl

/-- A field holds blanks and then the real. -/
theorem realText_spelled {x : Binary64} (hx : x.isFinite = true) (width : Nat) : ∃ k, ∃ n : Numeral, n.Sound ∧
    realText width x = List.replicate k ' ' ++ n.spelled 'e' ∧ (n.sign = some '-' ↔ x.isNegative = true) ∧
      n.size = (Decimal.ofBinary64 x).size := by
  obtain ⟨n, hsound, htext, hsign, hsize⟩ := Binary64.chars_spelled hx realLayout
  refine ⟨width - (n.spelled 'e').length, n, hsound, ?_, hsign, hsize⟩
  rw [realText, List.leftpad, htext]

end Field

/-! ### Characters and bytes -/

namespace FlatText

/-- An ASCII character is the character of its byte. -/
theorem map_character_ascii {cs : List Char} (h : ∀ c ∈ cs, c.toNat < 128) :
    (Field.ascii cs).map character = cs := by
  rw [Field.ascii, List.map_map]
  refine (List.map_congr_left fun c hc => ?_).trans (List.map_id cs)
  have hc := h c hc
  rw [← Char.toNat_inj]
  exact Lines.character_ofNat (by omega)

/-- Bytes that are taken for one character are one. -/
theorem character_injective : Function.Injective character := by
  intro b b' h
  have hnat : ∀ b : UInt8, (character b).toNat = b.toNat := fun b => by
    have hb := Lines.character_ofNat b.toNat_lt
    rwa [UInt8.ofNat_toNat] at hb
  rw [← UInt8.toNat_inj, ← hnat, ← hnat, h]

end FlatText

/-- A numeral has ASCII characters only. -/
theorem Numeral.Sound.ascii {n : Numeral} (h : n.Sound) : ∀ c ∈ n.spelled 'e', c.toNat < 128 := by
  have hdigit : ∀ c : Char, c.isDigit = true → c.toNat < 128 := Lines.ascii_isDigit
  have hsign : ∀ c : Char, isSign c = true → c.toNat < 128 := Cursor.ascii_isSign
  intro c hc
  simp only [spelled, List.mem_append, Option.mem_toList] at hc
  rcases hc with hc | hc | hc | hc
  · exact hsign c (h.sign c hc)
  · exact hdigit c (h.whole c hc)
  · cases hpart : n.part with
    | none => simp [hpart, pointText] at hc
    | some cs =>
      rw [hpart] at hc
      rcases List.mem_cons.1 hc with rfl | hc
      · decide
      · exact hdigit c (h.part cs hpart c hc)
  · cases hpower : n.power with
    | none => simp [hpower, markedText] at hc
    | some y =>
      rw [hpower] at hc
      obtain ⟨hsigns, -, hdigits⟩ := h.power y hpower
      rcases List.mem_cons.1 hc with rfl | hc
      · decide
      rcases List.mem_append.1 hc with hc | hc
      · exact hsign c (hsigns c (Option.mem_toList.1 hc))
      · exact hdigit c (hdigits c hc)

/-! ### Reading -/

variable {n : Numeral} {blanks rest : LineText}

/-- A numeral in a line is read after blanks, up to what does not belong to it. -/
theorem Lexeme.spelling_append (hblanks : ∀ c ∈ blanks, isBlank c = true) (hsound : n.Sound)
    (hrest : Ends rest) : spelling (blanks ++ (n.spelled 'e' ++ rest)) = .ok n.text rest := by
  have hhead : ∀ c ∈ (n.spelled 'e' ++ rest).head?, isBlank c = false := fun c hc =>
    (Cursor.head?_spelled hsound 'e' rest c hc).isBlank_eq_false
  rw [spelling, Action.bind_of_ok (skipBlanks_append hblanks hhead),
    Action.bind_of_ok (Cursor.numeral_append hsound (by decide) hrest)]
  rfl

namespace TextInput

/-- The text of a real number after white space, as a file is read. -/
def freeSpelling : Action LineText (List Char) := do
  let _ ← Cursor.takeWhile isSpace
  let n ← Cursor.numeral
  return n.text

/-- A real is read from any file as from a line, if each byte is taken for a character. -/
theorem spelling_bytewise : Cursor.Bytewise freeSpelling spelling := by
  have hfile : spelling = (do
      let _ ← Cursor.takeWhile isSpace
      let n ← Cursor.numeral
      return n.text) := by
    unfold spelling skipSpace
    simp only [bind_assoc, pure_bind]
  rw [hfile]
  exact (Cursor.takeWhile_bytewise isSpace).bind fun _ =>
    Cursor.bytewise_simulation.numeral.bind fun _ => .pure _

/-- A spelled real is read from behind white space, up to what does not belong to it. -/
theorem freeSpelling_append (hblanks : ∀ c ∈ blanks, isSpace c = true) (hsound : n.Sound) (hrest : Ends rest) :
    freeSpelling (blanks ++ (n.spelled 'e' ++ rest)) = .ok n.text rest := by
  have hhead : ∀ c ∈ (n.spelled 'e' ++ rest).head?, isSpace c = false := fun c hc =>
    (Cursor.head?_spelled hsound 'e' rest c hc).isSpace_eq_false
  rw [freeSpelling, Action.bind_of_ok (Cursor.takeWhile_line_append hblanks hhead),
    Action.bind_of_ok (Cursor.numeral_append hsound (by decide) hrest)]
  rfl

/-- In a file too, whatever bytes follow. -/
theorem spelling_append {t : TextInput} {bytes : List UInt8} (hblanks : ∀ c ∈ blanks, c = ' ') (hsound : n.Sound)
    (ht : t.Steady) (hview : t.view = Field.ascii (blanks ++ n.spelled 'e') ++ bytes)
    (hbytes : Ends (bytes.map character)) :
    ∃ t', t'.Steady ∧ t'.view = bytes ∧ spelling t = .ok n.text t' := by
  have hascii : ∀ c ∈ blanks ++ n.spelled 'e', c.toNat < 128 := fun c hc => by
    rcases List.mem_append.1 hc with hc | hc
    · rw [hblanks c hc]
      decide
    · exact hsound.ascii c hc
  have hshown : Cursor.shown t = blanks ++ (n.spelled 'e' ++ bytes.map character) := by
    rw [Cursor.shown, hview, List.map_append, FlatText.map_character_ascii hascii, List.append_assoc]
  have hspaces : ∀ c ∈ blanks, isSpace c = true := fun c hc => by
    rw [hblanks c hc]
    decide
  have hread := freeSpelling_append hspaces hsound hbytes
  rw [← hshown] at hread
  obtain ⟨t', ht', ⟨s, hline, hfile⟩ | ⟨f, hline, -⟩⟩ := spelling_bytewise t ht
  · rw [hread] at hline
    injection hline with hs hleft
    refine ⟨t', ht', ?_, hs ▸ hfile⟩
    exact (List.map_injective_iff.2 FlatText.character_injective hleft).symm
  · rw [hread] at hline
    cases hline

end TextInput

namespace Field

/-- **Reals read back.** What a finite real is written as is read by a line and by a file up to its end, in a field
of any width, before a blank, before the end and before whatever else is in no number. Both read the same text, and
it is a number as a whole. Its sign is the sign of the real, zero or not, and it stands for the decimal that was
written, which rounds to the real. -/
theorem reals_read_back {x : Binary64} (hx : x.isFinite = true) (width : Nat) :
    let q := (Decimal.ofBinary64 x).size
    x.magnitude.Rounds q ∧ (q = 0 ↔ x.isZero = true) ∧
    ∃ s y, Numeral.Denotes s x.isNegative q ∧ Decimal.convert s = .ok y ∧
      (∀ rest, Ends rest → Lexeme.spelling (realText width x ++ rest) = .ok s rest ∧
        Lexeme.real (realText width x ++ rest) = .ok y rest) ∧
      ∀ (t : TextInput) (rest : List UInt8), t.Steady → t.view = real width x ++ rest →
        Ends (rest.map FlatText.character) → ∃ t', t'.Steady ∧ t'.view = rest ∧
          TextInput.spelling t = .ok s t' ∧ TextInput.readReal t = .ok y t' := by
  obtain ⟨hrounds, hzero⟩ := Decimal.ofBinary64_rounds x
  obtain ⟨k, n, hsound, htext, hsign, hsize⟩ := realText_spelled hx width
  have hblanks : ∀ c ∈ List.replicate k ' ', c = ' ' := fun c hc => (List.mem_replicate.1 hc).2
  have hconvert := hsound.convert_text
  refine ⟨hrounds, hzero, n.text, n.toDecimal.toBinary64, ⟨n, hsound, rfl, hsign, hsize⟩, hconvert, ?_, ?_⟩
  · intro rest hrest
    have hline : Lexeme.spelling (realText width x ++ rest) = .ok n.text rest := by
      rw [htext, List.append_assoc]
      exact Lexeme.spelling_append (fun c hc => by rw [hblanks c hc]; rfl) hsound hrest
    refine ⟨hline, ?_⟩
    rw [Lexeme.real_eq, Action.bind_of_ok hline, hconvert]
    rfl
  · intro t rest ht hview hrest
    rw [real_eq_ascii, htext] at hview
    obtain ⟨t', ht', hleft, hfile⟩ := TextInput.spelling_append hblanks hsound ht hview hrest
    refine ⟨t', ht', hleft, hfile, ?_⟩
    rw [TextInput.readReal_eq, Action.bind_of_ok hfile, hconvert]
    rfl

/-- A negative real whose exponent is written. -/
def smallReal : Binary64 := ⟨0xbe8421f5f40d8376⟩

theorem reals_read_back_small : smallReal.isFinite = true ∧ smallReal.isNegative = true ∧
    (Decimal.ofBinary64 smallReal).size = 15 / 10 ^ 8 ∧
    ∃ s y, Numeral.Denotes s true (15 / 10 ^ 8) ∧ Decimal.convert s = .ok y ∧
      Lexeme.real "  -1.5e-07 7".toList = .ok y " 7".toList ∧
      ∃ t, TextInput.readReal (.ofSource ⟨ascii "  -1.5e-07 7".toList, none⟩) = .ok y t ∧
        t.view = ascii " 7".toList := by
  have hdecimal : Decimal.ofBinary64 smallReal = ⟨true, 15, -8⟩ := by decide +kernel
  have hsize : (Decimal.ofBinary64 smallReal).size = 15 / 10 ^ 8 := by
    rw [hdecimal, Decimal.size]
    norm_num
  have htext : "  -1.5e-07 7".toList = realText 10 smallReal ++ " 7".toList := by decide +kernel
  obtain ⟨-, -, s, y, hs, hy, hline, hfile⟩ := reals_read_back (x := smallReal) (by decide) 10
  rw [hsize] at hs
  obtain ⟨t, -, hleft, -, hread⟩ := hfile _ (ascii " 7".toList) (TextInput.steady_ofSource _)
    (show TextInput.view (.ofSource ⟨ascii "  -1.5e-07 7".toList, none⟩) = _ by decide +kernel)
    (by rintro c ⟨⟩; decide)
  refine ⟨by decide, by decide, hsize, s, y, hs, hy, ?_, t, hread, hleft⟩
  rw [htext]
  exact (hline _ (by rintro c ⟨⟩; decide)).2

end Field

end PMachine
