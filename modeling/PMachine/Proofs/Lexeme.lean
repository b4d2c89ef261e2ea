import PMachine.Proofs.Machine.Field
import PMachine.Proofs.Statement.ReadBack
import PMachine.Proofs.Syntax

/-!
# Integers in a line

An integer in a line stands after blanks: an optional sign and digits, as many as there are. It is read if
its value fits a word, and what follows the digits is left. Unsigned integers have no sign and another
range.

* `Lexeme.Begins`: the grammar of both kinds of integers, of any size.
* `Lexeme.number_eq_ok_iff`: reading follows the grammar.
* `Lexeme.ranged_eq_ok_iff`, `Lexeme.ranged_refused_iff`: a range on top of it.
* `Lexeme.Spells`: the characters of an integer that fits a word.
* `Lexeme.spells_decimal`: the decimal text of a word spells it.
* `Lexeme.integer_of_spells`, `Lexeme.spells_of_integer`: what is read is what is spelled.
* `Lexeme.integers_exact`: so what is read are the integers of the grammar that lie in the range.
-/

namespace PMachine.Lexeme

open Numeral (isSign)

variable {α : Type} {signs : List Char} {cs text rest : LineText} {n : Word} {v : Int} {c : Char}

/-- Blanks are skipped up to a character that is none. -/
theorem skipBlanks_append {blanks : LineText} (hblanks : ∀ c ∈ blanks, isBlank c = true)
    (hrest : ∀ c ∈ rest.head?, isBlank c = false) : skipBlanks (blanks ++ rest) = .ok ⟨⟩ rest := by
  rw [skipBlanks, Action.modify_apply, List.dropWhile_append_of_pos hblanks]
  cases rest with
  | nil => rfl
  | cons c rest => rw [List.dropWhile_cons_of_neg (Bool.eq_false_iff.1 (hrest c rfl))]

/-! ### The grammar -/

/-- The number that digits denote by their places; the last one counts ones. -/
def denoted (ds : List Char) : Nat := Nat.ofDigits 10 (ds.reverse.map fun c => c.toNat - '0'.toNat)

/-- The value that is read from digits is the number that they denote. -/
theorem value_eq_denoted (ds : List Char) : Cursor.value ds = denoted ds := by
  induction ds using List.reverseRecOn with
  | nil => rfl
  | append_singleton ds c ih =>
    have hvalue : Cursor.value (ds ++ [c]) = 10 * Cursor.value ds + (c.toNat - '0'.toNat) := by
      rw [Cursor.value, List.foldl_append]
      rfl
    rw [hvalue, ih, Nat.add_comm]
    unfold denoted
    rw [List.reverse_append, List.reverse_singleton, List.singleton_append, List.map_cons, Nat.ofDigits_cons]

/-- The value of digits with a sign, as it is computed. -/
theorem signed_value (sign : Option Char) (ds : List Char) :
    Cursor.signed (sign = some '-') (Cursor.value ds) =
      if sign = some '-' then -(denoted ds : Int) else denoted ds := by
  rw [Cursor.signed, value_eq_denoted]
  simp only [decide_eq_true_eq]

/-- A text begins, after blanks, with an integer: with a sign, where it is one of `signs`, and with all the
digits before `rest`, of which there is at least one. -/
inductive Begins (signs : List Char) : LineText → Int → LineText → Prop where
  | intro {blanks ds rest : LineText} {sign : Option Char} (hblanks : ∀ c ∈ blanks, isBlank c = true)
      (hsign : ∀ c ∈ sign, c ∈ signs) (hne : ds ≠ []) (hds : ∀ c ∈ ds, c.isDigit = true)
      (hrest : ∀ c ∈ rest.head?, c.isDigit = false) :
      Begins signs (blanks ++ (sign.toList ++ (ds ++ rest)))
        (if sign = some '-' then -(denoted ds : Int) else denoted ds) rest

/-- An integer of any size, with one of the signs or none. -/
def number (signs : List Char) : Action LineText Int := do
  skipBlanks
  let sign ← Cursor.accept (signs.contains ·)
  let k ← Cursor.natural
  return Cursor.signed (sign = some '-') k

/-- A number of the grammar is read, with its value. -/
theorem number_of_begins (hsigns : ∀ c ∈ signs, isSign c = true) (h : Begins signs text v rest) :
    number signs text = .ok v rest := by
  obtain @⟨blanks, ds, _, sign, hblanks, hsign, hne, hds, hrest⟩ := h
  have hdigit : ∀ c ∈ (ds ++ rest).head?, c.isDigit = true := by
    rw [List.head?_append_of_ne_nil _ hne]
    exact fun c hc => hds c (List.mem_of_mem_head? hc)
  have hstop : ∀ c ∈ (ds ++ rest).head?, signs.contains c = false := fun c hc => by
    rw [Bool.eq_false_iff]
    intro hmem
    have hsign := hsigns c (List.contains_iff_mem.1 hmem)
    rw [Cursor.isSign_eq_false_of_isDigit (hdigit c hc)] at hsign
    cases hsign
  have hhead : ∀ c ∈ (sign.toList ++ (ds ++ rest)).head?, isBlank c = false :=
    Cursor.head?_append_of_all
      (fun c hc => Numeral.Starts.isBlank_eq_false (Or.inl (hsigns c (hsign c (Option.mem_toList.1 hc)))))
      fun c hc => Numeral.Starts.isBlank_eq_false (Or.inr (Or.inl (hdigit c hc)))
  have haccept : Cursor.accept (signs.contains ·) (sign.toList ++ (ds ++ rest)) = .ok sign (ds ++ rest) :=
    Cursor.accept_line_toList (fun c hc => List.contains_iff_mem.2 (hsign c hc)) hstop
  rw [number, Action.bind_of_ok (skipBlanks_append hblanks hhead), Action.bind_of_ok haccept,
    Action.bind_of_ok (Cursor.natural_digits hds hne hrest), signed_value, Action.pure_apply]

/-- What is read as a number is one of the grammar. -/
theorem begins_of_number (h : number signs text = .ok v rest) : Begins signs text v rest := by
  rw [number, Action.bind_of_ok (show skipBlanks text = .ok ⟨⟩ (text.dropWhile isBlank) from rfl)] at h
  obtain ⟨sign, t, haccept, h⟩ := Action.bind_eq_ok.1 h
  obtain ⟨k, t', hnatural, h⟩ := Action.bind_eq_ok.1 h
  cases h
  obtain ⟨ds, u, hdigits, hvalue⟩ := Action.bind_eq_ok.1 hnatural
  cases hvalue
  obtain ⟨hne, hds⟩ := Cursor.digits_sound hdigits
  have hsplit : text = text.takeWhile isBlank ++ (sign.toList ++ (ds ++ rest)) := by
    rw [← Cursor.digits_consumes hdigits, ← Cursor.accept_consumes haccept,
      List.takeWhile_append_dropWhile]
  rw [signed_value, hsplit]
  exact .intro (fun c hc => List.mem_takeWhile_imp hc)
    (fun c hc => List.contains_iff_mem.1 (Cursor.accept_sound haccept c hc)) (by simpa using hne) hds
    (Cursor.digits_stop hdigits)

/-- **Reading follows the grammar.** -/
theorem number_eq_ok_iff (hsigns : ∀ c ∈ signs, isSign c = true) :
    number signs text = .ok v rest ↔ Begins signs text v rest :=
  ⟨begins_of_number, number_of_begins hsigns⟩

/-- Where there is no number, the text is malformed. -/
theorem number_malformed : Action.Raises (·.kind = .parse) (number signs) :=
  .bind skipBlanks_raises fun _ => .bind (Cursor.accept_raises _) fun _ =>
    .bind (Cursor.natural_raises rfl) fun _ => .pure _

/-! ### Ranges -/

/-- An integer in a range: one for which there is a value. -/
def ranged (signs : List Char) (value? : Int → Option α) : Action LineText α := do
  let v ← number signs
  Action.orFault (value? v) .integerTooLarge

/-- A number in a range is read if one of the grammar begins the text and is in the range. -/
theorem ranged_eq_ok_iff (hsigns : ∀ c ∈ signs, isSign c = true) {value? : Int → Option α} {a : α} :
    ranged signs value? text = .ok a rest ↔ ∃ v, Begins signs text v rest ∧ value? v = some a := by
  simp only [ranged, Action.bind_eq_ok, number_eq_ok_iff hsigns, Action.orFault_eq_ok]
  constructor
  · rintro ⟨v, _, hbegins, hvalue, rfl⟩
    exact ⟨v, hbegins, hvalue⟩
  · rintro ⟨v, hbegins, hvalue⟩
    exact ⟨v, rest, hbegins, hvalue, rfl⟩

/-- Every other text is refused for its form. -/
theorem ranged_refused_iff (hsigns : ∀ c ∈ signs, isSign c = true) {value? : Int → Option α} :
    (∃ f u, ranged signs value? text = .error f u ∧ f.kind = .parse) ↔
      ¬ ∃ v rest, Begins signs text v rest ∧ (value? v).isSome := by
  have hmalformed : Action.Raises (·.kind = .parse) (ranged signs value?) :=
    .bind number_malformed fun _ => .orFault rfl
  constructor
  · rintro ⟨f, u, hrun, -⟩ ⟨v, rest, hbegins, hsome⟩
    obtain ⟨a, hvalue⟩ := Option.isSome_iff_exists.1 hsome
    rw [(ranged_eq_ok_iff hsigns).2 ⟨v, hbegins, hvalue⟩] at hrun
    cases hrun
  · intro hnone
    cases hrun : ranged signs value? text with
    | ok a rest =>
      obtain ⟨v, hbegins, hvalue⟩ := (ranged_eq_ok_iff hsigns).1 hrun
      exact absurd ⟨v, rest, hbegins, Option.isSome_of_eq_some hvalue⟩ hnone
    | error f u => exact ⟨f, u, rfl, hmalformed text f u hrun⟩

/-- Integers are numbers with any sign that fit a word. -/
theorem integer_eq_ranged : integer = ranged ['+', '-'] Word.ofInt? := by
  have hsigns : (fun c => ['+', '-'].contains c) = fun c : Char => c = '-' || c = '+' := by
    funext c
    simp [List.contains_eq_mem, Bool.or_comm]
  simp only [integer, ranged, number, Cursor.integer, Cursor.sign, hsigns, bind_assoc, pure_bind]

/-- An integer that is not signed, if it lies in the range. -/
def unsigned? (v : Int) : Option Nat := if v < 2 ^ 64 then some v.toNat else none

/-- Unsigned integers are numbers without a sign below `2 ^ 64`. -/
theorem unsigned_eq_ranged : unsigned = ranged [] unsigned? := by
  have haccept : Cursor.accept (([] : List Char).contains ·) = (pure none : Action LineText (Option Char)) := by
    funext cs
    exact Cursor.accept_line_none fun _ _ => rfl
  have hrange : ∀ k : Nat, (if k < 0x10000000000000000 then pure k else throw .integerTooLarge) =
      (Action.orFault (unsigned? k) .integerTooLarge : Action LineText Nat) := fun k => by
    have hlt : (k : Int) < 2 ^ 64 ↔ k < 0x10000000000000000 := by omega
    unfold unsigned?
    simp only [hlt]
    split
    · rfl
    · rfl
  simp only [unsigned, ranged, number, haccept, hrange, bind_assoc, pure_bind]
  rfl

/-! ### Integers of the grammar -/

/-- The signs of integers are the two signs. -/
theorem mem_signs_iff : c ∈ ['+', '-'] ↔ isSign c = true := by
  simp [isSign, or_comm]

theorem isSign_of_mem : ∀ c ∈ ['+', '-'], isSign c = true := fun _ => mem_signs_iff.1

/-- An integer is read if one of the grammar begins the text. -/
theorem integer_eq_ok_iff : integer text = .ok n rest ↔ Begins ['+', '-'] text n.toInt rest := by
  rw [integer_eq_ranged, ranged_eq_ok_iff isSign_of_mem]
  simp only [Word.ofInt?_eq_some_iff]
  constructor
  · rintro ⟨_, hbegins, rfl⟩
    exact hbegins
  · exact fun hbegins => ⟨_, hbegins, rfl⟩

/-- Without signs no integer is negative. -/
theorem Begins.nonneg (h : Begins [] text v rest) : 0 ≤ v := by
  obtain @⟨blanks, ds, _, sign, -, hsign, -, -, -⟩ := h
  have hnone : sign ≠ some '-' := by
    rintro rfl
    exact absurd (hsign '-' rfl) List.not_mem_nil
  rw [if_neg hnone]
  exact Int.natCast_nonneg _

/-- An unsigned integer is read if one of the grammar begins the text and is below `2 ^ 64`. -/
theorem unsigned_eq_ok_iff {k : Nat} :
    unsigned text = .ok k rest ↔ Begins [] text k rest ∧ k < 2 ^ 64 := by
  rw [unsigned_eq_ranged, ranged_eq_ok_iff (List.forall_mem_nil _)]
  simp only [unsigned?, Option.ite_none_right_eq_some, Option.some.injEq]
  constructor
  · rintro ⟨v, hbegins, hlt, rfl⟩
    have hnonneg := hbegins.nonneg
    rw [Int.toNat_of_nonneg hnonneg]
    exact ⟨hbegins, by omega⟩
  · rintro ⟨hbegins, hlt⟩
    exact ⟨k, hbegins, by omega, Int.toNat_natCast k⟩

/-! ### Spelled integers -/

/-- The characters spell an integer that fits a word. -/
inductive Spells : List Char → Word → Prop where
  | intro {sign : Option Char} {ds : List Char} {n : Word} (hsign : ∀ c ∈ sign, isSign c = true)
      (hds : ∀ c ∈ ds, c.isDigit = true) (hne : ds ≠ [])
      (hn : n.toInt = if sign = some '-' then -(denoted ds : Int) else denoted ds) : Spells (sign.toList ++ ds) n

/-- The decimal of an integer spells it. -/
theorem spells_decimal (n : Word) : Spells (Field.decimal n.toInt) n := by
  rw [Field.decimal_eq_append]
  refine .intro Field.isSign_sign? (fun _ => Field.isDigit_of_mem_toDigits) Nat.toDigits_ne_nil ?_
  rw [← signed_value, Cursor.value_toDigits, Field.signed_natAbs]

/-- An integer is spelled with characters. -/
theorem Spells.ne_nil (h : Spells cs n) : cs ≠ [] := by
  obtain ⟨-, -, hne, -⟩ := h
  exact List.append_ne_nil_of_right_ne_nil _ hne

/-- An integer is spelled with signs and digits only. -/
theorem Spells.mem (h : Spells cs n) (hc : c ∈ cs) : c = '-' ∨ c = '+' ∨ c.isDigit = true := by
  obtain ⟨hsign, hds, -, -⟩ := h
  rcases List.mem_append.1 hc with hc | hc
  · have hsign := hsign c (Option.mem_toList.1 hc)
    simp only [isSign, Bool.or_eq_true, decide_eq_true_eq] at hsign
    exact hsign.imp id Or.inl
  · exact Or.inr (Or.inr (hds c hc))

/-- What stands between integers does not occur in them. -/
theorem Spells.not_mem (h : Spells cs n) : (∀ c ∈ cs, isBlank c = false) ∧ ',' ∉ cs ∧ ')' ∉ cs := by
  have hnot : ∀ x, (x == '-' || x == '+' || x.isDigit) = false → x ∉ cs := by
    intro x hx hmem
    rcases h.mem hmem with rfl | rfl | hdigit
    · cases hx
    · cases hx
    · rw [hdigit, Bool.or_true] at hx
      cases hx
  refine ⟨fun c hc => ?_, hnot ',' rfl, hnot ')' rfl⟩
  rw [isBlank, Bool.or_eq_false_iff, decide_eq_false_iff_not, decide_eq_false_iff_not]
  exact ⟨fun hspace => hnot ' ' rfl (hspace ▸ hc), fun htab => hnot '\t' rfl (htab ▸ hc)⟩

/-- An integer is read after blanks, up to a character that is no digit. -/
theorem integer_of_spells {blanks : LineText} (hblanks : ∀ c ∈ blanks, isBlank c = true) (h : Spells cs n)
    (hrest : ∀ c ∈ rest.head?, c.isDigit = false) : integer (blanks ++ (cs ++ rest)) = .ok n rest := by
  obtain ⟨hsign, hds, hne, hn⟩ := h
  rw [integer_eq_ok_iff, hn, List.append_assoc]
  exact .intro hblanks (fun c hc => mem_signs_iff.2 (hsign c hc)) hne hds hrest

/-- What is read as an integer is spelled after blanks, and it ends where its digits end. -/
theorem spells_of_integer (h : integer text = .ok n rest) :
    ∃ blanks cs, text = blanks ++ (cs ++ rest) ∧ (∀ c ∈ blanks, isBlank c = true) ∧ Spells cs n ∧
      ∀ c ∈ rest.head?, c.isDigit = false := by
  rw [integer_eq_ok_iff] at h
  generalize hv : n.toInt = v at h
  obtain @⟨blanks, ds, _, sign, hblanks, hsign, hne, hds, hrest⟩ := h
  refine ⟨blanks, sign.toList ++ ds, by rw [List.append_assoc], hblanks, ?_, hrest⟩
  exact .intro (fun c hc => mem_signs_iff.1 (hsign c hc)) hds hne hv

/-! ### Reading -/

/-- **Integers are read by their grammar and within their range.** An integer of a line is read exactly if the
text begins with blanks, an optional sign and digits, and the value of all the digits that come there, with
the sign, fits a word. The value is this one, and what follows the digits is left. An unsigned integer is
read in the same way, but without a sign and below `2 ^ 64`. Every other text is refused for its form. In
particular, each value is read from its decimal text. -/
theorem integers_exact (text : LineText) :
    (∀ n rest, integer text = .ok n rest ↔ Begins ['+', '-'] text n.toInt rest) ∧
    (∀ k rest, unsigned text = .ok k rest ↔ Begins [] text k rest ∧ k < 2 ^ 64) ∧
    ((∃ f rest, integer text = .error f rest ∧ f.kind = .parse) ↔
      ¬ ∃ v rest, Begins ['+', '-'] text v rest ∧ -2 ^ 63 ≤ v ∧ v < 2 ^ 63) ∧
    ((∃ f rest, unsigned text = .error f rest ∧ f.kind = .parse) ↔
      ¬ ∃ v rest, Begins [] text v rest ∧ v < 2 ^ 64) ∧
    ((∀ c ∈ text.head?, c.isDigit = false) →
      (∀ n : Word, integer ((toString n.toInt).toList ++ text) = .ok n text) ∧
      ∀ k < 2 ^ 64, unsigned ((toString k).toList ++ text) = .ok k text) := by
  refine ⟨fun n rest => integer_eq_ok_iff, fun k rest => unsigned_eq_ok_iff, ?_, ?_, fun hstop => ⟨fun n => ?_,
    fun k hk => ?_⟩⟩
  · have hfits : ∀ v, (Word.ofInt? v).isSome ↔ -2 ^ 63 ≤ v ∧ v < 2 ^ 63 := fun v => by
      simp [Word.ofInt?]
    rw [integer_eq_ranged, ranged_refused_iff isSign_of_mem]
    simp only [hfits]
  · have hfits : ∀ v, (unsigned? v).isSome ↔ v < 2 ^ 64 := fun v => by
      simp [unsigned?]
    rw [unsigned_eq_ranged, ranged_refused_iff (List.forall_mem_nil _)]
    simp only [hfits]
  · rw [← Field.decimal_eq]
    exact integer_of_spells (List.forall_mem_nil _) (spells_decimal n) hstop
  · have htext : (toString k).toList = Nat.toDigits 10 k := Nat.toList_repr
    rw [htext]
    -- a blank in front makes no difference
    exact unsigned_toDigits hk hstop

theorem integers_exact_least :
    (∀ c ∈ " L7".toList.head?, c.isDigit = false) ∧
      integer "-9223372036854775808 L7".toList = .ok Int64.minValue " L7".toList ∧
      unsigned "18446744073709551615 L7".toList = .ok 18446744073709551615 " L7".toList ∧
      ∃ f rest, integer "\t+ 7".toList = .error f rest ∧ f.kind = .parse := by
  have hstop : ∀ c ∈ " L7".toList.head?, c.isDigit = false := by
    rintro _ ⟨⟩
    rfl
  obtain ⟨-, -, -, -, hdecimal⟩ := integers_exact " L7".toList
  obtain ⟨hinteger, hunsigned⟩ := hdecimal hstop
  obtain ⟨-, -, hrefused, -⟩ := integers_exact "\t+ 7".toList
  refine ⟨hstop, hinteger Int64.minValue, hunsigned 18446744073709551615 (by norm_num), hrefused.2 ?_⟩
  rintro ⟨v, rest, hbegins, -⟩
  have hnone : number ['+', '-'] "\t+ 7".toList = .error .integerExpected " 7".toList := rfl
  rw [number_of_begins isSign_of_mem hbegins] at hnone
  cases hnone

end PMachine.Lexeme
