import PMachine.Proofs.Cursor

/-!
# The numbers of programs and of files

The loader reads numbers from the characters of a line, the machine from the bytes of a file. Both take
them apart in the same way, malformed ones included, and stop at the same place.

* `Numeral`: a real number as it is spelled; `Numeral.text` is the text that is converted.
* `Cursor.decimal_eq`: the decimal that is read is that of the numeral.
* `Cursor.numeral_append`: a numeral is read as it is spelled, up to what does not belong to it.
* `Cursor.numeral_consumes`: the text is what was read, but for the letter that marks the exponent.
* `Lexeme.numbers_agree`: integers and reals of programs and of files.
-/

namespace PMachine

/-! ### Numbers as they are spelled -/

/-- A real number as it is spelled. -/
structure Numeral where
  /-- The sign, if there is one. -/
  sign : Option Char
  /-- The digits before the point. -/
  whole : List Char
  /-- The digits after the point, if there is a point. -/
  part : Option (List Char)
  /-- The sign and the digits of the exponent, if there is one. -/
  power : Option (Option Char × List Char)
deriving DecidableEq, Repr

namespace Numeral

/-- The signs of numbers and of exponents. -/
def isSign (c : Char) : Bool := c = '-' || c = '+'

/-- The marks of exponents. -/
def isMark (c : Char) : Bool := c = 'e' || c = 'E'

/-- The text of a point and the digits after it. -/
def pointText : Option (List Char) → List Char
  | some cs => '.' :: cs
  | none => []

/-- The text of an exponent. Its mark is a capital letter, whichever was read. -/
def powerText : Option (Option Char × List Char) → List Char
  | some (sign, cs) => 'E' :: (sign.toList ++ cs)
  | none => []

/-- The text that is converted. -/
def text (n : Numeral) : List Char := n.sign.toList ++ (n.whole ++ (pointText n.part ++ powerText n.power))

/-- The text of an exponent with one of the marks. -/
def markedText (mark : Char) : Option (Option Char × List Char) → List Char
  | some (sign, cs) => mark :: (sign.toList ++ cs)
  | none => []

/-- A numeral as it is spelled with one of the marks. -/
def spelled (mark : Char) (n : Numeral) : List Char :=
  n.sign.toList ++ (n.whole ++ (pointText n.part ++ markedText mark n.power))

/-- The text of a numeral is its spelling with a capital mark. -/
theorem text_eq_spelled (n : Numeral) : n.text = n.spelled 'E' := by
  have hpower : powerText n.power = markedText 'E' n.power := by cases n.power <;> rfl
  rw [text, spelled, hpower]

/-- What does not belong to a numeral before it: nothing, or first a character that is in no numeral, but for a
sign. -/
def Ends (rest : List Char) : Prop := ∀ c ∈ rest.head?, c.isDigit = false ∧ c ≠ '.' ∧ isMark c = false

/-- The value of an exponent; 0 if there is none. -/
def powerValue : Option (Option Char × List Char) → Int
  | some (sign, cs) => Cursor.signed (sign = some '-') (Cursor.value cs)
  | none => 0

/-- The decimal that a numeral stands for. -/
def toDecimal (n : Numeral) : Decimal :=
  ⟨n.sign = some '-', Cursor.value (n.whole ++ n.part.getD []),
    powerValue n.power - (n.part.getD []).length⟩

/-- The characters with which a number may begin. -/
def Starts (c : Char) : Prop := isSign c = true ∨ c.isDigit = true ∨ c = '.'

theorem Starts.isSpace_eq_false {c : Char} (h : Starts c) : TextInput.isSpace c = false := by
  rw [Bool.eq_false_iff]
  intro hc
  simp only [TextInput.isSpace, Bool.or_eq_true, decide_eq_true_eq] at hc
  unfold Starts at h
  rcases hc with (((rfl | rfl) | rfl) | rfl) | rfl <;> revert h <;> decide

theorem Starts.isBlank_eq_false {c : Char} (h : Starts c) : Lexeme.isBlank c = false := by
  rw [Bool.eq_false_iff]
  intro hc
  simp only [Lexeme.isBlank, Bool.or_eq_true, decide_eq_true_eq] at hc
  unfold Starts at h
  rcases hc with rfl | rfl <;> revert h <;> decide

/-- A numeral as the grammar has it: a digit before or after the point, and one in an exponent. -/
structure Sound (n : Numeral) : Prop where
  sign : ∀ c ∈ n.sign, isSign c = true
  whole : ∀ c ∈ n.whole, c.isDigit = true
  part : ∀ cs ∈ n.part, ∀ c ∈ cs, c.isDigit = true
  digit : (n.whole.isEmpty && (n.part.getD []).isEmpty) = false
  power : ∀ x ∈ n.power, (∀ c ∈ x.1, isSign c = true) ∧ x.2.isEmpty = false ∧ ∀ c ∈ x.2, c.isDigit = true

end Numeral

namespace Cursor

open Lines (encode Ascii)
open Numeral (isSign isMark pointText powerText markedText Ends)

section Reading

variable {σ : Type} [Cursor σ]

/-- A point and the digits after it, if there is a point. -/
def pointPart : Action σ (Option (List Char)) := do
  match ← accept (· = '.') with
  | some _ =>
    let cs ← takeWhile Char.isDigit
    return some cs
  | none => return none

/-- A mark, an optional sign and digits, if there is a mark. -/
def exponentPart : Action σ (Option (Option Char × List Char)) := do
  match ← accept isMark with
  | some _ =>
    let sign ← accept isSign
    let cs ← digits .exponentExpected
    return some (sign, cs)
  | none => return none

/-- A real number as it is spelled. -/
def numeral : Action σ Numeral := do
  let sign ← accept isSign
  let whole ← takeWhile Char.isDigit
  let part ← pointPart
  if whole.isEmpty && (part.getD []).isEmpty then throw .realExpected
  let power ← exponentPart
  return ⟨sign, whole, part, power⟩

/-- A fraction is the part behind the point, or nothing. -/
theorem fraction_eq : (fraction : Action σ (List Char)) = pointPart >>= fun part => pure (part.getD []) := by
  unfold fraction pointPart
  rw [bind_assoc]
  refine bind_congr fun c => ?_
  cases c with
  | none => rfl
  | some c =>
    simp only [bind_assoc, pure_bind, Option.getD_some]
    exact (bind_pure (takeWhile Char.isDigit : Action σ (List Char))).symm

/-- An exponent is the value of the part behind the mark. -/
theorem exponent_eq :
    (exponent : Action σ Int) = exponentPart >>= fun power => pure (Numeral.powerValue power) := by
  unfold exponent exponentPart sign
  simp only [bind_assoc, pure_bind]
  refine bind_congr fun c => ?_
  cases c with
  | none => rfl
  | some c =>
    simp only [bind_assoc, pure_bind]
    rfl

/-- **A decimal is read as it is spelled**, by every cursor. -/
theorem decimal_eq : (decimal : Action σ Decimal) = numeral >>= fun n => pure n.toDecimal := by
  unfold decimal numeral sign
  rw [fraction_eq, exponent_eq]
  simp only [bind_assoc, pure_bind]
  refine bind_congr fun _ => bind_congr fun _ => bind_congr fun _ => ?_
  split <;> simp only [bind_assoc, pure_bind] <;> rfl

variable {p : Char → Bool} {s s' : σ}

/-- What is accepted satisfies the condition. -/
theorem accept_sound {c : Option Char} (h : accept p s = .ok c s') : ∀ x ∈ c, p x = true := by
  obtain ⟨next, s₁, -, h⟩ := Action.bind_eq_ok.1 h
  cases next with
  | none => cases h; nofun
  | some x =>
    simp only at h
    split at h
    · rename_i hpx
      cases h
      rintro _ ⟨⟩
      exact hpx
    · cases h
      nofun

/-- So does all that is collected. -/
theorem takeWhile_sound {cs : List Char} (h : takeWhile p s = .ok cs s') : ∀ c ∈ cs, p c = true := by
  have hgo : ∀ (n : Nat) (s : σ) (cs : List Char), takeWhile.go p n s = .ok cs s' → ∀ c ∈ cs, p c = true := by
    intro n
    induction n with
    | zero => intro s cs h; cases h; nofun
    | succ n ih =>
      intro s cs h
      obtain ⟨next, s₁, haccept, h⟩ := Action.bind_eq_ok.1 h
      cases next with
      | none => cases h; nofun
      | some x =>
        obtain ⟨rest, s₂, hrest, h⟩ := Action.bind_eq_ok.1 h
        cases h
        exact List.forall_mem_cons.2 ⟨accept_sound haccept x rfl, ih s₁ rest hrest⟩
  exact hgo _ s cs h

/-- Digits are digits, and at least one. -/
theorem digits_sound {missing : Fault} {cs : List Char} (h : digits missing s = .ok cs s') :
    cs.isEmpty = false ∧ ∀ c ∈ cs, c.isDigit = true := by
  obtain ⟨cs', s₁, htake, h⟩ := Action.bind_eq_ok.1 h
  split at h
  · cases h
  · rename_i hne
    cases h
    exact ⟨Bool.eq_false_iff.2 hne, takeWhile_sound htake⟩

theorem pointPart_sound {part : Option (List Char)} (h : pointPart s = .ok part s') :
    ∀ cs ∈ part, ∀ c ∈ cs, c.isDigit = true := by
  obtain ⟨c, s₁, -, h⟩ := Action.bind_eq_ok.1 h
  cases c with
  | none => cases h; nofun
  | some c =>
    obtain ⟨cs, s₂, htake, h⟩ := Action.bind_eq_ok.1 h
    cases h
    rintro _ ⟨⟩
    exact takeWhile_sound htake

theorem exponentPart_sound {power : Option (Option Char × List Char)} (h : exponentPart s = .ok power s') :
    ∀ x ∈ power, (∀ c ∈ x.1, isSign c = true) ∧ x.2.isEmpty = false ∧ ∀ c ∈ x.2, c.isDigit = true := by
  obtain ⟨c, s₁, -, h⟩ := Action.bind_eq_ok.1 h
  cases c with
  | none => cases h; nofun
  | some c =>
    obtain ⟨sign, s₂, hsign, h⟩ := Action.bind_eq_ok.1 h
    obtain ⟨cs, s₃, hdigits, h⟩ := Action.bind_eq_ok.1 h
    cases h
    rintro _ ⟨⟩
    exact ⟨accept_sound hsign, digits_sound hdigits⟩

/-- What is read is a numeral of the grammar. -/
theorem numeral_sound {n : Numeral} (h : numeral s = .ok n s') : n.Sound := by
  obtain ⟨sign, s₁, hsign, h⟩ := Action.bind_eq_ok.1 h
  obtain ⟨whole, s₂, hwhole, h⟩ := Action.bind_eq_ok.1 h
  obtain ⟨part, s₃, hpart, h⟩ := Action.bind_eq_ok.1 h
  split at h
  · cases h
  · rename_i hdigit
    obtain ⟨power, s₄, hpower, h⟩ := Action.bind_eq_ok.1 h
    cases h
    exact ⟨accept_sound hsign, takeWhile_sound hwhole, pointPart_sound hpart, Bool.eq_false_iff.2 hdigit,
      exponentPart_sound hpower⟩

end Reading

/-! ### The text of a numeral -/

theorem isSign_eq_false_of_isDigit {c : Char} (h : c.isDigit = true) : isSign c = false := by
  rw [isSign, Bool.or_eq_false_iff, decide_eq_false_iff_not, decide_eq_false_iff_not]
  refine ⟨?_, ?_⟩ <;> rintro rfl <;> exact absurd h (by decide)

theorem ne_point_of_isMark {c : Char} (h : isMark c = true) : c ≠ '.' ∧ c.isDigit = false := by
  simp only [isMark, Bool.or_eq_true, decide_eq_true_eq] at h
  rcases h with rfl | rfl <;> decide

/-- The first character of a run, or of what comes after it, has a property. -/
theorem head?_append_of_all {P : Char → Prop} {cs rest : LineText} (hcs : ∀ c ∈ cs, P c)
    (hrest : ∀ c ∈ rest.head?, P c) : ∀ c ∈ (cs ++ rest).head?, P c := by
  cases cs with
  | nil => exact hrest
  | cons c cs =>
    rintro _ ⟨⟩
    exact hcs c List.mem_cons_self

/-- The part behind a mark is read from its text, up to what can be no part of a number. -/
theorem exponentPart_append {mark : Char} (hmark : isMark mark = true) {power : Option (Option Char × List Char)}
    (h : ∀ x ∈ power, (∀ c ∈ x.1, isSign c = true) ∧ x.2.isEmpty = false ∧ ∀ c ∈ x.2, c.isDigit = true)
    {rest : LineText} (hrest : Ends rest) :
    exponentPart (markedText mark power ++ rest : LineText) = .ok power rest := by
  cases power with
  | none => exact Action.bind_of_ok (accept_line_none fun c hc => (hrest c hc).2.2)
  | some x =>
    obtain ⟨sign, cs⟩ := x
    obtain ⟨hsign, hne, hcs⟩ := h _ rfl
    have hhead : ∀ c ∈ (cs ++ rest).head?, isSign c = false := by
      rw [List.head?_append_of_ne_nil _ (by simpa using hne)]
      exact fun c hc => isSign_eq_false_of_isDigit (hcs c (List.mem_of_mem_head? hc))
    have hdigits : digits .exponentExpected (cs ++ rest : LineText) = .ok cs rest := by
      rw [digits, Action.bind_of_ok (takeWhile_line_append hcs fun c hc => (hrest c hc).1), hne,
        if_neg (by decide)]
      rfl
    rw [markedText, List.cons_append, List.append_assoc, exponentPart,
      Action.bind_of_ok (accept_line_some hmark _)]
    simp only [Action.bind_of_ok (accept_line_toList hsign hhead), Action.bind_of_ok hdigits]
    rfl

/-- So is the part behind a point. -/
theorem pointPart_append {part : Option (List Char)} (h : ∀ cs ∈ part, ∀ c ∈ cs, c.isDigit = true)
    {rest : LineText} (hrest : ∀ c ∈ rest.head?, c ≠ '.' ∧ c.isDigit = false) :
    pointPart (pointText part ++ rest : LineText) = .ok part rest := by
  cases part with
  | none =>
    have hpoint : ∀ c ∈ rest.head?, decide (c = '.') = false := fun c hc => decide_eq_false (hrest c hc).1
    exact Action.bind_of_ok (accept_line_none hpoint)
  | some cs =>
    have htake := takeWhile_line_append (h cs rfl) fun c hc => (hrest c hc).2
    rw [pointText, List.cons_append, pointPart, Action.bind_of_ok (accept_line_some (by decide) _)]
    simp only [Action.bind_of_ok htake]
    rfl

/-- A numeral without its sign begins with a digit or a point. -/
theorem head?_unsigned {n : Numeral} (h : n.Sound) (more : LineText) :
    ∀ c ∈ (n.whole ++ (pointText n.part ++ more)).head?, c.isDigit = true ∨ c = '.' := by
  have hdigit := h.digit
  cases hwhole : n.whole with
  | cons c cs =>
    have hc : c.isDigit = true := h.whole c (hwhole ▸ List.mem_cons_self)
    rintro _ ⟨⟩
    exact Or.inl hc
  | nil =>
    rw [hwhole] at hdigit
    cases hpart : n.part with
    | none => simp [hpart] at hdigit
    | some cs =>
      rintro _ ⟨⟩
      exact Or.inr rfl

/-- A numeral begins with a sign, a digit or a point. -/
theorem head?_spelled {n : Numeral} (h : n.Sound) (mark : Char) (rest : LineText) :
    ∀ c ∈ (n.spelled mark ++ rest).head?, Numeral.Starts c := by
  simp only [Numeral.spelled, List.append_assoc]
  refine head?_append_of_all (fun c hc => Or.inl (h.sign c (Option.mem_toList.1 hc))) fun c hc => Or.inr ?_
  exact head?_unsigned h _ c hc

/-- **A numeral is read as it is spelled**, with either mark, up to what does not belong to it. -/
theorem numeral_append {n : Numeral} (h : n.Sound) {mark : Char} (hmark : isMark mark = true) {rest : LineText}
    (hrest : Ends rest) : numeral (n.spelled mark ++ rest : LineText) = .ok n rest := by
  -- where one piece ends, the next character does not belong to it
  have hpower : ∀ c ∈ (markedText mark n.power ++ rest).head?, c ≠ '.' ∧ c.isDigit = false := by
    cases n.power with
    | none => exact fun c hc => ⟨(hrest c hc).2.1, (hrest c hc).1⟩
    | some x =>
      rintro _ ⟨⟩
      exact ne_point_of_isMark hmark
  have hpoint : ∀ c ∈ (pointText n.part ++ (markedText mark n.power ++ rest)).head?, c.isDigit = false := by
    cases n.part with
    | none => exact fun c hc => (hpower c hc).2
    | some cs =>
      rintro _ ⟨⟩
      decide
  have hsplit : n.spelled mark ++ rest =
      n.sign.toList ++ (n.whole ++ (pointText n.part ++ (markedText mark n.power ++ rest))) := by
    simp only [Numeral.spelled, List.append_assoc]
  have hunsigned : ∀ c ∈ (n.whole ++ (pointText n.part ++ (markedText mark n.power ++ rest))).head?,
      isSign c = false := fun c hc => by
    rcases head?_unsigned h _ c hc with hc | rfl
    · exact isSign_eq_false_of_isDigit hc
    · decide
  rw [numeral, hsplit, Action.bind_of_ok (accept_line_toList h.sign hunsigned),
    Action.bind_of_ok (takeWhile_line_append h.whole hpoint), Action.bind_of_ok (pointPart_append h.part hpower),
    h.digit]
  exact Action.bind_of_ok (exponentPart_append hmark h.power hrest)

/-- A numeral is read from its text, all of it. -/
theorem numeral_text {n : Numeral} (h : n.Sound) : numeral (n.text : LineText) = .ok n [] := by
  have hends : Ends [] := nofun
  have hread := numeral_append h (show isMark 'E' = true by decide) hends
  rwa [List.append_nil, ← Numeral.text_eq_spelled] at hread

/-! ### Numbers -/

theorem ascii_isSign : Ascii isSign := by
  intro c hc
  simp only [isSign, Bool.or_eq_true, decide_eq_true_eq] at hc
  rcases hc with rfl | rfl <;> decide

theorem ascii_isMark : Ascii isMark := by
  intro c hc
  simp only [isMark, Bool.or_eq_true, decide_eq_true_eq] at hc
  rcases hc with rfl | rfl <;> decide

theorem ascii_point : Ascii (· = '.') := by
  intro c hc
  rw [decide_eq_true_eq] at hc
  subst hc
  decide

namespace Simulation

variable {R : {α : Type} → Action LineText α → Action TextInput α → Prop} (h : Simulation R)
include h

theorem digits (missing : Fault) : R (Cursor.digits missing) (Cursor.digits missing) := by
  refine h.bind (h.takeWhile Lines.ascii_isDigit) fun _ => ?_
  split
  · exact h.bind (h.throw missing) fun _ => h.pure _
  · exact h.pure _

theorem integer : R Cursor.integer Cursor.integer :=
  h.bind (h.bind (h.accept ascii_isSign) fun _ => h.pure _) fun _ =>
    h.bind (h.bind (h.digits _) fun _ => h.pure _) fun _ => h.pure _

theorem pointPart : R Cursor.pointPart Cursor.pointPart := by
  refine h.bind (h.accept ascii_point) fun c => ?_
  cases c with
  | none => exact h.pure _
  | some c => exact h.bind (h.takeWhile Lines.ascii_isDigit) fun _ => h.pure _

theorem exponentPart : R Cursor.exponentPart Cursor.exponentPart := by
  refine h.bind (h.accept ascii_isMark) fun c => ?_
  cases c with
  | none => exact h.pure _
  | some c => exact h.bind (h.accept ascii_isSign) fun _ => h.bind (h.digits _) fun _ => h.pure _

theorem numeral : R Cursor.numeral Cursor.numeral := by
  refine h.bind (h.accept ascii_isSign) fun _ => h.bind (h.takeWhile Lines.ascii_isDigit) fun _ =>
    h.bind h.pointPart fun _ => ?_
  split
  · exact h.bind (h.throw _) fun _ => h.bind h.exponentPart fun _ => h.pure _
  · exact h.bind h.exponentPart fun _ => h.pure _

end Simulation

theorem integer_agree : Agree integer integer := agree_simulation.integer

theorem numeral_agree : Agree numeral numeral := agree_simulation.numeral

/-! ### What a numeral consumes -/

/-- The mark of an exponent as a capital letter; other characters are as they are. -/
def capital (c : Char) : Char := if c = 'e' then 'E' else c

theorem capital_eq_of_ne {c : Char} (h : c ≠ 'e') : capital c = c := if_neg h

theorem map_capital {cs : List Char} (h : ∀ c ∈ cs, c ≠ 'e') : cs.map capital = cs := by
  rw [List.map_congr_left fun c hc => capital_eq_of_ne (h c hc), List.map_id']

theorem accept_consumes {cs rest : LineText} {c : Option Char} (h : accept p cs = .ok c rest) :
    cs = c.toList ++ rest := by
  rw [accept_line] at h
  cases cs with
  | nil => cases h; rfl
  | cons x more =>
    simp only at h
    split at h <;> cases h <;> rfl

theorem takeWhile_consumes {cs rest run : LineText} (h : takeWhile p cs = .ok run rest) : cs = run ++ rest := by
  rw [takeWhile_line] at h
  cases h
  exact List.takeWhile_append_dropWhile.symm

theorem digits_consumes {cs rest run : LineText} {missing : Fault} (h : digits missing cs = .ok run rest) :
    cs = run ++ rest := by
  obtain ⟨run', cs₁, htake, h⟩ := Action.bind_eq_ok.1 h
  split at h
  · cases h
  · cases h
    exact takeWhile_consumes htake

/-- A run ends where the next character does not belong to it. -/
theorem head?_dropWhile (p : Char → Bool) (cs : LineText) : ∀ c ∈ (cs.dropWhile p).head?, p c = false := by
  intro c hc
  have hnot := List.head?_dropWhile_not p cs
  rw [hc] at hnot
  exact hnot

theorem digits_stop {cs rest run : LineText} {missing : Fault} (h : digits missing cs = .ok run rest) :
    ∀ c ∈ rest.head?, c.isDigit = false := by
  obtain ⟨run', cs₁, htake, h⟩ := Action.bind_eq_ok.1 h
  rw [takeWhile_line] at htake
  cases htake
  split at h
  · cases h
  · cases h
    exact head?_dropWhile Char.isDigit cs

theorem ne_mark_of_isDigit {c : Char} (h : c.isDigit = true) : c ≠ 'e' := by
  rintro rfl
  exact absurd h (by decide)

theorem ne_mark_of_isSign {c : Char} (h : isSign c = true) : c ≠ 'e' := by
  rintro rfl
  exact absurd h (by decide)

theorem pointPart_consumes {cs rest : LineText} {part : Option (List Char)}
    (h : pointPart cs = .ok part rest) : cs = pointText part ++ rest := by
  obtain ⟨c, cs₁, haccept, h⟩ := Action.bind_eq_ok.1 h
  have hcs := accept_consumes haccept
  cases c with
  | none => cases h; exact hcs
  | some c =>
    have hc : c = '.' := of_decide_eq_true (accept_sound haccept c rfl)
    obtain ⟨run, cs₂, htake, h⟩ := Action.bind_eq_ok.1 h
    cases h
    rw [hcs, takeWhile_consumes htake, hc]
    rfl

/-- Reading an exponent consumes its text, with either mark. -/
theorem exponentPart_consumes {cs rest : LineText} {power : Option (Option Char × List Char)}
    (h : exponentPart cs = .ok power rest) : ∃ read, cs = read ++ rest ∧ read.map capital = powerText power := by
  have hsound := exponentPart_sound h
  obtain ⟨c, cs₁, haccept, h⟩ := Action.bind_eq_ok.1 h
  have hcs := accept_consumes haccept
  cases c with
  | none => cases h; exact ⟨[], hcs, rfl⟩
  | some c =>
    have hc : capital c = 'E' := by
      have hmark := accept_sound haccept c rfl
      simp only [isMark, Bool.or_eq_true, decide_eq_true_eq] at hmark
      rcases hmark with rfl | rfl <;> rfl
    obtain ⟨sign, cs₂, hsign, h⟩ := Action.bind_eq_ok.1 h
    obtain ⟨run, cs₃, hrun, h⟩ := Action.bind_eq_ok.1 h
    cases h
    obtain ⟨hsigns, -, hdigits⟩ := hsound _ rfl
    have htext : (sign.toList ++ run).map capital = sign.toList ++ run := map_capital fun x hx => by
      rcases List.mem_append.1 hx with hx | hx
      · exact ne_mark_of_isSign (hsigns x (Option.mem_toList.1 hx))
      · exact ne_mark_of_isDigit (hdigits x hx)
    refine ⟨c :: (sign.toList ++ run), ?_, ?_⟩
    · rw [hcs, accept_consumes hsign, digits_consumes hrun, List.cons_append, List.append_assoc]
      rfl
    · rw [List.map_cons, hc, htext]
      rfl

/-- **The text of a numeral is what was read**, but for the letter that marks the exponent. -/
theorem numeral_consumes {cs rest : LineText} {n : Numeral} (h : numeral cs = .ok n rest) :
    ∃ read, cs = read ++ rest ∧ read.map capital = n.text := by
  obtain ⟨sign, cs₁, hsign, h⟩ := Action.bind_eq_ok.1 h
  obtain ⟨whole, cs₂, hwhole, h⟩ := Action.bind_eq_ok.1 h
  obtain ⟨part, cs₃, hpart, h⟩ := Action.bind_eq_ok.1 h
  split at h
  · cases h
  · obtain ⟨power, cs₄, hpower, h⟩ := Action.bind_eq_ok.1 h
    cases h
    obtain ⟨read, hread, htext⟩ := exponentPart_consumes hpower
    have hbefore : (sign.toList ++ (whole ++ pointText part)).map capital =
        sign.toList ++ (whole ++ pointText part) := map_capital fun x hx => by
      rcases List.mem_append.1 hx with hx | hx
      · exact ne_mark_of_isSign (accept_sound hsign x (Option.mem_toList.1 hx))
      rcases List.mem_append.1 hx with hx | hx
      · exact ne_mark_of_isDigit (takeWhile_sound hwhole x hx)
      cases part with
      | none => cases hx
      | some cs =>
        rcases List.mem_cons.1 hx with rfl | hx
        · decide
        · exact ne_mark_of_isDigit (pointPart_sound hpart cs rfl x hx)
    refine ⟨sign.toList ++ (whole ++ pointText part) ++ read, ?_, ?_⟩
    · rw [accept_consumes hsign, takeWhile_consumes hwhole, pointPart_consumes hpart, hread]
      simp only [List.append_assoc]
    · rw [List.map_append, hbefore, htext]
      simp only [Numeral.text, List.append_assoc]

end Cursor

/-! ### Readers -/

/-- What a text is converted to. It has to be a number as a whole. -/
def Decimal.convert (text : List Char) : Except Fault Binary64 :=
  match Cursor.decimal (text : LineText) with
  | .ok d [] => .ok d.toBinary64
  | _ => .error .realExpected

/-- The text of a numeral converts to its value. -/
theorem Numeral.Sound.convert_text {n : Numeral} (h : n.Sound) :
    Decimal.convert n.text = .ok n.toDecimal.toBinary64 := by
  rw [Decimal.convert, Cursor.decimal_eq, Action.bind_of_ok (Cursor.numeral_text h)]
  rfl

/-- The text of a real number in a line. -/
def Lexeme.spelling : Action LineText (List Char) := do
  Lexeme.skipBlanks
  let n ← Cursor.numeral
  return n.text

/-- The text of a real number in a file. -/
def TextInput.spelling : Action TextInput (List Char) := do
  TextInput.skipSpace
  let n ← Cursor.numeral
  return n.text

/-- To read a decimal is to read its text and to convert that. -/
theorem Cursor.decimal_convert {σ : Type} [Cursor σ] :
    (Cursor.decimal >>= fun d => pure d.toBinary64 : Action σ Binary64) =
      Cursor.numeral >>= fun n => Action.lift (Decimal.convert n.text) := by
  rw [Cursor.decimal_eq, bind_assoc]
  funext s
  cases hn : (Cursor.numeral : Action σ Numeral) s with
  | ok n s' =>
    rw [Action.bind_of_ok hn, Action.bind_of_ok hn, (Cursor.numeral_sound hn).convert_text]
    rfl
  | error f s' => rw [Action.bind_of_error hn, Action.bind_of_error hn]

theorem Lexeme.real_eq :
    Lexeme.real = Lexeme.spelling >>= fun text => Action.lift (Decimal.convert text) := by
  simp only [Lexeme.real, Lexeme.spelling, Cursor.decimal_convert, bind_assoc, pure_bind]

theorem TextInput.readReal_eq :
    TextInput.readReal = TextInput.spelling >>= fun text => Action.lift (Decimal.convert text) := by
  simp only [TextInput.readReal, TextInput.spelling, Cursor.decimal_convert, bind_assoc, pure_bind]

/-- A text with no end of a line and no form feed: only blanks and tabs are skipped before its numbers. -/
def Lines.Unbroken (text : List Char) : Prop := ∀ c ∈ text, c ≠ '\n' ∧ c ≠ '\r' ∧ c ≠ '\x0c'

theorem Lines.Unbroken.of_suffix {text rest : List Char} (h : Unbroken text) (hrest : rest <:+ text) :
    Unbroken rest := fun c hc => h c (hrest.subset hc)

theorem Lines.Unbroken.ne_newline {text : List Char} (h : Unbroken text) : ∀ b ∈ encode text, b ≠ newline :=
  fun b hb => by
    obtain ⟨c, hc, hb⟩ := List.mem_flatMap.1 hb
    exact ne_newline_of_mem (h c hc).1 hb

namespace TextInput

open Lines (encode Unbroken)

/-- The end of a line is not lost when a line is fetched. -/
theorem mem_normalise_newline {l : List UInt8} (h : newline ∈ l) : newline ∈ FlatText.normalise l := by
  induction l with
  | nil => cases h
  | cons b l ih =>
    unfold FlatText.normalise
    rcases List.mem_cons.1 h with rfl | h
    · rw [if_neg fun hb => absurd hb.1 (by decide)]
      exact List.mem_cons_self
    · split
      · exact ih h
      · exact List.mem_cons_of_mem _ (ih h)

/-- If no end of a line is left, the bytes of a file are left as they are. -/
theorem left_of_view {t : TextInput} {rest : List Char} (hrest : Unbroken rest) (h : t.view = encode rest) :
    t.line ++ t.source.bytes = encode rest := by
  have hbytes : ∀ b ∈ t.source.bytes, b ≠ newline := by
    rintro b hb rfl
    refine hrest.ne_newline newline ?_ rfl
    rw [← h, view]
    exact List.mem_append_right _ (mem_normalise_newline hb)
  rw [← h, view, FlatText.normalise_of_no_newline hbytes]

/-- All bytes of an unbroken text are in view. -/
theorem view_ofSource {text : List Char} (h : Unbroken text) :
    (ofSource ⟨encode text, none⟩).view = encode text :=
  FlatText.normalise_of_no_newline h.ne_newline

theorem ascii_isSpace : Lines.Ascii isSpace := by
  intro c hc
  simp only [isSpace, Bool.or_eq_true, decide_eq_true_eq] at hc
  rcases hc with (((rfl | rfl) | rfl) | rfl) | rfl <;> decide

end TextInput

namespace Lexeme

open Lines (encode Unbroken)

/-- In an unbroken text the blanks of a line are the white space of a file. -/
theorem skipBlanks_eq {text : LineText} (h : Unbroken text) :
    skipBlanks text = .ok () (text.dropWhile TextInput.isSpace) := by
  have hsame : text.dropWhile isBlank = text.dropWhile TextInput.isSpace := by
    induction text with
    | nil => rfl
    | cons c text ih =>
      obtain ⟨hnl, hcr, hff⟩ := h c List.mem_cons_self
      have hc : TextInput.isSpace c = isBlank c := by
        simp [TextInput.isSpace, isBlank, hnl, hcr, hff]
      rw [List.dropWhile_cons, List.dropWhile_cons, hc, ih fun x hx => h x (List.mem_cons_of_mem _ hx)]
  rw [skipBlanks, Action.modify_apply, hsame]

/-- Two readings end alike: with the same value, or both with a fault; and the same characters are left. The
fault differs only for an integer that fits no word. -/
inductive Alike {α : Type} : EStateM.Result Fault LineText α → EStateM.Result Fault TextInput α → Prop where
  | value (a : α) {rest : LineText} {t : TextInput} (h : t.line ++ t.source.bytes = encode rest) :
      Alike (.ok a rest) (.ok a t)
  | fault {f g : Fault} {rest : LineText} {t : TextInput}
      (hfg : f = g ∨ f = .integerTooLarge ∧ g = .integerInput)
      (h : t.line ++ t.source.bytes = encode rest) : Alike (.error f rest) (.error g t)

variable {α β : Type} {text : List Char}

/-- What agrees after the white space ends alike from the start of an unbroken text. -/
theorem cases_of_agree {act : Action LineText α} {act' : Action TextInput α} (h : Cursor.Agree act act')
    (htext : Unbroken text) : ∃ rest t,
      t.line ++ t.source.bytes = encode rest ∧
      ((∃ a, (skipBlanks >>= fun _ => act) text = .ok a rest ∧
          (TextInput.skipSpace >>= fun _ => act') (.ofSource ⟨encode text, none⟩) = .ok a t) ∨
        ∃ f, (skipBlanks >>= fun _ => act) text = .error f rest ∧
          (TextInput.skipSpace >>= fun _ => act') (.ofSource ⟨encode text, none⟩) = .error f t) := by
  have hskip : TextInput.skipSpace >>= (fun _ => act') =
      Cursor.takeWhile TextInput.isSpace >>= fun _ => act' := by
    rw [TextInput.skipSpace, bind_assoc]
    rfl
  have hblanks : (skipBlanks >>= fun _ => act) text =
      (Cursor.takeWhile TextInput.isSpace >>= fun _ => act) text := by
    rw [Action.bind_of_ok (skipBlanks_eq htext), Action.bind_of_ok (Cursor.takeWhile_line _ text)]
  have hagree := (Cursor.takeWhile_agree TextInput.ascii_isSpace).bind fun _ => h
  rw [hskip, hblanks]
  obtain ⟨rest, t, hrest, -, hview, hrun⟩ :=
    hagree text _ (TextInput.steady_ofSource _) (TextInput.view_ofSource htext)
  exact ⟨rest, t, TextInput.left_of_view (htext.of_suffix hrest) hview, hrun⟩

/-- Both readers of integers agree on every unbroken text. -/
theorem integer_alike (h : Unbroken text) :
    Alike (integer text) (TextInput.readInteger (.ofSource ⟨encode text, none⟩)) := by
  have hline : integer = (skipBlanks >>= fun _ => Cursor.integer) >>= fun n =>
      Action.orFault (Word.ofInt? n) .integerTooLarge := (bind_assoc ..).symm
  have hfile : TextInput.readInteger = (TextInput.skipSpace >>= fun _ => Cursor.integer) >>= fun n =>
      Action.orFault (Word.ofInt? n) .integerInput := (bind_assoc ..).symm
  rw [hline, hfile]
  obtain ⟨rest, t, hleft, ⟨n, hact, hact'⟩ | ⟨f, hact, hact'⟩⟩ := cases_of_agree Cursor.integer_agree h
  · rw [Action.bind_of_ok hact, Action.bind_of_ok hact']
    cases Word.ofInt? n with
    | some w => exact .value w hleft
    | none => exact .fault (Or.inr ⟨rfl, rfl⟩) hleft
  · rw [Action.bind_of_error hact, Action.bind_of_error hact']
    exact .fault (Or.inl rfl) hleft

/-- So do both readers of numerals. -/
theorem spelling_alike (h : Unbroken text) :
    Alike (spelling text) (TextInput.spelling (.ofSource ⟨encode text, none⟩)) := by
  have hagree := Cursor.numeral_agree.bind fun n => Cursor.Agree.pure n.text
  obtain ⟨rest, t, hleft, ⟨s, hact, hact'⟩ | ⟨f, hact, hact'⟩⟩ := cases_of_agree hagree h
  · rw [show spelling text = _ from hact, show TextInput.spelling _ = _ from hact']
    exact .value s hleft
  · rw [show spelling text = _ from hact, show TextInput.spelling _ = _ from hact']
    exact .fault (Or.inl rfl) hleft

theorem Alike.bind_lift {x : Action LineText α} {y : Action TextInput α} {t : TextInput}
    (h : Alike (x text) (y t)) (g : α → Except Fault β) :
    Alike ((x >>= fun a => Action.lift (g a)) text) ((y >>= fun a => Action.lift (g a)) t) := by
  rw [Action.bind_apply, Action.bind_apply]
  generalize x text = r at h
  generalize y t = r' at h
  cases h with
  | value a h =>
    simp only
    cases hg : g a with
    | ok b => exact .value b h
    | error f => exact .fault (Or.inl rfl) h
  | fault hfg h => exact .fault hfg h

/-- The text of a real number stands in the line after blanks, but for the letter that marks the exponent. -/
theorem spelling_consumes {rest : LineText} {s : List Char} (h : spelling text = .ok s rest) :
    ∃ skipped read, text = skipped ++ (read ++ rest) ∧ (∀ c ∈ skipped, isBlank c = true) ∧
      read.map Cursor.capital = s := by
  rw [spelling, Action.bind_of_ok (show skipBlanks text = .ok () (text.dropWhile isBlank) from rfl),
    Action.bind_eq_ok] at h
  obtain ⟨n, cs, hnumeral, h⟩ := h
  cases h
  obtain ⟨read, hread, htext⟩ := Cursor.numeral_consumes hnumeral
  refine ⟨text.takeWhile isBlank, read, ?_, fun c hc => List.mem_takeWhile_imp hc, htext⟩
  rw [← hread]
  exact List.takeWhile_append_dropWhile.symm

/-- **Programs and files have the same numbers.** From a text without ends of lines and form feeds, the
loader's integer and the machine's are the same or both are refused, and the same is left to read. With
reals too, and both convert the same text, which is what was read but for the letter that marks the
exponent. -/
theorem numbers_agree (h : Unbroken text) :
    Alike (integer text) (TextInput.readInteger (.ofSource ⟨encode text, none⟩)) ∧
    Alike (real text) (TextInput.readReal (.ofSource ⟨encode text, none⟩)) ∧
    Alike (spelling text) (TextInput.spelling (.ofSource ⟨encode text, none⟩)) ∧
    (real = spelling >>= fun s => Action.lift (Decimal.convert s)) ∧
    (TextInput.readReal = TextInput.spelling >>= fun s => Action.lift (Decimal.convert s)) ∧
    ∀ s rest, spelling text = .ok s rest → ∃ skipped read, text = skipped ++ (read ++ rest) ∧
      (∀ c ∈ skipped, isBlank c = true) ∧ read.map Cursor.capital = s := by
  have hspelling := spelling_alike h
  refine ⟨integer_alike h, ?_, hspelling, real_eq, TextInput.readReal_eq, fun s rest => spelling_consumes⟩
  rw [real_eq, TextInput.readReal_eq]
  exact hspelling.bind_lift Decimal.convert

theorem Alike.of_value {a : α} {rest : LineText} {y : EStateM.Result Fault TextInput α}
    (h : Alike (.ok a rest) y) : ∃ t, y = .ok a t ∧ t.line ++ t.source.bytes = encode rest := by
  cases h with
  | value _ h => exact ⟨_, rfl, h⟩

/-- A number with an exponent, and a letter after it that is two bytes. -/
def mixedText : List Char := ['\t', '-', '1', '2', '.', '5', 'e', '+', '3', 'λ']

theorem numbers_agree_mixedText :
    Unbroken mixedText ∧
    (∃ t, TextInput.readInteger (.ofSource ⟨encode mixedText, none⟩) = .ok (-12) t ∧
      t.line ++ t.source.bytes = encode ".5e+3λ".toList) ∧
    ∃ t, TextInput.spelling (.ofSource ⟨encode mixedText, none⟩) = .ok "-12.5E+3".toList t ∧
      t.line ++ t.source.bytes = encode ['λ'] := by
  have hunbroken : Unbroken mixedText := by simp [Unbroken, mixedText]
  obtain ⟨hinteger, -, hspelling, -⟩ := numbers_agree hunbroken
  have hread : spelling mixedText = .ok "-12.5E+3".toList ['λ'] := by cbv
  rw [hread] at hspelling
  exact ⟨hunbroken, Alike.of_value hinteger, Alike.of_value hspelling⟩

end Lexeme

end PMachine
