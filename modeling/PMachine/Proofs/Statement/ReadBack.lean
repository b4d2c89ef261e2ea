import PMachine.Proofs.Statement.Mnemonic
import PMachine.Proofs.Machine.Field

/-!
# Instructions read back from their text

A listing shows an instruction by its mnemonic and those of its operands that the operation uses. If
both operands were in the text that it was assembled from, what is shown is program text again, and it
stands for the same instruction. The others have an address for their operand, which is shown where a
label or a constant is read.

* `Opcode.located`: the operations with an address for their operand.
* `Instruction.Canonical`: the operands that an instruction of the other operations can have.
* `Statement.canonical_of_assembleText`: an assembled instruction has such operands.
* `Statement.parse_text`: with such operands it is read back.
* `Statement.assembleText_text`: so an assembled instruction is assembled again from its text.
-/

namespace PMachine

/-! ### Lexemes in a text -/

namespace Lexeme

/-- Three characters that are a name as they stand. -/
def IsName (cs : List Char) : Prop :=
  cs.length = 3 ∧ cs.map Char.toUpper = cs ∧ cs.head?.any isBlank = false

instance (cs : List Char) : Decidable (IsName cs) :=
  inferInstanceAs (Decidable (cs.length = 3 ∧ cs.map Char.toUpper = cs ∧ cs.head?.any isBlank = false))

theorem skipBlanks_cons {c : Char} {rest : LineText} (h : isBlank c = false) :
    skipBlanks (c :: rest) = .ok ⟨⟩ (c :: rest) := by
  have hdrop : (c :: rest).dropWhile isBlank = c :: rest :=
    List.dropWhile_cons_of_neg (Bool.eq_false_iff.1 h)
  rw [skipBlanks, Action.modify_apply, hdrop]

/-- A blank makes no difference to a reader that skips blanks. -/
theorem skipBlanks_blank (rest : LineText) : skipBlanks (' ' :: rest) = skipBlanks rest := rfl

/-- A name is read up to what can be no part of one. -/
theorem name_append {s : String} (h : IsName s.toList) (rest : LineText) :
    name (s.toList ++ rest) = .ok s rest := by
  obtain ⟨hlength, hupper, hblank⟩ := h
  have htake : (s.toList ++ rest).take 3 = s.toList := by rw [← hlength, List.take_left]
  have hdrop : (s.toList ++ rest).drop 3 = rest := by rw [← hlength, List.drop_left]
  have hskip : skipBlanks (s.toList ++ rest) = .ok ⟨⟩ (s.toList ++ rest) := by
    obtain ⟨c, cs, hcs⟩ := List.exists_cons_of_length_eq_add_one hlength
    rw [hcs] at hblank ⊢
    exact skipBlanks_cons hblank
  have htaken : (modifyGet fun cs => (cs.take 3, cs.drop 3) : Action LineText (List Char))
      (s.toList ++ rest) = .ok s.toList rest := by
    show EStateM.Result.ok _ _ = _
    rw [htake, hdrop]
  rw [name, Action.bind_of_ok hskip, Action.bind_of_ok htaken, if_neg (by omega), hupper,
    String.ofList_toList]
  rfl

theorem name_blank {s : String} (h : IsName s.toList) (rest : LineText) :
    name (' ' :: (s.toList ++ rest)) = .ok s rest :=
  name_append h rest

theorem skipBlanks_decimal (n : Int) (rest : LineText) :
    skipBlanks (' ' :: (Field.decimal n ++ rest)) = .ok ⟨⟩ (Field.decimal n ++ rest) := by
  obtain ⟨c, cs, hcs⟩ := List.exists_cons_of_ne_nil (Field.decimal_ne_nil n)
  have hmem : c ∈ Field.decimal n := hcs ▸ List.mem_cons_self
  have hc : isBlank c = false := (Field.starts_of_mem_decimal hmem).isBlank_eq_false
  rw [skipBlanks_blank, hcs]
  exact skipBlanks_cons hc

/-- A word in decimal is read as itself. -/
theorem integer_decimal (n : Word) : integer (' ' :: Field.decimal n.toInt) = .ok n [] := by
  have hskip := skipBlanks_decimal n.toInt []
  have hread : Cursor.integer (Field.decimal n.toInt ++ [] : LineText) = .ok n.toInt [] :=
    Cursor.integer_decimal n.toInt nofun
  rw [List.append_nil] at hskip hread
  rw [integer, Action.bind_of_ok hskip, Action.bind_of_ok hread, Word.ofInt?_toInt]
  rfl

/-- So is a natural number of 64 bits, whatever else than a digit follows it. -/
theorem unsigned_toDigits {n : Nat} (h : n < 0x10000000000000000) {rest : LineText}
    (hrest : ∀ c ∈ rest.head?, c.isDigit = false) :
    unsigned (' ' :: (Nat.toDigits 10 n ++ rest)) = .ok n rest := by
  have hskip : skipBlanks (' ' :: (Nat.toDigits 10 n ++ rest)) = .ok ⟨⟩ (Nat.toDigits 10 n ++ rest) :=
    skipBlanks_decimal n rest
  rw [unsigned, Action.bind_of_ok hskip, Action.bind_of_ok (Cursor.natural_toDigits n hrest), if_pos h]
  rfl

end Lexeme

/-! ### Mnemonics and names of procedures -/

namespace Opcode

/-- The operations whose operand is an address that assembling finds: that of a label or of a constant. -/
def located : List Opcode := [.cup, .ent, .ujp, .fjp, .xjp, .chk, .lca, .lci]

/-- Mnemonics are names. -/
theorem isName_mnemonic (op : Opcode) : Lexeme.IsName op.mnemonic.toList := by
  cases op <;> decide

/-- No mnemonic stands for the load of a pooled constant. -/
theorem ne_lci_of_ofMnemonic? {name : String} {op : Opcode} (h : ofMnemonic? name = some op) :
    op ≠ .lci := by
  have hfound := List.find?_some h
  exact (of_decide_eq_true hfound).2

end Opcode

namespace Procedure

/-- The standard procedures have names. -/
theorem isName_name (f : Procedure) : Lexeme.IsName f.name.toList := by
  cases f <;> decide

/-- A procedure is found by its name. -/
theorem ofName?_name (f : Procedure) : ofName? f.name = some f := by
  cases f <;> rfl

/-- A procedure is found by its number. -/
theorem ofNumber?_number (f : Procedure) : ofNumber? (Int64.ofNat f.number) = some f := by
  cases f <;> rfl

end Procedure

namespace Instruction

/-- The operands that an instruction has if they come from its text alone. -/
def Canonical (i : Instruction) : Prop :=
  match i.op with
  | .lod | .str | .lda => i.p < 0x10000000000000000
  | .mst => i.p < 0x10000000000000000 ∧ i.q = 0
  | .ret => i.p < returns.length ∧ i.q = 0
  | .equ | .neq | .geq | .grt | .leq | .les => i.p < comparands.length ∧ (i.p = multiple ∨ i.q = 0)
  | .csp => i.p = 0 ∧ ∃ f : Procedure, i.q = Int64.ofNat f.number
  | .ldc => i.p = 0 ∧ i.q = 0 ∨ i.p = 1 ∧ i.q.toInt.natAbs ≤ Statement.largestInline ∨ i.p = 3
  | .ldo | .sro | .lao | .ind | .inc | .ixa | .mov | .dec => i.p = 0
  | .cup | .ent | .ujp | .fjp | .xjp | .chk | .lca | .lci => False
  | _ => i.p = 0 ∧ i.q = 0

/-- The statement that the text of an instruction stands for. -/
def written (i : Instruction) : Statement :=
  if i.op = .ldc ∧ i.p = 1 then .integer i.q else .plain i

end Instruction

namespace Statement

open PMachine.Action (Returns)

/-! ### What is assembled -/

/-- A statement that is complete in itself has operands that come from its text alone, and one with a label
is of an operation with an address. -/
def Readable : Statement → Prop
  | plain i => i.Canonical
  | labelled op _ _ => op ∈ Opcode.located
  | _ => True

theorem readable_labelled {op : Opcode} (h : op ∈ Opcode.located) (p n : Nat) :
    (labelled op p n).Readable := h

/-- A letter is read as its place in the table. -/
theorem letter_returns (table : List Char) : Returns (· < table.length) (letter table) :=
  .bind fun c => by
    intro cs p rest h
    obtain ⟨hidx, -⟩ := Action.orFault_eq_ok.1 h
    obtain ⟨x, -, hx⟩ := Option.bind_eq_some_iff.1 hidx
    exact (List.idxOf?_eq_some_iff.1 hx).1

/-- Constants are read as what can be printed. -/
theorem constant_readable : Returns Readable constant := by
  refine .bind fun c => ?_
  split
  case h_1 | h_2 | h_3 | h_4 => exact .bind fun _ => .pure trivial
  case h_5 | h_6 => exact .pure (Or.inl ⟨rfl, rfl⟩)
  case h_7 | h_8 => exact .bind fun _ => .pure (Or.inr (Or.inr rfl))
  case h_9 => exact .bind fun _ => .bind fun _ => .pure trivial
  case h_10 => exact .throw _

/-- Whatever is read as operands can be written, unless it waits for an address. -/
theorem operands_readable {op : Opcode} (hop : op ≠ .lci) : Returns Readable (operands op) := by
  cases op with
  | lci => exact absurd rfl hop
  | equ | neq | geq | grt | leq | les =>
    refine .bind_of (letter_returns _) fun p hp => ?_
    split
    · rename_i hm
      exact .bind fun q => .pure ⟨hp, Or.inl hm⟩
    · exact .pure ⟨hp, Or.inr rfl⟩
  | lod | str | lda => exact .bind_of (fun _ _ _ => Lexeme.unsigned_lt) fun p hp => .bind fun q => .pure hp
  | mst => exact .bind_of (fun _ _ _ => Lexeme.unsigned_lt) fun p hp => .pure ⟨hp, rfl⟩
  | ret => exact .bind_of (letter_returns _) fun p hp => .pure ⟨hp, rfl⟩
  | ldo | sro | lao | ind | inc | ixa | mov | dec => exact .bind fun q => .pure rfl
  | csp => exact .bind fun name => .bind fun f => .pure ⟨rfl, f, rfl⟩
  | ldc => exact constant_readable
  | cup => exact .bind fun p => .bind fun l => .pure (readable_labelled (by decide) p l)
  | ent | ujp | fjp | xjp => exact .bind fun l => .pure (readable_labelled (by decide) 0 l)
  | chk =>
    refine .bind fun c => ?_
    split
    · exact .bind fun _ => .bind fun _ => .bind fun _ => .pure trivial
    · exact .bind fun _ => .bind fun _ => .pure trivial
  | lca =>
    refine .bind fun c => ?_
    split
    · exact .bind fun _ => .bind fun _ => .pure trivial
    · exact .bind fun _ => .pure trivial
  | _ => exact .pure ⟨rfl, rfl⟩

/-! ### What is read back -/

/-- Every letter of a table is found at its place. -/
abbrev Legible (table : List Char) : Prop := ∀ p < table.length,
  Lexeme.isBlank ((table[p]?).getD '?') = false ∧ table.idxOf? ((table[p]?).getD '?').toUpper = some p

theorem legible_comparands : Legible Instruction.comparands := by decide

theorem legible_returns : Legible Instruction.returns := by decide

/-- A letter that was printed is read back. -/
theorem letter_text {table : List Char} (htable : Legible table) {p : Nat} (hp : p < table.length)
    (rest : LineText) :
    letter table (' ' :: ((Instruction.letter table p).toList ++ rest)) = .ok p rest := by
  obtain ⟨hblank, hidx⟩ := htable p hp
  have hskip : Lexeme.skipBlanks (' ' :: ((Instruction.letter table p).toList ++ rest)) =
      .ok ⟨⟩ ((table[p]?).getD '?' :: rest) := by
    rw [Instruction.letter, String.toList_singleton]
    exact Lexeme.skipBlanks_cons hblank
  have hread : Lexeme.nonBlank (' ' :: ((Instruction.letter table p).toList ++ rest)) =
      .ok (some ((table[p]?).getD '?')) rest := by
    rw [Lexeme.nonBlank, Action.bind_of_ok hskip]
    rfl
  rw [letter, Action.bind_of_ok hread, Option.bind_some, hidx]
  rfl

theorem toList_append_decimal (s : String) (n : Int) :
    (s ++ toString n).toList = s.toList ++ Field.decimal n := by
  rw [String.toList_append, Field.decimal_eq]

theorem toList_integer (n : Int) : (s!" {n}").toList = ' ' :: Field.decimal n :=
  toList_append_decimal " " n

theorem toList_natural (p : Nat) : (s!" {p}").toList = ' ' :: Nat.toDigits 10 p :=
  toList_integer p

theorem toList_pair (p : Nat) (n : Int) :
    (s!" {p} {n}").toList = ' ' :: (Nat.toDigits 10 p ++ ' ' :: Field.decimal n) := by
  have hsplit : s!" {p} {n}" = s!" {p}" ++ s!" {n}" := by
    simp only [String.append_assoc]
  rw [hsplit, String.toList_append, toList_natural, toList_integer]
  rfl

/-- The letter of a comparison, with a length for the comparison of blocks only. -/
theorem comparison_text (op : Opcode) {p : Nat} {q : Word} (hp : p < Instruction.comparands.length)
    (hq : p = Instruction.multiple ∨ q = 0) :
    (do
      let p ← letter Instruction.comparands
      if p = Instruction.multiple then
        let q ← Lexeme.integer
        return plain ⟨op, p, q⟩
      else return plain ⟨op, p, 0⟩ : Action LineText Statement)
      (" " ++ Instruction.letter Instruction.comparands p ++
        (if p = Instruction.multiple then s!" {q.toInt}" else "")).toList = .ok (plain ⟨op, p, q⟩) [] := by
  rw [String.append_assoc, String.toList_append, String.toList_append]
  refine (Action.bind_of_ok (letter_text legible_comparands hp _)).trans ?_
  by_cases hm : p = Instruction.multiple
  · rw [if_pos hm, if_pos hm, toList_integer]
    exact Action.bind_of_ok (Lexeme.integer_decimal q)
  · obtain rfl : q = 0 := hq.resolve_left hm
    rw [if_neg hm, if_neg hm]
    rfl

/-- **Operands are read back from their text.** -/
theorem operands_text {i : Instruction} (h : i.Canonical) :
    operands i.op i.operands.toList = .ok i.written [] := by
  obtain ⟨op, p, q⟩ := i
  cases op with
  | lod | str | lda =>
    show operands _ (s!" {p} {q.toInt}").toList = _
    rw [toList_pair]
    exact (Action.bind_of_ok (Lexeme.unsigned_toDigits h fun c hc => by cases hc; rfl)).trans
      (Action.bind_of_ok (Lexeme.integer_decimal q))
  | mst =>
    obtain ⟨hp, rfl⟩ := h
    show operands _ (s!" {p}").toList = _
    rw [toList_natural, ← List.append_nil (Nat.toDigits 10 p)]
    exact Action.bind_of_ok (Lexeme.unsigned_toDigits hp nofun)
  | ret =>
    obtain ⟨hp, rfl⟩ := h
    show operands _ (" " ++ Instruction.letter Instruction.returns p).toList = _
    rw [String.toList_append, ← List.append_nil (Instruction.letter _ p).toList]
    exact Action.bind_of_ok (letter_text legible_returns hp [])
  | equ | neq | geq | grt | leq | les => exact comparison_text _ h.1 h.2
  | csp =>
    obtain ⟨rfl, f, rfl⟩ := h
    have htext : (Instruction.operands ⟨.csp, 0, Int64.ofNat f.number⟩).toList =
        ' ' :: (f.name.toList ++ []) := by
      rw [Instruction.operands, Procedure.ofNumber?_number, String.toList_append, List.append_nil]
      rfl
    have hname := Lexeme.name_blank f.isName_name []
    rw [htext]
    refine (Action.bind_of_ok hname).trans ?_
    rw [Procedure.ofName?_name]
    rfl
  | ldc =>
    rcases h with ⟨rfl, rfl⟩ | ⟨rfl, -⟩ | rfl
    · rfl
    · show constant (" I " ++ toString q.toInt).toList = _
      rw [toList_append_decimal]
      exact Action.bind_of_ok (Lexeme.integer_decimal q)
    · show constant (" B " ++ toString q.toInt).toList = _
      rw [toList_append_decimal]
      exact Action.bind_of_ok (Lexeme.integer_decimal q)
  | ldo | sro | lao | ind | inc | ixa | mov | dec =>
    obtain rfl : p = 0 := h
    show operands _ (s!" {q.toInt}").toList = _
    rw [toList_integer]
    exact Action.bind_of_ok (Lexeme.integer_decimal q)
  | cup | ent | ujp | fjp | xjp | chk | lca | lci => exact h.elim
  | _ =>
    obtain ⟨rfl, rfl⟩ := h
    rfl

/-- **An instruction is read back from its text**, if its operands can be written. -/
theorem parse_text {i : Instruction} (h : i.Canonical) : parse i.text.toList = .ok i.written := by
  have hop : i.op ≠ .lci := by
    intro hlci
    rw [Instruction.Canonical, hlci] at h
    exact h
  have hname : Lexeme.name i.text.toList = .ok i.op.mnemonic i.operands.toList := by
    rw [Instruction.text, String.toList_append]
    exact Lexeme.name_append i.op.isName_mnemonic _
  exact parse_of_operands hname (Opcode.ofMnemonic?_mnemonic hop) (operands_text h)

/-- What is written needs no entry in a table. -/
theorem assemble_written {i : Instruction} (h : i.Canonical) (pc : Nat) (t : Tables) :
    i.written.assemble pc t = .ok i t := by
  unfold Instruction.written
  split
  · rename_i hldc
    obtain ⟨op, p, q⟩ := i
    obtain ⟨rfl, rfl⟩ : op = .ldc ∧ p = 1 := hldc
    have hinline : q.toInt.natAbs ≤ largestInline := by
      rcases h with ⟨hp, -⟩ | ⟨-, hq⟩ | hp
      · cases hp
      · exact hq
      · cases hp
    rw [assemble, if_neg (Nat.not_lt.2 hinline)]
    rfl
  · rfl

variable {text : LineText} {pc : Nat} {t t' : Tables} {i : Instruction}

/-- A statement that can be written is assembled to an instruction that can, or to one with an address. -/
theorem Readable.canonical {st : Statement} (hst : st.Readable) (h : st.assemble pc t = .ok i t')
    (hop : i.op ∉ Opcode.located) : i.Canonical := by
  cases st with
  | plain j =>
    cases h
    exact hst
  | labelled op p n =>
    obtain ⟨q, u, -, hlast⟩ := Action.bind_eq_ok.1 h
    cases hlast
    exact absurd hst hop
  | integer n =>
    by_cases hlarge : largestInline < n.toInt.natAbs
    · rw [assemble, if_pos hlarge] at h
      obtain ⟨a, u, -, hlast⟩ := Action.bind_eq_ok.1 h
      cases hlast
      exact absurd (by simp [Opcode.located]) hop
    · rw [assemble, if_neg hlarge] at h
      cases h
      exact Or.inr (Or.inl ⟨rfl, Nat.not_lt.1 hlarge⟩)
  | real _ | set _ | bounds _ _ | bytes _ =>
    obtain ⟨a, u, -, hlast⟩ := Action.bind_eq_ok.1 h
    cases hlast
    exact absurd (by simp [Opcode.located]) hop

/-- An instruction whose operand assembling did not find is canonical. -/
theorem canonical_of_assembleText (h : assembleText text pc t = .ok i t')
    (hop : i.op ∉ Opcode.located) : i.Canonical := by
  obtain ⟨st, t₁, hlift, hassemble⟩ := Action.bind_eq_ok.1 h
  obtain ⟨hparse, rfl⟩ := Action.lift_eq_ok.1 hlift
  obtain ⟨u, hread⟩ := Action.outcome_eq_ok.1 hparse
  obtain ⟨name, rest, -, hrest⟩ := Action.bind_eq_ok.1 hread
  obtain ⟨op, rest', hopcode, hoperands⟩ := Action.bind_eq_ok.1 hrest
  obtain ⟨hmnemonic, rfl⟩ := Action.orFault_eq_ok.1 hopcode
  have hst : st.Readable :=
    operands_readable (Opcode.ne_lci_of_ofMnemonic? hmnemonic) _ _ _ hoperands
  exact hst.canonical hassemble hop

/-- A canonical instruction is assembled from its text, at any address and with any tables. -/
theorem assembleText_of_canonical (h : i.Canonical) (pc : Nat) (t : Tables) :
    assembleText i.text.toList pc t = .ok i t := by
  rw [assembleText, parse_text h, Action.bind_of_ok (Action.lift_ok _ t)]
  exact assemble_written h pc t

/-- **The text of an instruction stands for it.** An instruction that was assembled, and whose operand is
not an address that assembling found, is assembled again from its text as a listing shows it: at every
address, with any tables, and without an entry in them. So two such instructions with one text are one
instruction. -/
theorem assembleText_text (text : LineText) (pc : Nat) (t t' : Tables) (i : Instruction)
    (h : assembleText text pc t = .ok i t') (hop : i.op ∉ Opcode.located) :
    (∀ site u, assembleText i.text.toList site u = .ok i u) ∧
    ∀ other site u u' j, assembleText other site u = .ok j u' → j.op ∉ Opcode.located →
      j.text = i.text → j = i := by
  have hi := canonical_of_assembleText h hop
  refine ⟨assembleText_of_canonical hi, fun other site u u' j hj hopj htext => ?_⟩
  have hagain := assembleText_of_canonical (canonical_of_assembleText hj hopj) site u
  rw [htext, assembleText_of_canonical hi site u] at hagain
  cases hagain
  rfl

theorem assembleText_text_extremes :
    assembleText "lod18446744073709551615-9223372036854775808 x".toList 3 default =
      .ok ⟨.lod, 0xFFFFFFFFFFFFFFFF, Int64.minValue⟩ default ∧
    Instruction.text ⟨.lod, 0xFFFFFFFFFFFFFFFF, Int64.minValue⟩ =
      "LOD 18446744073709551615 -9223372036854775808" ∧
    ∀ site u, assembleText "LOD 18446744073709551615 -9223372036854775808".toList site u =
      .ok ⟨.lod, 0xFFFFFFFFFFFFFFFF, Int64.minValue⟩ u := by
  have hparse : parse "lod18446744073709551615-9223372036854775808 x".toList =
      .ok (.plain ⟨.lod, 0xFFFFFFFFFFFFFFFF, Int64.minValue⟩) := by decide +kernel
  have hrun : assembleText "lod18446744073709551615-9223372036854775808 x".toList 3 default =
      .ok ⟨.lod, 0xFFFFFFFFFFFFFFFF, Int64.minValue⟩ default := by
    rw [assembleText, hparse]
    rfl
  have htext : Instruction.text ⟨.lod, 0xFFFFFFFFFFFFFFFF, Int64.minValue⟩ =
      "LOD 18446744073709551615 -9223372036854775808" := by decide +kernel
  refine ⟨hrun, htext, ?_⟩
  rw [← htext]
  exact (assembleText_text _ 3 default default _ hrun (by decide)).1

end Statement

end PMachine
