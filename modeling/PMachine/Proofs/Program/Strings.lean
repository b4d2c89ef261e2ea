import PMachine.Proofs.Machine.Output
import PMachine.Proofs.Program.Startup

/-!
# Strings that are written fill their fields

A program that writes strings, each in a field of its own width, is followed from its text to its output. The
bytes of the strings go to a pool, one cell for each, and the calls find them there: a string that is shorter than
its field is filled up with blanks on its left, and of a longer one as much is written as fits.

* `StringField`: a string and the width of its field.
* `StringField.field`: what is to be written.
* `StringField.lines`, `StringField.statements`: the lines that write it, and what they say.
* `Limits.RoomFor`: limits under which there is room for the program.
* `Machine.Calls.step_wrs`: the call that writes.
* `Machine.Idle.write`, `Machine.Idle.run`: one field, and all of them.
* `Program.strings_fill_fields`: from the text to the output.
-/

namespace PMachine

/-! ### Fields and their lines -/

/-- A string to be written, and the width of its field. It can be quoted on one line. -/
structure StringField where
  text : List Char
  width : Nat
  quotable : ∀ c ∈ text, c ≠ '\'' ∧ c ≠ '\n'
  width_le : width ≤ 65535

namespace Statement

/-- The line that loads the address of a string. -/
def stringLine (s : List Char) : LineText := ' ' :: ("LCA".toList ++ ' ' :: '\'' :: (s ++ ['\'']))

/-- The line that loads an integer. -/
def integerLine (n : Nat) : LineText := ' ' :: ("LDC".toList ++ ' ' :: 'I' :: ' ' :: Nat.toDigits 10 n)

end Statement

namespace StringField

open Statement (integerLine stringLine)

/-- The bytes of the string. -/
def bytes (f : StringField) : List UInt8 := Lines.encode f.text

/-- What is written: blanks, as many as the string is too short, and as many of its bytes as fit. -/
def field (f : StringField) : List UInt8 :=
  List.replicate (f.width - f.bytes.length) Field.blank ++ f.bytes.take (min f.width f.bytes.length)

/-- The lines that write a string to the output. -/
def lines (f : StringField) : List LineText :=
  [stringLine f.text, integerLine f.width, integerLine f.bytes.length, " LDC I 5".toList, " CSP WRS".toList]

/-- What these lines say. -/
def statements (f : StringField) : List Statement :=
  [.bytes f.bytes, .integer (Int64.ofNat f.width), .integer (Int64.ofNat f.bytes.length), .integer 5,
    .plain ⟨.csp, 0, Int64.ofNat Procedure.wrs.number⟩]

/-- The text of the program that writes strings and stops. -/
def programText (fs : List StringField) : List Char :=
  Program.startupText (fs.flatMap lines ++ [" STP".toList])

example : programText [⟨"AB".toList, 40, by simp, by decide⟩] =
    "\n LCA 'AB'\n LDC I 40\n LDC I 2\n LDC I 5\n CSP WRS\n STP\n".toList := by decide +kernel

/-- What this text says. -/
def program (fs : List StringField) : List Statement := fs.flatMap statements ++ [.plain ⟨.stp, 0, 0⟩]

/-- **A field is filled.** -/
theorem length_field (f : StringField) : f.field.length = f.width := by
  rw [field, List.length_append, List.length_replicate, List.length_take]
  omega

/-- The fields take as many bytes as their widths add up to. -/
theorem length_fields (fs : List StringField) : (fs.flatMap field).length = (fs.map width).sum := by
  rw [List.length_flatMap, List.map_congr_left fun f _ => length_field f]

/-- Each field takes five instructions, and one more stops the machine. -/
theorem length_program (fs : List StringField) : (program fs).length = 5 * fs.length + 1 := by
  have hlength : ∀ f ∈ fs, f.statements.length = 5 := fun _ _ => rfl
  rw [program, List.length_append, List.length_flatMap, List.map_congr_left hlength, List.map_const',
    List.sum_replicate, smul_eq_mul, Nat.mul_comm]
  rfl

/-- A statement of a field, between those before it and those after it. -/
theorem split_statements {f : StringField} {i : Nat} {st : Statement} (hst : f.statements[i]? = some st)
    (before after : List Statement) : before ++ (f.statements ++ after) =
      before ++ f.statements.take i ++ st :: (f.statements.drop (i + 1) ++ after) := by
  obtain ⟨hi, rfl⟩ := List.getElem?_eq_some_iff.1 hst
  rw [← List.cons_append, List.cons_getElem_drop_succ, List.append_assoc,
    ← List.append_assoc (f.statements.take i), List.take_append_drop]

theorem length_before (f : StringField) {i : Nat} (hi : i ≤ 5) (before : List Statement) :
    (before ++ f.statements.take i).length = before.length + i := by
  have hfive : f.statements.length = 5 := rfl
  rw [List.length_append, List.length_take, hfive, min_eq_left hi]

end StringField

/-! ### What the lines say -/

theorem Line.read_of_parse {text : LineText} {st : Statement} (h : Statement.parse text = .ok st) :
    Line.read (' ' :: text) = .ok (.instruction st) := by
  simp only [Line.read, h]

namespace Statement

/-- A quoted text without a quote is read as its bytes. -/
theorem parse_string {s : List Char} (h : '\'' ∉ s) :
    parse ("LCA".toList ++ ' ' :: '\'' :: (s ++ ['\''])) = .ok (.bytes (Lines.encode s)) := by
  have hname := Lexeme.name_append (s := "LCA") (by decide) (' ' :: '\'' :: (s ++ ['\'']))
  have hquote : Lexeme.nonBlank (' ' :: '\'' :: (s ++ ['\''])) = .ok (some '\'') (s ++ ['\'']) := rfl
  refine parse_of_operands (u := []) hname ofMnemonic?_lca ?_
  rw [operands_lca hquote, if_pos rfl, Action.bind_of_ok (Lexeme.upTo_eq_ok_iff.2 ⟨h, rfl⟩)]
  rfl

/-- A decimal number that is a word is read as it. -/
theorem parse_integer {n : Nat} (h : n < 0x8000000000000000) :
    parse ("LDC".toList ++ ' ' :: 'I' :: ' ' :: Nat.toDigits 10 n) = .ok (.integer (Int64.ofNat n)) := by
  have hname := Lexeme.name_append (s := "LDC") (by decide) (' ' :: 'I' :: ' ' :: Nat.toDigits 10 n)
  have hkind : Lexeme.nonBlank (' ' :: 'I' :: ' ' :: Nat.toDigits 10 n) =
      .ok (some 'I') (' ' :: Nat.toDigits 10 n) := rfl
  have hread : Lexeme.integer (' ' :: Nat.toDigits 10 n) = .ok (Int64.ofNat n) [] := by
    have hdecimal := Lexeme.integer_decimal (Int64.ofNat n)
    rw [Int64.toInt_ofNat_of_lt h] at hdecimal
    exact hdecimal
  exact parse_of_operands (u := []) hname ofMnemonic?_ldc
    ((Action.bind_of_ok hkind).trans (Action.bind_of_ok hread))

end Statement

namespace Program

open Statement (integerLine stringLine)

/-- A line with a quoted text says that the address of its bytes is loaded. -/
theorem says_string {s : List Char} (h : ∀ c ∈ s, c ≠ '\'' ∧ c ≠ '\n') :
    Says (stringLine s) (.bytes (Lines.encode s)) := by
  have hline : stringLine s = [' ', 'L', 'C', 'A', ' ', '\''] ++ s ++ ['\''] := rfl
  refine ⟨⟨?_, ?_, rfl⟩, Line.read_of_parse (Statement.parse_string fun hq => (h _ hq).1 rfl)⟩
  · rw [hline]
    intro hmem
    rcases List.mem_append.1 hmem with hmem | hmem
    · rcases List.mem_append.1 hmem with hmem | hmem
      · exact absurd hmem (by decide)
      · exact (h _ hmem).2 rfl
    · exact absurd hmem (by decide)
  · rw [hline, List.getLast?_concat]
    intro c hc
    cases hc
    rfl

/-- A line with a decimal number says that it is loaded. -/
theorem says_integer {n : Nat} (h : n < 0x8000000000000000) :
    Says (integerLine n) (.integer (Int64.ofNat n)) := by
  have hdigit : ∀ c ∈ Nat.toDigits 10 n, c.isDigit = true := fun c hc => Field.isDigit_of_mem_toDigits hc
  have hline : integerLine n = [' ', 'L', 'D', 'C', ' ', 'I', ' '] ++ Nat.toDigits 10 n := rfl
  refine ⟨⟨?_, ?_, rfl⟩, Line.read_of_parse (Statement.parse_integer h)⟩
  · rw [hline]
    intro hmem
    rcases List.mem_append.1 hmem with hmem | hmem
    · exact absurd hmem (by decide)
    · exact absurd (hdigit _ hmem) (by decide)
  · rw [hline, List.getLast?_append_of_ne_nil _ Nat.toDigits_ne_nil]
    intro c hc
    have hisDigit := hdigit c (List.mem_of_getLast? hc)
    rw [Bool.eq_false_iff]
    intro hend
    simp only [Lines.isLineEnd, Bool.or_eq_true, decide_eq_true_eq] at hend
    rcases hend with hend | hend <;> exact absurd (hend ▸ hisDigit) (by decide)

/-- The lines of a field say its statements. -/
theorem says_lines {f : StringField} (h : f.bytes.length < 0x8000000000000000) :
    List.Forall₂ Says f.lines f.statements := by
  have hwidth : f.width < 0x8000000000000000 := f.width_le.trans_lt (by decide)
  have hfile : Says " LDC I 5".toList (.integer 5) := says_integer (n := 5) (by decide)
  have hcall : Says " CSP WRS".toList (.plain ⟨.csp, 0, Int64.ofNat Procedure.wrs.number⟩) :=
    ⟨⟨by decide, fun c hc => by cases hc; rfl, rfl⟩, by decide +kernel⟩
  exact .cons (says_string f.quotable) (.cons (says_integer hwidth) (.cons (says_integer h)
    (.cons hfile (.cons hcall .nil))))

/-- The lines of a list of fields say its program. -/
theorem says_program {fs : List StringField} (h : ∀ f ∈ fs, f.bytes.length < 0x8000000000000000) :
    List.Forall₂ Says (fs.flatMap StringField.lines ++ [" STP".toList]) (StringField.program fs) := by
  have hstop : Says " STP".toList (.plain ⟨.stp, 0, 0⟩) :=
    ⟨⟨by decide, fun c hc => by cases hc; rfl, rfl⟩, by decide +kernel⟩
  induction fs with
  | nil => exact .cons hstop .nil
  | cons f fs ih =>
    have hmore := ih fun g hg => h g (List.mem_cons_of_mem _ hg)
    have hfirst := List.rel_append (says_lines (h f List.mem_cons_self)) hmore
    simpa only [StringField.program, List.flatMap_cons, List.append_assoc] using hfirst

end Program

/-! ### Room for the constants -/

namespace StringField

/-- The constants that a field needs a place for. -/
def constants (f : StringField) : List Constant :=
  .bytes f.bytes :: if Statement.largestInline < f.bytes.length then [.integer (Int64.ofNat f.bytes.length)] else []

theorem constant?_integer {n : Nat} (h : n < 0x8000000000000000) :
    (Statement.integer (Int64.ofNat n)).constant? =
      if Statement.largestInline < n then some (.integer (Int64.ofNat n)) else none := by
  rw [Statement.constant?, Int64.toInt_ofNat_of_lt h, Int.natAbs_natCast]

/-- The width and the number of the file stand in their instructions. -/
theorem constants_statements {f : StringField} (h : f.bytes.length < 0x8000000000000000) :
    f.statements.filterMap (·.constant?) = f.constants := by
  have hwidth : (Statement.integer (Int64.ofNat f.width)).constant? = none := by
    have hwidth_le := f.width_le
    rw [constant?_integer (by omega), if_neg (by rw [Statement.largestInline]; omega)]
  have hbytes : (Statement.bytes f.bytes).constant? = some (.bytes f.bytes) := rfl
  have hlength := constant?_integer h
  have hrest : [Statement.integer 5, .plain ⟨.csp, 0, Int64.ofNat Procedure.wrs.number⟩].filterMap
      (·.constant?) = [] := rfl
  by_cases hlarge : Statement.largestInline < f.bytes.length
  · rw [if_pos hlarge] at hlength
    rw [statements, List.filterMap_cons_some hbytes, List.filterMap_cons_none hwidth,
      List.filterMap_cons_some hlength, hrest, constants, if_pos hlarge]
  · rw [if_neg hlarge] at hlength
    rw [statements, List.filterMap_cons_some hbytes, List.filterMap_cons_none hwidth,
      List.filterMap_cons_none hlength, hrest, constants, if_neg hlarge]

/-- The constants of the program are those of its fields. -/
theorem constants_program {fs : List StringField} (h : ∀ f ∈ fs, f.bytes.length < 0x8000000000000000) :
    (program fs).filterMap (·.constant?) = fs.flatMap constants := by
  rw [program, List.filterMap_append, List.filterMap_flatMap,
    List.flatMap_congr fun f hf => constants_statements (h f hf)]
  exact List.append_nil _

end StringField

namespace Constant

/-- Erasing duplicates leaves none. -/
theorem nodup_eraseDups {α : Type} [DecidableEq α] : ∀ l : List α, l.eraseDups.Nodup
  | [] => by simp
  | a :: l => by
    rw [List.eraseDups_cons, List.nodup_cons]
    refine ⟨fun ha => ?_, nodup_eraseDups _⟩
    have hkept := (List.mem_filter.1 (List.mem_eraseDups.1 ha)).2
    simp at hkept
termination_by l => l.length
decreasing_by exact Nat.lt_succ_of_le (List.length_filter_le _ _)

/-- A shared constant is entered once. -/
theorem nodup_table {p : Pool} (hp : p ≠ .multiple) (accepted : List Constant) : (table p accepted).Nodup := by
  rw [table, if_neg hp]
  exact nodup_eraseDups _

end Constant

namespace StringField

open Constant

/-- The constants of a field are its text, and its length if that is too large for an instruction. -/
theorem mem_constants {f : StringField} {c : Constant} (h : c ∈ f.constants) : c = .bytes f.bytes ∨
    Statement.largestInline < f.bytes.length ∧ c = .integer (Int64.ofNat f.bytes.length) := by
  rw [constants] at h
  rcases List.mem_cons.1 h with h | h
  · exact Or.inl h
  · split at h
    · rename_i hlarge
      exact Or.inr ⟨hlarge, List.mem_singleton.1 h⟩
    · cases h

/-- Character data takes a cell for each byte. -/
theorem length_characters (fs : List StringField) :
    (tableCells .multiple (fs.flatMap constants)).length = (fs.map (·.bytes.length)).sum := by
  have hcells : ∀ cs, tableCells .multiple cs = (cs.filter (·.pool = .multiple)).flatMap cells := fun _ => rfl
  have hone : ∀ f : StringField, f.constants.filter (·.pool = .multiple) = [.bytes f.bytes] := by
    intro f
    rw [constants]
    split <;> rfl
  rw [hcells]
  induction fs with
  | nil => rfl
  | cons f fs ih =>
    rw [List.flatMap_cons, List.filter_append, hone, List.flatMap_append, List.length_append, ih, List.map_cons,
      List.sum_cons, List.flatMap_singleton, cells, List.length_map]

/-- A large length takes a cell, which it shares with all equal ones. -/
theorem length_integers (fs : List StringField) : (tableCells .integer (fs.flatMap constants)).length ≤
    ((fs.map (·.bytes.length)).filter (Statement.largestInline < ·)).dedup.length := by
  have hnodup := nodup_table (p := .integer) nofun (fs.flatMap constants)
  have hsubset : table .integer (fs.flatMap constants) ⊆
      (((fs.map (·.bytes.length)).filter (Statement.largestInline < ·)).dedup.map
        fun n => .integer (Int64.ofNat n)) := by
    intro c hc
    obtain ⟨hmem, hpool⟩ := mem_table.1 hc
    obtain ⟨f, hf, hcf⟩ := List.mem_flatMap.1 hmem
    rcases mem_constants hcf with rfl | ⟨hlarge, rfl⟩
    · cases hpool
    · refine List.mem_map.2 ⟨f.bytes.length, ?_, rfl⟩
      rw [List.mem_dedup, List.mem_filter]
      exact ⟨List.mem_map_of_mem hf, decide_eq_true hlarge⟩
  -- a list without duplicates is no longer than one that has all its members
  have hle := (List.subperm_of_subset hnodup hsubset).length_le
  rw [List.length_map] at hle
  rw [length_tableCells (p := .integer) nofun, show Constant.width .integer = 1 from rfl, Nat.one_mul]
  exact hle

/-- Fields use the pool of texts and the one of integers only. -/
theorem tableCells_eq_nil {p : Pool} (hp : p ≠ .multiple) (hi : p ≠ .integer) (fs : List StringField) :
    tableCells p (fs.flatMap constants) = [] := by
  have htable : table p (fs.flatMap constants) = [] := by
    rw [List.eq_nil_iff_forall_not_mem]
    intro c hc
    obtain ⟨hmem, hpool⟩ := mem_table.1 hc
    obtain ⟨f, -, hcf⟩ := List.mem_flatMap.1 hmem
    rcases mem_constants hcf with rfl | ⟨-, rfl⟩
    · exact hp hpool.symm
    · exact hi hpool.symm
  rw [tableCells, htable]
  rfl

end StringField

/-- There is room for the program that writes strings: for the buffers of the files in the stack, for five
instructions a field and the last one in the code, and for the bytes and the lengths that are too large for an
instruction in the pools. Addresses are words of 64 bits. -/
structure Limits.RoomFor (l : Limits) (fs : List StringField) : Prop where
  stack : 7 ≤ l.stackSize
  code : 5 * fs.length + 1 ≤ l.codeSize
  integers : ((fs.map (·.bytes.length)).filter (Statement.largestInline < ·)).dedup.length ≤ l.pools.integer
  characters : (fs.map (·.bytes.length)).sum ≤ l.pools.multiple
  codeAddresses : 5 * fs.length + 1 ≤ 0x8000000000000000
  storeAddresses : l.poolEnd .multiple < 0x8000000000000000

namespace Limits.RoomFor

open Constant

variable {l : Limits} {fs : List StringField}

theorem length_lt (h : l.RoomFor fs) : ∀ f ∈ fs, f.bytes.length < 0x8000000000000000 := by
  intro f hf
  have hsum : f.bytes.length ≤ (fs.map (·.bytes.length)).sum :=
    List.le_sum_of_mem (List.mem_map_of_mem (f := fun f : StringField => f.bytes.length) hf)
  have hcharacters := h.characters
  have haddresses := h.storeAddresses
  simp only [poolEnd, Pool.Tally.get] at haddresses
  omega

theorem pools (h : l.RoomFor fs) (p : Pool) :
    (tableCells p ((StringField.program fs).filterMap (·.constant?))).length ≤ l.pools.get p := by
  rw [StringField.constants_program h.length_lt]
  cases p with
  | multiple => exact (StringField.length_characters fs).trans_le h.characters
  | integer => exact (StringField.length_integers fs).trans h.integers
  | real | set | boundary =>
    refine (congrArg List.length (StringField.tableCells_eq_nil ?_ ?_ fs)).trans_le (Nat.zero_le _) <;> decide

/-- **The program loads.** -/
theorem load (h : l.RoomFor fs) : ∃ p rest,
    Program.load l ⟨Lines.encode (StringField.programText fs), none⟩ = .ok (p, rest) ∧
      p.Consists l (StringField.program fs) := by
  have hlength := StringField.length_program fs
  refine Program.load_startupText (Program.says_program h.length_lt) (fun st hst => ?_) h.pools
    (hlength.trans_le h.code) (hlength.trans_le h.codeAddresses)
  rcases List.mem_append.1 hst with hst | hst
  · obtain ⟨f, -, hst⟩ := List.mem_flatMap.1 hst
    simp only [StringField.statements, List.mem_cons, List.not_mem_nil, or_false] at hst
    rcases hst with rfl | rfl | rfl | rfl | rfl <;> rfl
  · rw [List.mem_singleton.1 hst]
    rfl

end Limits.RoomFor

/-! ### Writing a field -/

/-- The number of a byte is a character. -/
theorem Cell.asCharacter_byte (b : UInt8) : (Cell.int (Int64.ofNat b.toNat)).asCharacter = .ok b := by
  have hlt := b.toNat_lt
  have hvalue : (Int64.ofNat b.toNat).toInt = b.toNat := Int64.toInt_ofNat_of_lt (by omega)
  have hcell : (Cell.int (Int64.ofNat b.toNat)).asCharacter =
      if 0 ≤ (Int64.ofNat b.toNat).toInt ∧ (Int64.ofNat b.toNat).toInt < 256
      then .ok (UInt8.ofNat (Int64.ofNat b.toNat).toInt.toNat) else .error .characterCode := rfl
  rw [hcell, hvalue, if_pos ⟨by omega, by omega⟩, Int.toNat_natCast, UInt8.ofNat_toNat]

/-- A natural number that is a word is a width. -/
theorem Cell.asWidth_ofNat {n : Nat} (h : n < 0x8000000000000000) : (Cell.int (Int64.ofNat n)).asWidth = .ok n := by
  have hcell : (Cell.int (Int64.ofNat n)).asWidth = .ok (Int64.ofNat n).toInt.toNat := rfl
  rw [hcell, Int64.toInt_ofNat_of_lt h, Int.toNat_natCast]

/-- To write to the output changes nothing else. -/
theorem Files.write_output {f : Files} {bytes : List UInt8} (h : f.output.hasRoom bytes.length = true) :
    write Channel.output.number bytes f = .ok () { f with output := f.output.appended bytes } := by
  have hwrite : Sink.write bytes f.output = .ok () (f.output.appended bytes) := if_pos (by rw [h, Bool.or_true])
  unfold write writing
  rw [Channel.ofNumber_number, Action.bind_of_ok (Action.lift_ok Channel.output f)]
  exact Action.zoom_of_ok hwrite

namespace Machine

variable {l : Limits} {p : Program} {m : Machine}

/-- The characters of a string are found in the cells that hold its bytes. -/
theorem characters_eq {n : Nat} : ∀ {a : Nat} {bytes : List UInt8}, n ≤ bytes.length →
    (∀ i (hi : i < bytes.length), m.store.cells[a + i]? = some (.int (Int64.ofNat bytes[i].toNat))) →
    characters n a m = .ok (bytes.take n) m := by
  induction n with
  | zero => exact fun _ _ => rfl
  | succ n ih =>
    intro a bytes hn hcells
    cases bytes with
    | nil => cases hn
    | cons b bytes =>
      have hfirst : read a m = .ok (.int (Int64.ofNat b.toNat)) m := read_eq (hcells 0 (Nat.succ_pos _))
      have hmore : characters n (a + 1) m = .ok (bytes.take n) m := by
        refine ih (Nat.le_of_succ_le_succ hn) fun i hi => ?_
        rw [Nat.add_right_comm, Nat.add_assoc]
        exact hcells (i + 1) (Nat.succ_lt_succ hi)
      rw [characters, Action.bind_of_ok hfirst, Cell.asCharacter_byte, Action.bind_of_ok (Action.lift_ok b m),
        Action.bind_of_ok hmore]
      rfl

/-- A string is written to the output, and its operands are taken from the stack. -/
theorem Calls.step_wrs {file length width address : Cell} {n w a : Nat} {bytes : List UInt8}
    (h : m.Calls .wrs [file, length, width, address]) (hfile : file.asAddress = .ok Channel.output.number)
    (hlength : length.asWidth = .ok n) (hwidth : width.asWidth = .ok w) (haddress : address.asAddress = .ok a)
    (hcharacters : characters (min n w) a m.fetched = .ok bytes m.fetched)
    (hroom : m.files.output.hasRoom (Field.string w n bytes).length = true) :
    m.step = .ok true { m.fetched with
      sp := m.sp - (4 : Nat)
      files := { m.files with output := m.files.output.appended (Field.string w n bytes) } } := by
  have hwrite : onFiles (Files.write Channel.output.number (Field.string w n bytes)) m.fetched =
      .ok () { m.fetched with
        files := { m.files with output := m.files.output.appended (Field.string w n bytes) } } :=
    onFiles_of_ok (Files.write_output hroom)
  refine h.step_of_ok ?_
  rw [standard, writeString, Action.bind_of_ok (h.peekAddress_eq rfl hfile), Action.bind_of_ok (h.peek_eq rfl),
    hlength, Action.bind_of_ok (Action.lift_ok _ _), Action.bind_of_ok (h.peek_eq rfl), hwidth,
    Action.bind_of_ok (Action.lift_ok _ _), Action.bind_of_ok (h.peekAddress_eq rfl haddress),
    Action.bind_of_ok hcharacters, Action.bind_of_ok hwrite]
  rfl

section

variable {before after : List Statement} {f : StringField}
  (hp : p.Consists l (before ++ (f.statements ++ after)))

include hp

/-- The first instructions of a field put on the stack where the string is, the width, the length and the file. -/
theorem loads_field (hsize : p.store.cells.size < 0x8000000000000000) : ∃ a, l.stackSize < a ∧
    (∀ m : Machine, m.Ready l p → ∀ i (hi : i < f.bytes.length),
      m.store.cells[a + i]? = some (.int (Int64.ofNat f.bytes[i].toNat))) ∧
    Loads l p before.length
      [.address a, .int (Int64.ofNat f.width), .int (Int64.ofNat f.bytes.length), .int 5] := by
  have hpushes : ∀ i n, f.statements[i]? = some (.integer n) → i ≤ 5 → ∀ m : Machine, m.Ready l p →
      m.pc = before.length + i → m.Pushes (.int n) := fun i n hst hi m hm hpc =>
    hp.pushes_integer (StringField.split_statements hst before after) hsize hm
      (hpc.trans (f.length_before hi before).symm)
  have hfirst : before ++ (f.statements ++ after) = before ++ .bytes f.bytes :: (f.statements.tail ++ after) := rfl
  obtain ⟨a, hhigh, hcells, haddress⟩ := hp.pushes_bytes hfirst hsize
  exact ⟨a, hhigh, hcells, haddress, hpushes 1 _ rfl (by decide), hpushes 2 _ rfl (by decide),
    hpushes 3 _ rfl (by decide), trivial⟩

/-- The last one calls the procedure that writes. -/
theorem calls_field {cs : List Cell} {cells : Array Cell} (hcs : cs.length = 4) (hstacked : m.Stacked cs cells)
    (hm : m.Ready l p) (hpc : m.pc = before.length) :
    (m.loaded 4 cells).Calls .wrs cs.reverse := by
  refine ⟨⟨0, ?_⟩, fun depth c hc => ?_⟩
  · have hplace : (m.loaded 4 cells).pc = (before ++ f.statements.take 4).length := by
      rw [f.length_before (by decide), ← hpc]
      rfl
    exact hp.next (m := m.loaded 4 cells) (StringField.split_statements (i := 4) rfl before after) hm.code hplace
  · have hoperand := hstacked.operand hm.bottom hc
    rwa [hcs] at hoperand

end

/-- The machine after a field: five instructions further, with more in its output. -/
def wrote (m : Machine) (bytes : List UInt8) (cells : Array Cell) : Machine :=
  { m with
    pc := m.pc + 5, store := { m.store with cells }
    files := { m.files with output := m.files.output.appended bytes } }

/-- A machine between two fields: nothing is on its stack, and it goes on at a code address. -/
structure Idle (l : Limits) (p : Program) (pc : Nat) (m : Machine) : Prop where
  ready : m.Ready l p
  running : m.status = .running
  clear : m.interrupted = false
  next : m.pc = pc
  empty : m.sp = -1
  room : 7 < m.np

/-- **One field.** Five instructions write it, and leave the stack and the constants as they were. -/
theorem Idle.write {before after : List Statement} {f : StringField} (hm : m.Idle l p before.length)
    (hp : p.Consists l (before ++ (f.statements ++ after))) (hsize : p.store.cells.size < 0x8000000000000000)
    (hlength : f.bytes.length < 0x8000000000000000) (hroom : m.files.output.hasRoom f.width = true) :
    ∃ cells, m.execute 5 = m.wrote f.field cells ∧ cells.size = m.store.cells.size ∧
      ∀ a, l.stackSize < a → cells[a]? = m.store.cells[a]? := by
  have hheap := hm.ready.heap
  have hempty := hm.empty
  have hlow := hm.room
  obtain ⟨a, hhigh, hcells, hloads⟩ := loads_field hp hsize
  obtain ⟨cells, hstacked, hrun⟩ := (hm.next ▸ hloads).run hp.stackSize_lt hm.ready hm.running hm.clear
    (by simp only [List.length_cons, List.length_nil]; omega)
  have hspared : ∀ b, l.stackSize < b → cells[b]? = m.store.cells[b]? := fun b hb =>
    hstacked.spared b (Or.inr (by simp only [List.length_cons, List.length_nil]; omega))
  refine ⟨cells, ?_, hstacked.size, hspared⟩
  -- the shorter of the string and its field decides how much is written, in whatever order they are compared
  have hfield : Field.string f.width f.bytes.length (f.bytes.take (min f.bytes.length f.width)) = f.field := by
    rw [min_comm]
    rfl
  -- the pools are above the stack, so the string is still there when the call comes
  have hcharacters : characters (min f.bytes.length f.width) a (m.loaded 4 cells).fetched =
      .ok (f.bytes.take (min f.bytes.length f.width)) (m.loaded 4 cells).fetched :=
    characters_eq (Nat.min_le_left _ _) fun i hi => (hspared (a + i) (by omega)).trans (hcells m hm.ready i hi)
  have hstep := (calls_field hp rfl hstacked hm.ready hm.next).step_wrs rfl (Cell.asWidth_ofNat hlength)
    (Cell.asWidth_ofNat (f.width_le.trans_lt (by decide))) rfl hcharacters
    (by rw [hfield, StringField.length_field]; exact hroom)
  rw [hfield] at hstep
  have hfour : m.execute 4 = m.loaded 4 cells := hrun
  have hsp : m.sp + (4 : Nat) - (4 : Nat) = m.sp := by omega
  rw [← execute_add 4 1, hfour, execute_one (m := m.loaded 4 cells) hm.running hm.clear hstep]
  simp only [fetched, loaded, wrote, hsp]

theorem Idle.wrote {pc : Nat} (hm : m.Idle l p pc) {cells : Array Cell} (hsize : cells.size = m.store.cells.size)
    (hspared : ∀ a, l.stackSize < a → cells[a]? = m.store.cells[a]?) (bytes : List UInt8) :
    (m.wrote bytes cells).Idle l p (pc + 5) where
  ready := ⟨hm.ready.code, hsize.trans hm.ready.size, fun a ha => (hspared a ha).trans (hm.ready.pools a ha),
    hm.ready.bottom, hm.ready.room, hm.ready.heap⟩
  running := hm.running
  clear := hm.clear
  next := congrArg (· + 5) hm.next
  empty := hm.empty
  room := hm.room

/-- The last instruction stops the machine. -/
theorem Idle.stop {before : List Statement} (hm : m.Idle l p before.length)
    (hp : p.Consists l (before ++ [.plain ⟨.stp, 0, 0⟩])) (hflush : m.files.flush = .ok ()) :
    m.execute 1 = { m with pc := m.pc + 1, status := .stopped } := by
  have hi := hp.next rfl hm.ready.code hm.next
  have hstep : step m = .ok false m.fetched := step_of_ok hi rfl
  have hhalt : m.fetched.halt = { m with pc := m.pc + 1, status := .stopped } := by
    have hflush : m.fetched.files.flush = .ok () := hflush
    rw [halt, hflush]
    rfl
  rw [execute_of_running hm.running hm.clear, cycle_succ, hstep]
  exact hhalt

/-- **All fields.** The machine writes one after the other, and stops. -/
theorem Idle.run (hsize : p.store.cells.size < 0x8000000000000000) :
    ∀ {fs : List StringField} {before : List Statement} {m : Machine}, m.Idle l p before.length →
    p.Consists l (before ++ StringField.program fs) → (∀ f ∈ fs, f.bytes.length < 0x8000000000000000) →
    m.files.output.hasRoom (fs.map (·.width)).sum = true → m.files.flush = .ok () →
    ∃ r, m.execute (5 * fs.length + 1) = r ∧ r.status = .stopped ∧ r.sp = m.sp ∧
      r.files = { m.files with output := m.files.output.appended (fs.flatMap (·.field)) } := by
  intro fs
  induction fs with
  | nil =>
    intro before m hm hp _ _ hflush
    refine ⟨_, hm.stop hp hflush, rfl, rfl, ?_⟩
    rw [List.flatMap_nil, Sink.appended_nil]
  | cons f fs ih =>
    intro before m hm hp hlengths hroom hflush
    rw [List.map_cons, List.sum_cons] at hroom
    have hsplit : StringField.program (f :: fs) = f.statements ++ StringField.program fs := by
      rw [StringField.program, List.flatMap_cons, List.append_assoc]
      rfl
    rw [hsplit] at hp
    obtain ⟨cells, hrun, hcells, hspared⟩ := hm.write hp hsize (hlengths f List.mem_cons_self)
      (Sink.hasRoom_of_le hroom (Nat.le_add_right _ _))
    have hplace : (before ++ f.statements).length = before.length + 5 := List.length_append
    have hidle : (m.wrote f.field cells).Idle l p (before ++ f.statements).length :=
      hplace ▸ hm.wrote hcells hspared f.field
    -- the field has taken its width of the room, and the rest is left for the other fields
    have hmore : (m.files.output.appended f.field).hasRoom (fs.map (·.width)).sum = true := by
      refine Sink.hasRoom_appended ?_
      rw [StringField.length_field]
      exact hroom
    rw [← List.append_assoc] at hp
    obtain ⟨r, hrest, hstatus, hsp, hfiles⟩ := ih hidle hp (fun g hg => hlengths g (List.mem_cons_of_mem _ hg))
      hmore hflush
    refine ⟨r, ?_, hstatus, hsp, ?_⟩
    · have hcount : 5 * (f :: fs).length + 1 = 5 + (5 * fs.length + 1) := by
        rw [List.length_cons]
        omega
      rw [hcount, ← execute_add, hrun, hrest]
    · rw [hfiles, List.flatMap_cons, ← Sink.appended_appended]
      rfl

end Machine

namespace Program

/-- The start of a run finds the constants as they were loaded. -/
theorem idle_boot {l : Limits} {sts : List Statement} {p : Program} (hp : p.Consists l sts) (hstack : 7 ≤ l.stackSize)
    (files : Files) : ∃ m p', Machine.boot files p = .ok m p' ∧ m.files = files ∧ m.Idle l p 0 := by
  have hlimits := hp.store.limits
  have hroom : Channel.prr.number < p.store.size := Nat.lt_of_le_of_lt hstack hp.stackSize_lt
  refine ⟨_, _, Machine.boot_eq files hroom, rfl, ⟨rfl, Machine.size_withBuffers p.store, fun a ha => ?_,
    Int.le_refl _, ?_, ?_⟩, rfl, rfl, rfl, rfl, ?_⟩
  · -- the buffers are all in the stack
    have hnone : Machine.buffer? a = none := Machine.buffer?_of_ne fun ch => by
      cases ch <;> simp only [Channel.number] <;> omega
    rw [Machine.getElem?_withBuffers hroom, hnone, Option.none_or]
  · simp only
    omega
  · simp only [hlimits]
    omega
  · simp only [hlimits]
    omega

/-- **Strings that are written fill their fields.** The program that writes strings in fields loads, runs and
stops if there is room for it and for its output. Then it has written each field with as many blanks as the
string is too short and as many bytes of the string as fit, so that the output has grown by the widths of all
fields; and its stack is as it was at the start. -/
theorem strings_fill_fields (l : Limits) (fs : List StringField) (hl : l.RoomFor fs) (files : Files)
    (hroom : files.output.hasRoom (fs.map (·.width)).sum = true) (hflush : files.flush = .ok ()) :
    ∃ p rest m p' r, load l ⟨Lines.encode (StringField.programText fs), none⟩ = .ok (p, rest) ∧
      Machine.boot files p = .ok m p' ∧ m.EndsIn r ∧ r.status = .stopped ∧ r.sp = m.sp ∧
      r.files = { files with output := files.output.appended (fs.flatMap (·.field)) } ∧
      (fs.flatMap (·.field)).length = (fs.map (·.width)).sum := by
  obtain ⟨p, rest, hload, hp⟩ := hl.load
  have hsize : p.store.cells.size < 0x8000000000000000 := by
    rw [hp.store.size]
    exact hl.storeAddresses
  obtain ⟨m, p', hboot, rfl, hm⟩ := idle_boot hp hl.stack files
  have hidle : m.Idle l p ([] : List Statement).length := hm
  obtain ⟨r, hrun, hstatus, hsp, hfiles⟩ := Machine.Idle.run hsize hidle hp hl.length_lt hroom hflush
  have hstopped : r.isStopped = true := by
    rw [Machine.isStopped, hstatus]
    rfl
  exact ⟨p, rest, m, p', r, hload, hboot, ⟨hstopped, _, hrun⟩, hstatus, hsp, hfiles, StringField.length_fields fs⟩

/-- A string that is shorter than its field, and one that is cut within a character. -/
def shortAndLong : List StringField :=
  [⟨"AB".toList, 5, by simp, by decide⟩, ⟨"hé".toList, 2, by simp, by decide⟩]

/-- Limits with no room to spare. -/
def tightLimits : Limits := { stackSize := 7, pools := { multiple := 5 }, codeSize := 11, maxLabel := 0 }

theorem strings_fill_fields_shortAndLong : tightLimits.RoomFor shortAndLong ∧ ∃ p rest m p' r,
    load tightLimits ⟨Lines.encode (StringField.programText shortAndLong), none⟩ = .ok (p, rest) ∧
      Machine.boot {} p = .ok m p' ∧ m.EndsIn r ∧ r.status = .stopped ∧ r.sp = m.sp ∧
      r.files.output.written = #[32, 32, 32, 65, 66, 104, 195] := by
  have hl : tightLimits.RoomFor shortAndLong :=
    ⟨by decide, by decide, by decide +kernel, by decide +kernel, by decide, by decide⟩
  obtain ⟨p, rest, m, p', r, hload, hboot, hends, hstatus, hsp, hfiles, -⟩ :=
    strings_fill_fields tightLimits shortAndLong hl {} rfl rfl
  refine ⟨hl, p, rest, m, p', r, hload, hboot, hends, hstatus, hsp, ?_⟩
  rw [hfiles]
  decide +kernel

end Program

end PMachine
