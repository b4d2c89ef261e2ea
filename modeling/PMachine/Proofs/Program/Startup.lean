import PMachine.Proofs.Machine.Rounds
import PMachine.Proofs.Program.Locality
import PMachine.Proofs.Program.Meaning

/-!
# Programs that are all startup code

A program can do its work in the startup part alone. If no line refers to a label, such a program is a list of
statements: each has a line of the text, and its instruction stands at the address that counts the statements
before it.

* `Lines.split_joined`: a text that was put together from lines is cut into them.
* `Program.startupText`: the text of a startup part.
* `Program.Says`: a line that says a statement and nothing else.
* `Program.Consists`: a loaded program is a list of statements.
* `Program.load_startupText`: the text of statements loads as the program of these statements.
* `Machine.Loads.run`: statements in a row that load constants.
-/

namespace PMachine

/-! ### Lines put together -/

namespace Lines

/-- A line that is read as it is written: no newline is in it, no end of line at its end, and it is not blank. -/
structure Plain (line : LineText) : Prop where
  unbroken : '\n' ∉ line
  last : ∀ c ∈ line.getLast?, isLineEnd c = false
  visible : isBlank line = false

/-- Lines with a newline after each. -/
def joined (lines : List LineText) : List Char := lines.flatMap (· ++ ['\n'])

theorem encode_append (a b : List Char) : encode (a ++ b) = encode a ++ encode b := List.flatMap_append

theorem encode_ended (line : List Char) : encode (line ++ ['\n']) = encode line ++ [newline] :=
  encode_append line ['\n']

theorem ended_encode (line : List Char) : Ended (encode (line ++ ['\n'])) := by
  rw [Ended, encode_ended, List.getLast?_concat]

/-- A line is not cut. -/
theorem split_line {line : List Char} (h : '\n' ∉ line) :
    split (encode (line ++ ['\n'])) = [encode (line ++ ['\n'])] := by
  have hbytes : ∀ b ∈ encode line, b ≠ newline := by
    intro b hb
    obtain ⟨c, hc, hbc⟩ := List.mem_flatMap.1 hb
    exact ne_newline_of_mem (fun hn => h (hn ▸ hc)) hbc
  have hfold : split (encode line ++ [newline]) = (encode line).foldr consByte [[newline]] := by
    rw [split, List.foldr_append]
    rfl
  rw [encode_ended, hfold]
  by_cases hnil : encode line = []
  · rw [hnil]
    rfl
  · rw [foldr_consByte hnil hbytes]
    rfl

/-- **Lines that were put together are cut apart again.** -/
theorem split_joined {lines : List LineText} (h : ∀ line ∈ lines, '\n' ∉ line) :
    split (encode (joined lines)) = lines.map fun line => encode (line ++ ['\n']) := by
  induction lines with
  | nil => rfl
  | cons line more ih =>
    have hmore : joined (line :: more) = line ++ ['\n'] ++ joined more := List.flatMap_cons
    rw [hmore, encode_append, split_append (ended_encode line), split_line (h line List.mem_cons_self),
      ih fun t ht => h t (List.mem_cons_of_mem _ ht)]
    rfl

/-- The end of line goes, and nothing else. -/
theorem strip_ended {line : LineText} (h : ∀ c ∈ line.getLast?, isLineEnd c = false) :
    strip (line ++ ['\n']) = line := by
  have hend : isLineEnd '\n' = true := rfl
  rw [strip, List.reverse_append, List.reverse_singleton, List.singleton_append, List.dropWhile_cons, if_pos hend]
  rcases List.eq_nil_or_concat line with rfl | ⟨start, c, rfl⟩
  · rfl
  · rw [List.concat_eq_append] at h ⊢
    have hc : ¬ isLineEnd c = true := by simp [h c List.getLast?_concat]
    rw [List.reverse_append, List.reverse_singleton, List.singleton_append, List.dropWhile_cons_of_neg hc,
      List.reverse_cons, List.reverse_reverse]

end Lines

namespace Program

open Entry Constant
open Lines (Plain joined encode)

/-- The text of a program with no main part. -/
def startupText (lines : List LineText) : List Char := joined ([] :: lines)

/-- The text of an ended line is the line. -/
theorem lineText_ended {line : LineText} (h : ∀ c ∈ line.getLast?, Lines.isLineEnd c = false) :
    lineText (encode (line ++ ['\n'])) = line := by
  rw [lineText, Lines.decode?_encode, Option.getD_some, Lines.strip_ended h]

section

variable {lines : List LineText} (h : ∀ line ∈ lines, Plain line)

include h

/-- A text without a main part is cut into a blank line and the lines of its startup part. -/
theorem split_startupText : Lines.split (encode (startupText lines)) =
    encode ['\n'] :: lines.map fun line => encode (line ++ ['\n']) := by
  refine Lines.split_joined fun line hline => ?_
  rcases List.mem_cons.1 hline with rfl | hline
  · exact List.not_mem_nil
  · exact (h line hline).unbroken

theorem mainTexts_startupText : mainTexts (encode (startupText lines)) = [] := by
  -- the text starts with a newline, so its first line is blank
  have hfirst : lineText (encode ['\n']) = [] := @lineText_ended [] (by simp)
  have hblank : Lines.isBlank (lineText (encode ['\n'])) = true := by
    rw [hfirst]
    rfl
  rw [mainTexts, split_startupText h, partTexts, List.map_cons, List.takeWhile_cons, hblank]
  rfl

theorem startupTexts_startupText : startupTexts (encode (startupText lines)) = lines := by
  have htexts : (lines.map fun line => encode (line ++ ['\n'])).map lineText = lines := by
    have hsame : ∀ line ∈ lines, (lineText ∘ fun line => encode (line ++ ['\n'])) line = id line :=
      fun line hline => lineText_ended (h line hline).last
    rw [List.map_map, List.map_congr_left hsame, List.map_id]
  rw [startupTexts, mainTexts_startupText h, split_startupText h]
  show partTexts (lines.map fun line => encode (line ++ ['\n'])) = lines
  rw [partTexts, htexts, List.takeWhile_eq_self_iff]
  intro line hline
  rw [(h line hline).visible]
  rfl

/-- The first line is blank, so the others are numbered from 2 on. -/
theorem layout_startupText : layout (encode (startupText lines)) = number 2 0 lines := by
  rw [layout, mainLayout, startupLayout, mainTexts_startupText h, startupTexts_startupText h]
  rfl

end

/-! ### Lines that say statements -/

/-- A line says a statement, and nothing else. -/
structure Says (line : LineText) (st : Statement) : Prop where
  plain : Plain line
  read : Line.read line = .ok (.instruction st)

theorem Says.head? {line : LineText} {st : Statement} (h : Says line st) : line.head? = some ' ' :=
  (Line.head?_of_read h.read).2 rfl

theorem Says.statement? {line : LineText} {st : Statement} (h : Says line st) (k a : Nat) :
    Entry.statement? ⟨k, a, line⟩ = some st := by
  rw [Entry.statement?, content?_of_read h.read]

variable {l : Limits} {lines : List LineText} {sts : List Statement}

theorem plain_of_forall₂ (h : List.Forall₂ Says lines sts) : ∀ line ∈ lines, Plain line := by
  induction h with
  | nil => exact nofun
  | cons hline _ ih =>
    intro line hmem
    rcases List.mem_cons.1 hmem with rfl | hmem
    · exact hline.plain
    · exact ih line hmem

/-- Each numbered line says one of the statements. -/
theorem statement_of_mem_number (h : List.Forall₂ Says lines sts) : ∀ {k a : Nat} {e : Entry},
    e ∈ number k a lines → ∃ st ∈ sts, Says e.text st := by
  induction h with
  | nil => exact nofun
  | @cons line st lines sts hline _ ih =>
    intro k a e he
    rcases List.mem_cons.1 he with rfl | he
    · exact ⟨st, List.mem_cons_self, hline⟩
    · obtain ⟨st', hmem, hsays⟩ := ih he
      exact ⟨st', List.mem_cons_of_mem _ hmem, hsays⟩

/-- The constants of the lines are those of the statements. -/
theorem constants_number (h : List.Forall₂ Says lines sts) : ∀ k a : Nat,
    constants (number k a lines) = sts.filterMap (·.constant?) := by
  induction h with
  | nil => exact fun _ _ => rfl
  | @cons line st lines sts hline _ ih =>
    intro k a
    rw [number, if_pos hline.head?, constants, List.filterMap_cons, ← constants, ih, List.filterMap_cons,
      content?_of_read (e := ⟨k, a, line⟩) hline.read]
    rfl

/-- The line of a statement among the numbered ones. -/
theorem exists_entry {before after : List Statement} {st : Statement} : ∀ {lines : List LineText} {k a : Nat},
    List.Forall₂ Says lines (before ++ st :: after) → ∃ es e more, number k a lines = es ++ e :: more ∧
      e.address = a + before.length ∧ e.statement? = some st ∧
      constants es = before.filterMap (·.constant?) := by
  induction before with
  | nil =>
    intro lines k a h
    obtain ⟨line, rest, hline, -, rfl⟩ := List.forall₂_cons_right_iff.1 h
    exact ⟨[], ⟨k, a, line⟩, _, rfl, rfl, hline.statement? k a, rfl⟩
  | cons first before ih =>
    intro lines k a h
    obtain ⟨line, rest, hline, hrest, rfl⟩ := List.forall₂_cons_right_iff.1 h
    obtain ⟨es, e, more, hnumber, haddress, hst, hconstants⟩ := ih (k := k + 1) (a := a + 1) hrest
    refine ⟨⟨k, a, line⟩ :: es, e, more, ?_, ?_, hst, ?_⟩
    · rw [number, if_pos hline.head?, hnumber, List.cons_append]
    · rw [haddress, List.length_cons]
      omega
    · rw [constants, List.filterMap_cons, ← constants, hconstants, List.filterMap_cons,
        content?_of_read (e := ⟨k, a, line⟩) hline.read]
      rfl

/-! ### Loading them -/

/-- A program is a list of statements without labels: their instructions stand in order from the first address
on, and the pools hold their constants. -/
structure Consists (l : Limits) (sts : List Statement) (p : Program) : Prop where
  code : ∀ before st after, sts = before ++ st :: after →
    p.code[before.length]? = some (st.instruction l (fun _ => 0) (before.filterMap (·.constant?)))
  store : p.store.Holds l (sts.filterMap (·.constant?))

section

variable (h : List.Forall₂ Says lines sts)

include h

theorem lt_of_mem_addresses {k a : Nat} (ha : a ∈ addresses (number k 0 lines)) : a < sts.length := by
  have hcount : lines.countP (fun t => t.head? = some ' ') ≤ sts.length :=
    List.countP_le_length.trans_eq h.length_eq
  rw [addresses_number, List.mem_range'_1] at ha
  omega

/-- A part alone meets no other one. -/
theorem apart_startupText (hsize : sts.length ≤ 0x8000000000000000) : Apart l (number 2 0 lines) := by
  refine ⟨?_, fun a ha _ => (lt_of_mem_addresses h ha).trans_le hsize⟩
  rw [addresses_number]
  exact List.nodup_range'

/-- Statements that refer to no label are loaded if there is room for them and for their constants. -/
theorem loadable_startupText (hlabels : ∀ st ∈ sts, st.reference? = none)
    (hpools : ∀ p, (tableCells p (sts.filterMap (·.constant?))).length ≤ l.pools.get p)
    (hcode : sts.length ≤ l.codeSize) : Loadable l (encode (startupText lines)) := by
  have hlayout := layout_startupText (plain_of_forall₂ h)
  constructor
  · intro e he
    rw [hlayout] at he
    obtain ⟨st, hst, hsays⟩ := statement_of_mem_number h he
    refine ⟨_, hsays.read, fun n hn => ?_⟩
    rw [Line.label?, hlabels st hst] at hn
    cases hn
  · rw [hlayout, constants_number h]
    exact hpools
  · intro a ha
    rw [hlayout] at ha
    exact (lt_of_mem_addresses h ha).trans_le hcode
  · intro e he n hn
    rw [hlayout] at he
    obtain ⟨st, hst, hsays⟩ := statement_of_mem_number h he
    rw [refersTo, hsays.statement? e.line e.address, Option.bind_some, hlabels st hst] at hn
    cases hn

/-- **The text of statements loads as the program of these statements**, if the limits have room for them. -/
theorem load_startupText (hlabels : ∀ st ∈ sts, st.reference? = none)
    (hpools : ∀ p, (tableCells p (sts.filterMap (·.constant?))).length ≤ l.pools.get p)
    (hcode : sts.length ≤ l.codeSize) (hsize : sts.length ≤ 0x8000000000000000) :
    ∃ p rest, load l ⟨encode (startupText lines), none⟩ = .ok (p, rest) ∧ p.Consists l sts := by
  have hlayout := layout_startupText (plain_of_forall₂ h)
  have hapart : Apart l (layout (encode (startupText lines))) := by
    rw [hlayout]
    exact apart_startupText h hsize
  obtain ⟨s, hload, hfol⟩ := load_of_loadable hapart (loadable_startupText h hlabels hpools hcode)
  rw [hlayout] at hfol
  refine ⟨_, _, hload, ?_, ?_⟩
  · rintro before st after rfl
    obtain ⟨es, e, more, hnumber, haddress, hst, hconstants⟩ := exists_entry (k := 2) (a := 0) h
    have hi := hfol.code es e more st hnumber hst
    rw [haddress, Nat.zero_add, hconstants] at hi
    rw [hi]
    -- no label, so no operand that depends on one
    refine congrArg some (Statement.instruction_congr fun n hn => ?_)
    rw [hlabels st (by simp)] at hn
    cases hn
  · have hstore := hfol.store
    rw [constants_number h] at hstore
    exact hstore

end

end Program

/-! ### Running them -/

namespace Program.Consists

variable {l : Limits} {sts before after : List Statement} {p : Program}

theorem stackSize_lt (h : p.Consists l sts) : l.stackSize < p.store.cells.size := by
  have hregion := h.store.region_le .integer
  have hstart := l.stackSize_lt_poolStart .integer
  omega

/-- A machine that comes to a statement is about to perform its instruction. -/
theorem next {st : Statement} (h : p.Consists l sts) (hst : sts = before ++ st :: after) {m : Machine}
    (hcode : m.code = p.code) (hpc : m.pc = before.length) :
    m.code[m.pc]? = some (st.instruction l (fun _ => 0) (before.filterMap (·.constant?))) := by
  rw [hcode, hpc]
  exact h.code before st after hst

/-- A statement finds its constant wherever the pools are as they were loaded. -/
theorem finds {st : Statement} (h : p.Consists l sts) (hst : sts = before ++ st :: after)
    (hsize : p.store.cells.size < 0x8000000000000000) {c : Constant} (hc : st.constant? = some c) {m : Machine}
    (hm : m.Ready l p) : m.Finds l (before.filterMap (·.constant?)) c := by
  have hstore := h.store
  rw [hst, List.filterMap_append, List.filterMap_cons_some hc, ← List.singleton_append,
    ← List.append_assoc] at hstore
  exact finds_of_holds hstore hsize hm

/-- A load of an integer pushes it, from the instruction or from its pool. -/
theorem pushes_integer {n : Word} (h : p.Consists l sts) (hst : sts = before ++ .integer n :: after)
    (hsize : p.store.cells.size < 0x8000000000000000) {m : Machine} (hm : m.Ready l p)
    (hpc : m.pc = before.length) : m.Pushes (.int n) :=
  hm.meets h.stackSize_lt hsize (h.next hst hm.code hpc) (fun _ hc => h.finds hst hsize hc hm) rfl

/-- The address of character data leads to its bytes, which stand above the stack. -/
theorem pushes_bytes {b : List UInt8} (h : p.Consists l sts) (hst : sts = before ++ .bytes b :: after)
    (hsize : p.store.cells.size < 0x8000000000000000) : ∃ a, l.stackSize < a ∧
      (∀ m : Machine, m.Ready l p → ∀ i (hi : i < b.length),
        m.store.cells[a + i]? = some (.int (Int64.ofNat b[i].toNat))) ∧
      ∀ m : Machine, m.Ready l p → m.pc = before.length → m.Pushes (.address a) := by
  have hfirst : (Constant.bytes b).address l (before.filterMap (·.constant?)) =
      (Constant.bytes b).firstCell l (before.filterMap (·.constant?)) := rfl
  have hhigh : l.stackSize < (Constant.bytes b).firstCell l (before.filterMap (·.constant?)) :=
    (l.stackSize_lt_poolStart _).trans_le (Nat.le_add_right _ _)
  refine ⟨(Constant.bytes b).address l (before.filterMap (·.constant?)), hfirst ▸ hhigh, fun m hm i hi => ?_,
    fun m hm hpc => ?_⟩
  · have hcell := (h.finds hst hsize rfl hm).cells i (by simpa [Constant.cells] using hi)
    rw [hfirst]
    simpa [Constant.cells] using hcell
  · exact hm.pushes h.stackSize_lt hsize (h.next hst hm.code hpc) Opcode.noConfusion
      (Machine.perform_lca (h.finds hst hsize rfl hm).small)

end Program.Consists

namespace Machine

variable {l : Limits} {p : Program} {m m' : Machine} {c : Cell} {cs : List Cell}

/-- From a code address on, the instructions of a program put these cells on the stack, one after the other. -/
def Loads (l : Limits) (p : Program) : Nat → List Cell → Prop
  | _, [] => True
  | a, c :: cs => (∀ m : Machine, m.Ready l p → m.pc = a → m.Pushes c) ∧ Loads l p (a + 1) cs

/-- The machine a number of instructions further, with as many more cells on its stack. -/
def loaded (m : Machine) (n : Nat) (cells : Array Cell) : Machine :=
  { m with pc := m.pc + n, sp := m.sp + n, store := { m.store with cells } }

/-- These are the cells of a machine with more of them on its stack, and changed nowhere else. -/
structure Stacked (m : Machine) (cs : List Cell) (cells : Array Cell) : Prop where
  size : cells.size = m.store.cells.size
  stacked : ∀ (i : Nat) (c : Cell), cs[i]? = some c → cells[(m.sp + 1 + i).toNat]? = some c
  spared : ∀ a : Nat, (a : Int) ≤ m.sp ∨ m.sp + cs.length < a → cells[a]? = m.store.cells[a]?

/-- One round on a machine that runs is one step. -/
theorem execute_one (hrunning : m.status = .running) (hclear : m.interrupted = false)
    (hstep : step m = .ok true m') : m.execute 1 = m' := by
  rw [execute_of_running hrunning hclear, cycle_succ, hstep]
  rfl

theorem Ready.pushed (h : m.Ready l p) (hroom : m.sp + 2 < m.np) (c : Cell) :
    (m.fetched.pushed c).Ready l p := by
  have hbottom := h.bottom
  have hheap := h.heap
  refine ⟨h.code, Array.size_setIfInBounds.trans h.size, fun a ha => ?_, ?_, ?_, hheap⟩
  · rw [← h.pools a ha]
    exact Array.getElem?_setIfInBounds_ne (by simp only [fetched]; omega)
  · simp only [Machine.pushed, fetched]
    omega
  · simp only [Machine.pushed, fetched]
    omega

theorem Stacked.cons (hbottom : -1 ≤ m.sp) (htop : m.sp + 1 < m.store.cells.size) {cells : Array Cell}
    (h : (m.fetched.pushed c).Stacked cs cells) : m.Stacked (c :: cs) cells where
  size := h.size.trans Array.size_setIfInBounds
  stacked i d hd := by
    cases i with
    | zero =>
      -- the first cell is below those that come later
      cases hd
      rw [h.spared (m.sp + 1 + (0 : Nat)).toNat (Or.inl (by simp only [pushed, fetched]; omega))]
      have hplace : (m.sp + 1 + (0 : Nat)).toNat = (m.sp + 1).toNat := by omega
      rw [hplace]
      exact Array.getElem?_setIfInBounds_self_of_lt (by simp only [fetched]; omega)
    | succ i =>
      have hplace : (m.sp + 1 + (i + 1 : Nat)).toNat = ((m.fetched.pushed c).sp + 1 + i).toNat := by
        simp only [pushed, fetched]
        omega
      rw [hplace]
      exact h.stacked i d hd
  spared a ha := by
    rw [List.length_cons] at ha
    rw [h.spared a (by simp only [pushed, fetched]; omega)]
    exact Array.getElem?_setIfInBounds_ne (by simp only [fetched]; omega)

/-- The last cell that went on the stack is the first operand. -/
theorem Stacked.operand {cells : Array Cell} (h : m.Stacked cs cells) (hbottom : -1 ≤ m.sp) {depth : Nat}
    (hc : cs.reverse[depth]? = some c) :
    (depth : Int) ≤ m.sp + cs.length ∧ cells[(m.sp + cs.length - depth).toNat]? = some c := by
  have hdepth : depth < cs.length := by
    rw [← List.length_reverse]
    exact (List.getElem?_eq_some_iff.1 hc).1
  rw [List.getElem?_reverse hdepth] at hc
  have hcell := h.stacked (cs.length - 1 - depth) c hc
  have hplace : (m.sp + cs.length - depth).toNat = (m.sp + 1 + (cs.length - 1 - depth : Nat)).toNat := by omega
  refine ⟨by omega, ?_⟩
  rw [hplace]
  exact hcell

/-- **Loads in a row** leave their cells on the stack, in this order, and do nothing else. -/
theorem Loads.run (hlimit : l.stackSize < p.store.cells.size) : ∀ {cs : List Cell} {m : Machine},
    Loads l p m.pc cs → m.Ready l p → m.status = .running → m.interrupted = false →
    m.sp + cs.length + 1 < m.np →
    ∃ cells, m.Stacked cs cells ∧ m.execute cs.length = m.loaded cs.length cells := by
  intro cs
  induction cs with
  | nil =>
    intro m _ _ _ hclear _
    refine ⟨m.store.cells, ⟨rfl, nofun, fun _ _ => rfl⟩, ?_⟩
    rw [List.length_nil, execute_zero hclear, loaded, Int.natCast_zero, Int.add_zero]
    rfl
  | cons c cs ih =>
    intro m h hm hrunning hclear hroom
    have hbottom := hm.bottom
    have hheap := hm.heap
    have hsize := hm.size
    rw [List.length_cons] at hroom
    -- there is room for one cell more than is loaded, so the machine is ready after the last load as well
    obtain ⟨hstep, -⟩ := h.1 m hm rfl
    obtain ⟨cells, hcells, hrun⟩ := ih (m := m.fetched.pushed c) h.2 (hm.pushed (by omega) c) hrunning hclear
      (by simp only [pushed, fetched]; omega)
    refine ⟨cells, hcells.cons hbottom (by omega), ?_⟩
    rw [List.length_cons, Nat.add_comm, ← execute_add, execute_one hrunning hclear hstep, hrun]
    have hpc : m.pc + 1 + cs.length = m.pc + (1 + cs.length) := by omega
    have hsp : m.sp + 1 + cs.length = m.sp + (1 + cs.length : Nat) := by omega
    simp only [loaded, pushed, fetched, hpc, hsp]

end Machine

end PMachine
