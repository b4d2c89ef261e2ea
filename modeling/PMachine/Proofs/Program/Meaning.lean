import PMachine.Proofs.Demand
import PMachine.Proofs.Machine.Stack
import PMachine.Proofs.Program.Overlap

/-!
# What the line of a constant means

A line that names a constant says what its instruction does when the machine comes to it, whatever
other constants there are. The constant may stand in the instruction or in a pool: the machine shows
no difference, as long as the pools are as they were loaded.

* `Machine.Meets`: what the machine does to meet a demand.
* `Machine.Ready.meets`: the instruction of a statement meets its demand if its constant is in place.
* `Program.constants_mean`: the machine meets the demand of every line.
-/

namespace PMachine

namespace Machine

open Statement (Demand)

variable {l : Limits} {p : Program} {m : Machine} {c : Cell} {i : Instruction}

/-- A machine in the course of a run of a program whose constants are as they were loaded, with room
for one more cell on its stack. An empty stack ends at -1, and none ends below. -/
structure Ready (l : Limits) (p : Program) (m : Machine) : Prop where
  code : m.code = p.code
  size : m.store.cells.size = p.store.cells.size
  pools : ∀ a, l.stackSize < a → m.store.cells[a]? = p.store.cells[a]?
  bottom : -1 ≤ m.sp
  room : m.sp + 1 < m.np
  heap : m.np ≤ l.stackSize + 1

/-- The next instruction puts a cell on the stack and does nothing else. -/
def Pushes (m : Machine) (c : Cell) : Prop :=
  step m = .ok true (m.fetched.pushed c) ∧ (m.fetched.pushed c).top? = some c

/-- The next instruction is a check of the integer on top, and does nothing else. -/
def Checks (m : Machine) (lower upper : Word) : Prop :=
  (∀ b m', step m = .ok b m' ↔
    b = true ∧ m' = m.fetched ∧ ∃ v, m.top? = some (.int v) ∧ lower ≤ v ∧ v ≤ upper) ∧
  ∀ v, m.top? = some (.int v) → ¬ (lower ≤ v ∧ v ≤ upper) →
    ∃ f m', step m = .error f m' ∧ f.kind = .valueOutOfRange

/-- The next instruction does what a line demands. -/
def Meets (m : Machine) : Demand → Prop
  | .value c => Pushes m c
  | .nil => Pushes m (.address m.store.size)
  | .bytes l => ∃ a, Pushes m (.address a) ∧ ∀ i (hi : i < l.length),
      (m.fetched.pushed (.address a)).store.cells[a + i]? = some (.int (Int64.ofNat l[i].toNat))
  | .bounds lower upper => Checks m lower upper

/-- A constant stands in its place, above the stack. -/
structure Finds (l : Limits) (before : List Constant) (m : Machine) (c : Constant) : Prop where
  cells : ∀ i (hi : i < c.cells.length),
    m.store.cells[c.firstCell l before + i]? = some c.cells[i]
  small : c.address l before < 0x8000000000000000

/-! ### Instructions with a constant -/

theorem Ready.pushes (h : Ready l p m) (hlimit : l.stackSize < p.store.cells.size)
    (hsize : p.store.cells.size < 0x8000000000000000) (hi : m.code[m.pc]? = some i)
    (hop : i.op ≠ .stp) (hrun : perform i m.fetched = push c m.fetched) : Pushes m c := by
  have hbottom := h.bottom
  have hroom := h.room
  have hheap := h.heap
  have hcells := h.size
  have hpush : push c m.fetched = .ok () (m.fetched.pushed c) :=
    push_eq (m := m.fetched) hbottom hroom (by simp only [fetched]; omega)
      (by simp only [fetched]; omega) c
  have hstep := step_of_ok hi (hrun.trans hpush)
  rw [decide_eq_true hop] at hstep
  refine ⟨hstep, ?_⟩
  have hlow : 0 ≤ (m.fetched.pushed c).sp := by simp only [pushed, fetched]; omega
  rw [top?, if_pos hlow]
  exact Array.getElem?_setIfInBounds_self_of_lt (by simp only [fetched]; omega)

/-- The load of a constant from a pool. -/
theorem perform_lci {a kind : Nat} (ha : a < 0x8000000000000000) (hc : m.store.cells[a]? = some c) :
    perform ⟨.lci, kind, Address.toWord a⟩ m = push c m := by
  have hrun : perform ⟨.lci, kind, Address.toWord a⟩ m = (do
      let b ← operand (Address.toWord a)
      let d ← read b
      push d : Action Machine Unit) m := rfl
  rw [hrun, Action.bind_of_ok (operand_toWord ha), Action.bind_of_ok (read_eq hc)]

/-- The load of an address pushes it. -/
theorem perform_lca {a : Nat} (ha : a < 0x8000000000000000) :
    perform ⟨.lca, 0, Address.toWord a⟩ m = push (.address a) m := by
  have hrun : perform ⟨.lca, 0, Address.toWord a⟩ m = (do
      let b ← operand (Address.toWord a)
      push (.address b) : Action Machine Unit) m := rfl
  rw [hrun, Action.bind_of_ok (operand_toWord ha)]

/-- The check looks at the top, then at the lower bound, which stands below its address, and at the
upper one. -/
theorem checkBounds_eq {a : Nat} {lower upper v : Word} (ha : a + 1 < 0x8000000000000000)
    (hlower : m.store.cells[a]? = some (.int lower))
    (hupper : m.store.cells[a + 1]? = some (.int upper)) (hv : m.top? = some (.int v)) :
    checkBounds (Address.toWord (a + 1)) m =
      if lower ≤ v ∧ v ≤ upper then .ok () m
      else .error (.notInRange v.toInt lower.toInt upper.toInt) m := by
  have hpeek : peekInt 0 m = .ok v m := by
    rw [peekInt, Action.bind_of_ok (peek_zero_eq hv)]
    rfl
  have hbelow : offset (a + 1) (-1) m = .ok a m := by
    rw [offset_eq ha (by omega) (by omega)]
    congr 1
    omega
  have hint : ∀ n : Word, (Action.lift (Cell.int n).asInt : Action Machine Word) m = .ok n m :=
    fun _ => rfl
  rw [checkBounds, Action.bind_of_ok hpeek, Action.bind_of_ok (operand_toWord ha),
    Action.bind_of_ok hbelow, Action.bind_of_ok (read_eq hlower), Action.bind_of_ok (hint lower),
    Action.bind_of_ok (read_eq hupper), Action.bind_of_ok (hint upper)]
  have hout : (v < lower ∨ upper < v) ↔ ¬ (lower ≤ v ∧ v ≤ upper) := by
    rw [not_and_or, Int64.not_le, Int64.not_le]
  by_cases hin : lower ≤ v ∧ v ≤ upper
  · rw [if_pos hin, if_neg (fun h => hout.1 h hin), Action.pure_apply]
  · rw [if_neg hin, if_pos (hout.2 hin), Action.throw_apply]

/-- Bounds are only checked for integers. -/
theorem checkBounds_error (q : Word) (h : ∀ v, m.top? ≠ some (.int v)) :
    ∃ f, checkBounds q m = .error f m := by
  cases htop : m.top? with
  | none =>
    obtain ⟨f, hf⟩ := peek_zero_error htop
    refine ⟨f, ?_⟩
    rw [checkBounds, Action.bind_of_error]
    rw [peekInt, Action.bind_of_error hf]
  | some c =>
    have hint : ∃ f, c.asInt = .error f := by
      cases c with
      | int v => exact absurd htop (h v)
      | undefined | real _ | bool _ | set _ | address _ | mark _ => exact ⟨_, rfl⟩
    obtain ⟨f, hf⟩ := hint
    refine ⟨f, ?_⟩
    rw [checkBounds, Action.bind_of_error]
    rw [peekInt, Action.bind_of_ok (peek_zero_eq htop), hf]
    rfl

/-- A check is one for the bounds in the cell at its operand and the one below it. -/
theorem checks_of_bounds {a : Nat} {lower upper : Word} (ha : a + 1 < 0x8000000000000000)
    (hi : m.code[m.pc]? = some ⟨.chk, 0, Address.toWord (a + 1)⟩)
    (hlower : m.store.cells[a]? = some (.int lower))
    (hupper : m.store.cells[a + 1]? = some (.int upper)) : Checks m lower upper := by
  have hrun : ∀ v, m.top? = some (.int v) → perform ⟨.chk, 0, Address.toWord (a + 1)⟩ m.fetched =
      if lower ≤ v ∧ v ≤ upper then .ok () m.fetched
      else .error (.notInRange v.toInt lower.toInt upper.toInt) m.fetched :=
    fun v hv => checkBounds_eq (m := m.fetched) ha hlower hupper hv
  constructor
  · intro b m'
    constructor
    · intro hstep
      by_cases hint : ∃ v, m.top? = some (.int v)
      · obtain ⟨v, hv⟩ := hint
        have hv' := hrun v hv
        by_cases hin : lower ≤ v ∧ v ≤ upper
        · rw [if_pos hin] at hv'
          rw [step_of_ok hi hv'] at hstep
          cases hstep
          exact ⟨rfl, rfl, v, hv, hin⟩
        · rw [if_neg hin] at hv'
          rw [step_of_error hi hv'] at hstep
          cases hstep
      · obtain ⟨f, hf⟩ := checkBounds_error (m := m.fetched) (Address.toWord (a + 1))
          fun v hv => hint ⟨v, hv⟩
        rw [step_of_error hi hf] at hstep
        cases hstep
    · rintro ⟨rfl, rfl, v, hv, hin⟩
      have hv' := hrun v hv
      rw [if_pos hin] at hv'
      exact step_of_ok hi hv'
  · intro v hv hout
    have hv' := hrun v hv
    rw [if_neg hout] at hv'
    exact ⟨_, _, step_of_error hi hv', rfl⟩

/-- **The instruction of a statement meets its demand** if its constant is in place. -/
theorem Ready.meets (h : Ready l p m) (hlimit : l.stackSize < p.store.cells.size)
    (hsize : p.store.cells.size < 0x8000000000000000) {st : Statement} {label : Nat → Word}
    {before : List Constant} (hi : m.code[m.pc]? = some (st.instruction l label before))
    (hc : ∀ c, st.constant? = some c → Finds l before m c) {d : Demand} (hd : st.demand? = some d) :
    m.Meets d := by
  -- a pooled constant of one cell is loaded from that cell
  have pooled : ∀ (c : Constant) (cell : Cell) (kind : Nat), st.constant? = some c →
      c.cells = [cell] → Constant.width c.pool = 1 →
      st.instruction l label before = ⟨.lci, kind, Address.toWord (c.address l before)⟩ →
      Pushes m cell := by
    intro c cell kind hcon hcells hwidth hins
    have hfind := hc c hcon
    have hcell := hfind.cells 0 (by rw [hcells]; exact Nat.one_pos)
    have haddress : c.address l before = c.firstCell l before + 0 := by
      rw [Constant.address, hwidth]
    simp only [hcells, List.getElem_cons_zero] at hcell
    rw [hins] at hi
    refine h.pushes hlimit hsize hi (by simp) (perform_lci hfind.small ?_)
    rw [haddress]
    exact hcell
  cases st with
  | integer n =>
    cases hd
    by_cases hn : Statement.largestInline < n.toInt.natAbs
    · have hcon : (Statement.integer n).constant? = some (.integer n) := by
        rw [Statement.constant?, if_pos hn]
      refine pooled _ _ 1 hcon rfl rfl ?_
      simp only [Statement.instruction, Statement.op, if_pos hn, Statement.p, Statement.q, hcon]
    · have hcon : (Statement.integer n).constant? = none := by rw [Statement.constant?, if_neg hn]
      simp only [Statement.instruction, Statement.op, if_neg hn, Statement.p, Statement.q, hcon] at hi
      exact h.pushes hlimit hsize hi (by simp) rfl
  | real x => cases hd; exact pooled (.real x) _ 2 rfl rfl rfl rfl
  | set s => cases hd; exact pooled (.set s) _ 4 rfl rfl rfl rfl
  | bytes b =>
    cases hd
    have hfind := hc (.bytes b) rfl
    refine ⟨_, h.pushes hlimit hsize hi (by simp [Statement.instruction, Statement.op])
      (perform_lca hfind.small), fun j hj => ?_⟩
    have hcell := hfind.cells j (by simpa [Constant.cells] using hj)
    have hhigh : l.stackSize < (Constant.bytes b).firstCell l before :=
      (l.stackSize_lt_poolStart _).trans_le (Nat.le_add_right _ _)
    have hroom := h.room
    have hheap := h.heap
    have hne : (m.sp + 1).toNat ≠ (Constant.bytes b).firstCell l before + j := by omega
    simp only [pushed, fetched]
    rw [Constant.address, show Constant.width (Constant.bytes b).pool - 1 = 0 from rfl, Nat.add_zero,
      Array.getElem?_setIfInBounds_ne hne, hcell]
    simp [Constant.cells]
  | bounds lower upper =>
    cases hd
    have hfind := hc (.bounds lower upper) rfl
    have hsmall := hfind.small
    have hlow := hfind.cells 0 (by simp [Constant.cells])
    have hupp := hfind.cells 1 (by simp [Constant.cells])
    exact checks_of_bounds hsmall hi hlow hupp
  | plain i =>
    have hinline : Statement.inline? i = some d := hd
    unfold Statement.inline? at hinline
    split at hinline <;> cases hinline
    · exact h.pushes hlimit hsize hi (by simp [Statement.instruction, Statement.op]) rfl
    · exact h.pushes hlimit hsize hi (by simp [Statement.instruction, Statement.op]) rfl
  | labelled op k n => cases hd

end Machine

namespace Program

open Entry Statement

variable {l : Limits} {text : Source} {p : Program} {rest : List UInt8}

/-- Two parts that take no address twice do not meet. -/
theorem meet_of_nodup {bytes : List UInt8} (hd : (addresses (layout bytes)).Nodup) :
    addresses (mainLayout bytes) = [] ∨ (addresses (startupLayout bytes)).length ≤ mainStart := by
  rw [layout, addresses_append_list] at hd
  have hdis := List.disjoint_of_nodup_append hd
  rw [mainLayout, startupLayout, addresses_number, addresses_number] at hdis ⊢
  by_contra hmeet
  rw [not_or, List.range'_eq_nil_iff, List.length_range'] at hmeet
  exact hdis (a := mainStart) (List.mem_range'_1.2 (by omega)) (List.mem_range'_1.2 (by omega))

/-- The text after the blank of a line is its statement. -/
theorem parse_of_statement? {e : Entry} {st : Statement} {line : LineText} (h : e.statement? = some st)
    (htext : e.text = ' ' :: line) : parse line = .ok st := by
  have hcontent : e.content? = some (.instruction st) := by
    unfold Entry.statement? at h
    split at h
    · rename_i hc
      cases h
      exact hc
    · cases h
  rw [content?, htext] at hcontent
  simp only [Line.read] at hcontent
  cases hparse : parse line with
  | ok st' =>
    rw [hparse] at hcontent
    cases hcontent
    rfl
  | error f =>
    rw [hparse] at hcontent
    cases hcontent

/-- The constants of a text are those of the lines before, the one of the line, and those of the lines
behind. -/
theorem constants_split {before after : List Entry} {e : Entry} {st : Statement} {c : Constant}
    (hst : e.statement? = some st) (hc : st.constant? = some c) :
    constants (before ++ e :: after) = constants before ++ [c] ++ constants after := by
  have hcontent : e.content?.bind (·.constant?) = some c := by
    unfold Entry.statement? at hst
    split at hst
    · rename_i hx
      cases hst
      rw [hx]
      exact hc
    · cases hst
  have hcons : constants (e :: after) = c :: constants after := List.filterMap_cons_some hcontent
  rw [constants, List.filterMap_append, ← constants, ← constants, hcons, List.append_assoc,
    List.singleton_append]

/-- A constant that was entered is found in any machine that has left the pools alone. -/
theorem finds_of_holds {before more : List Constant} {c : Constant} {m : Machine}
    (h : p.store.Holds l (before ++ [c] ++ more)) (hsize : p.store.cells.size < 0x8000000000000000)
    (hm : m.Ready l p) : m.Finds l before c := by
  have hhigh : l.stackSize < c.firstCell l before :=
    (l.stackSize_lt_poolStart _).trans_le (Nat.le_add_right _ _)
  have hcells : ∀ i (hi : i < c.cells.length),
      m.store.cells[c.firstCell l before + i]? = some c.cells[i] := by
    intro i hi
    have hread := h.read_eq hi
    unfold Store.read at hread
    rw [hm.pools _ (by omega)]
    split at hread
    · rename_i d hd
      cases hread
      exact hd
    · cases hread
  refine ⟨hcells, ?_⟩
  by_cases hpool : c.pool = .multiple
  · -- there may be no character data at all, and then the address is that of the end of the pool
    have hgrows := (Constant.tableCells_grows .multiple before ([c] ++ more)).length_le
    have hroom := h.room .multiple
    have hregion := h.region_le .multiple
    rw [List.append_assoc] at hroom
    rw [Constant.address, Constant.firstCell, if_pos hpool, hpool,
      show Constant.width .multiple - 1 = 0 from rfl]
    omega
  · have hlength := Constant.length_cells hpool
    have hwidth : 0 < Constant.width c.pool := by cases c.pool <;> decide
    have hlast := hcells (Constant.width c.pool - 1) (by omega)
    have hlt := (Array.getElem?_eq_some_iff.1 hlast).1
    rw [hm.size] at hlt
    exact hlt.trans hsize

/-- **Constants mean what their lines say.** In a program that takes no address twice, a line with one
of the three mnemonics names one constant, and the machine that comes to its address does what the
line demands. The demand is a matter of the line alone; where the constant was put, and what other
constants there are, is not. Addresses are words of 64 bits, so neither the code nor the store has more
than `2 ^ 63` entries. -/
theorem constants_mean (l : Limits) (text : Source) (p : Program) (rest : List UInt8)
    (h : load l text = .ok (p, rest)) (hd : (addresses (layout text.bytes)).Nodup)
    (hcode : min l.codeSize (mainStart + text.bytes.length) ≤ 0x8000000000000000)
    (hstore : p.store.size < 0x8000000000000000) (e : Entry) (he : e ∈ layout text.bytes)
    (line t : LineText) (htext : e.text = ' ' :: line) (name : String)
    (hname : Lexeme.name line = .ok name t) (hn : name ∈ ["LDC", "LCA", "CHK"]) :
    ∃ d, (∀ d', Names line d' ↔ d' = d) ∧ ∀ m : Machine, m.Ready l p → m.pc = e.address → m.Meets d := by
  obtain ⟨s, hs, rfl⟩ := load_induction (Assembly.survives_follows (apart_layout (meet_of_nodup hd) hcode))
    (fun _ => ⟨Assembly.follows_start l, by simp [addresses]⟩) h
  obtain ⟨hfol, -⟩ := hs List.prefix_rfl
  obtain ⟨st, hst⟩ := statement?_of_load h he (by simp [isInstruction, htext])
  have hparse := parse_of_statement? hst htext
  obtain ⟨d, hd, hdemand⟩ := names_of_parse hname hn hparse
  refine ⟨d, fun d' => ⟨fun hd' => ?_, fun hd' => hd' ▸ hd⟩, ?_⟩
  · obtain ⟨st', hst', hdemand'⟩ := hd'.parse
    rw [hparse] at hst'
    cases hst'
    rw [hdemand] at hdemand'
    exact (Option.some.inj hdemand').symm
  · intro m hm hpc
    obtain ⟨before, after, hsplit⟩ := List.append_of_mem he
    have hi := hfol.code before e after st hsplit hst
    rw [← hpc, show s.code = m.code from hm.code.symm] at hi
    have hlimit : l.stackSize < s.store.cells.size := by
      have := hfol.store.region_le .integer
      have := l.stackSize_lt_poolStart .integer
      omega
    refine hm.meets hlimit hstore hi (fun c hc => ?_) hdemand
    have hheld := hfol.store
    rw [hsplit, constants_split hst hc] at hheld
    exact finds_of_holds (p := ⟨s.code, s.store⟩) hheld hstore hm

/-- A startup part that loads a set, the address of a string and an integer from their pools. -/
def pooledText : List Char := "\n LDC (2,1,2)\n LCA 'AB'\n LDC I 600000\n STP\n".toList

/-- Limits with room for the three constants. -/
def pooledLimits : Limits :=
  { stackSize := 8, pools := { integer := 1, set := 1, multiple := 2 }, codeSize := 8, maxLabel := 0 }

/-- The machine that comes to an address of a program with nothing on its stack. -/
def atPc (p : Program) (files : Files) (pc : Nat) : Machine :=
  { pc, mp := 0, sp := -1, np := 9, code := p.code, store := p.store, files }

theorem constants_mean_pooledText : ∃ p rest,
    load pooledLimits ⟨Lines.encode pooledText, none⟩ = .ok (p, rest) ∧ ∀ files,
      (∃ s : IntSet, (∀ n, n ∈ s ↔ n = 1 ∨ n = 2) ∧ (p.atPc files 0).Pushes (.set s)) ∧
      (∃ a, (p.atPc files 1).Pushes (.address a) ∧
        ((p.atPc files 1).fetched.pushed (.address a)).store.cells[a]? = some (.int 65) ∧
        ((p.atPc files 1).fetched.pushed (.address a)).store.cells[a + 1]? = some (.int 66)) ∧
      (p.atPc files 2).Pushes (.int 600000) := by
  obtain ⟨⟨p, rest⟩, h⟩ : ∃ x, load pooledLimits ⟨Lines.encode pooledText, none⟩ = .ok x := by
    cases hl : load pooledLimits ⟨Lines.encode pooledText, none⟩ with
    | ok x => exact ⟨x, rfl⟩
    | error f =>
      have hok : (load pooledLimits ⟨Lines.encode pooledText, none⟩).isOk = true := by decide +kernel
      rw [hl] at hok
      cases hok
  have hsize : (load pooledLimits ⟨Lines.encode pooledText, none⟩).toOption.map (·.1.store.size) =
      some 13 := by decide +kernel
  rw [h] at hsize
  have hsize : p.store.size = 13 := Option.some.inj hsize
  have hall := constants_mean pooledLimits ⟨Lines.encode pooledText, none⟩ p rest h
    (by decide +kernel) (by decide +kernel) (by omega)
  have hready : ∀ files pc, (p.atPc files pc).Ready pooledLimits p := fun _ _ =>
    ⟨rfl, rfl, fun _ _ => rfl, Int.le_refl _, by simp [atPc], Nat.le_refl _⟩
  obtain ⟨d₁, hd₁, hset⟩ := hall ⟨2, 0, " LDC (2,1,2)".toList⟩ (by decide +kernel)
    "LDC (2,1,2)".toList " (2,1,2)".toList rfl "LDC" rfl (by decide)
  obtain ⟨d₂, hd₂, hstring⟩ := hall ⟨3, 1, " LCA 'AB'".toList⟩ (by decide +kernel)
    "LCA 'AB'".toList " 'AB'".toList rfl "LCA" rfl (by decide)
  obtain ⟨d₃, hd₃, hinteger⟩ := hall ⟨4, 2, " LDC I 600000".toList⟩ (by decide +kernel)
    "LDC I 600000".toList " I 600000".toList rfl "LDC" rfl (by decide)
  -- what the three lines name, by their characters
  have hlist : Lists "2,1,2".toList [2, 1, 2] := by
    have htext : List.intercalate [','] (([2, 1, 2] : List Word).map fun n => Field.decimal n.toInt) =
        "2,1,2".toList := by decide +kernel
    rw [← htext]
    exact lists_intercalate _
  have hsetNames : Names "LDC (2,1,2)".toList (.value (.set (.ofList [2, 1, 2]))) :=
    .set (t := " (2,1,2)".toList) (v := []) rfl (Lexeme.leads_blank rfl _) hlist
      fun _ => IntSet.mem_ofList
  have hbytes : ['A', 'B'].flatMap String.utf8EncodeChar = [65, 66] := by decide +kernel
  have hstringNames : Names "LCA 'AB'".toList (.bytes (['A', 'B'].flatMap String.utf8EncodeChar)) :=
    .bytes (t := " 'AB'".toList) (v := []) (s := ['A', 'B']) rfl (Lexeme.leads_blank rfl _) (by decide)
  obtain ⟨v, hread⟩ := Action.outcome_eq_ok.1
    (show Lexeme.integer.outcome " 600000".toList = .ok 600000 by decide +kernel)
  have hintegerNames : Names "LDC I 600000".toList (.value (.int 600000)) :=
    .integer (t := " I 600000".toList) (u := " 600000".toList) (k := 'I') rfl (Lexeme.leads_blank rfl _)
      (Or.inl rfl) (Lexeme.integer_eq_ok_iff.1 hread)
  rw [← (hd₁ _).1 hsetNames] at hset
  rw [← (hd₂ _).1 hstringNames, hbytes] at hstring
  rw [← (hd₃ _).1 hintegerNames] at hinteger
  refine ⟨p, rest, h, fun files => ⟨⟨_, fun n => ?_, hset _ (hready files 0) rfl⟩, ?_,
    hinteger _ (hready files 2) rfl⟩⟩
  · rw [IntSet.mem_ofList]
    simp only [List.mem_cons, List.not_mem_nil, or_false]
    constructor
    · rintro (h | h)
      · exact Or.inr h
      · exact h
    · exact Or.inr
  · obtain ⟨a, hpush, hcells⟩ := hstring _ (hready files 1) rfl
    exact ⟨a, hpush, hcells 0 (by decide), hcells 1 (by decide)⟩

end Program

end PMachine
