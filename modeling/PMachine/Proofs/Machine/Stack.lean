import PMachine.Machine.Step
import PMachine.Proofs.Store.Regions

/-!
# Cells and the stack, as instructions use them

What the small actions of the machine do where nothing stands in their way, and how a step is made of
an instruction.

* `Machine.pushed`, `Machine.top?`: the stack with one more cell, and its top cell.
* `Machine.slot?`: the cell at a depth below the top.
* `Machine.push_eq`: a cell goes on the stack if there is room below the heap.
* `Machine.unary_eq`, `Machine.binary_eq`: an operator takes its operands from the top and leaves its
  result there.
* `Machine.step_of_ok`, `Machine.step_of_error`: a step is its instruction, one address further.
* `Machine.Gives`, `Machine.Refuses`: what comes of an instruction on two operands.
-/

namespace PMachine.Machine

variable {m m' : Machine} {a : Nat} {c : Cell}

/-- The machine past its next instruction, which is not yet performed. -/
def fetched (m : Machine) : Machine := { m with pc := m.pc + 1 }

/-- The machine with one more cell on its stack. -/
def pushed (m : Machine) (c : Cell) : Machine :=
  { m with
    sp := m.sp + 1
    store := { m.store with cells := m.store.cells.setIfInBounds (m.sp + 1).toNat c } }

/-- The top cell of the stack. -/
def top? (m : Machine) : Option Cell := if 0 ≤ m.sp then m.store.cells[m.sp.toNat]? else none

/-- The cell `depth` below the top of the stack. -/
def slot? (m : Machine) (depth : Nat) : Option Cell :=
  if (depth : Int) ≤ m.sp then m.store.cells[(m.sp - depth).toNat]? else none

/-- The machine with its top cell taken off. -/
def popped (m : Machine) : Machine := { m with sp := m.sp - 1 }

/-- The machine with its top cell replaced. -/
def replaced (m : Machine) (c : Cell) : Machine :=
  { m with store := { m.store with cells := m.store.cells.setIfInBounds m.sp.toNat c } }

/-- A cell of the store is read. -/
theorem read_eq (h : m.store.cells[a]? = some c) : read a m = .ok c m := by
  rw [read, Action.bind_of_ok (Action.get_apply m), Store.read, h]
  rfl

theorem read_error (h : m.store.cells[a]? = none) : read a m = .error .addressOutOfStore m := by
  rw [read, Action.bind_of_ok (Action.get_apply m), Store.read, h]
  rfl

/-- A cell of the store is written, and nothing else changes. -/
theorem write_eq (h : a < m.store.cells.size) (c : Cell) :
    write a c m =
      .ok () { m with store := { m.store with cells := m.store.cells.setIfInBounds a c } } := by
  unfold write onStore
  rw [Action.zoom_of_ok (Store.write_of_lt h c)]

/-- A cell that is not in the store is not written. -/
theorem write_error (h : m.store.cells.size ≤ a) (c : Cell) :
    write a c m = .error .addressOutOfStore m := by
  unfold write onStore
  rw [Action.zoom_of_error (Store.write_of_le h c)]

/-- A place that the stack reaches is counted down from the top. -/
theorem below_eq {depth : Nat} (h : (depth : Int) ≤ m.sp) :
    below depth m = .ok (m.sp - depth).toNat m := by
  rw [below, Action.bind_of_ok (Action.get_apply m), if_pos (by omega)]
  rfl

/-- A place below the bottom is an underflow. -/
theorem below_error {depth : Nat} (h : m.sp < depth) : below depth m = .error .stackUnderflow m := by
  rw [below, Action.bind_of_ok (Action.get_apply m), if_neg (by omega)]
  rfl

theorem slot?_zero (m : Machine) : m.slot? 0 = m.top? := by
  simp [slot?, top?]

/-- A cell of the stack is seen at its depth. -/
theorem peek_eq {depth : Nat} (h : m.slot? depth = some c) : peek depth m = .ok c m := by
  unfold slot? at h
  split at h
  · rename_i hdepth
    rw [peek, Action.bind_of_ok (below_eq hdepth), read_eq h]
  · cases h

/-- Where there is no cell nothing is seen, for whatever reason. -/
theorem peek_error {depth : Nat} (h : m.slot? depth = none) : ∃ f, peek depth m = .error f m := by
  unfold slot? at h
  split at h
  · rename_i hdepth
    refine ⟨.addressOutOfStore, ?_⟩
    rw [peek, Action.bind_of_ok (below_eq hdepth), read_error h]
  · refine ⟨.stackUnderflow, ?_⟩
    rw [peek, Action.bind_of_error (below_error (by omega))]

/-- What is seen is the cell, and looking changes nothing. -/
theorem peek_ok {depth : Nat} (h : peek depth m = .ok c m') : m.slot? depth = some c ∧ m' = m := by
  cases hslot : m.slot? depth with
  | none =>
    obtain ⟨f, hf⟩ := peek_error hslot
    rw [hf] at h
    cases h
  | some d =>
    rw [peek_eq hslot] at h
    cases h
    exact ⟨rfl, rfl⟩

theorem peek_zero_eq (h : m.top? = some c) : peek 0 m = .ok c m :=
  peek_eq ((slot?_zero m).trans h)

theorem peek_zero_error (h : m.top? = none) : ∃ f, peek 0 m = .error f m :=
  peek_error ((slot?_zero m).trans h)

/-- The top cell is taken, and stays in the store. -/
theorem pop_eq (h : m.top? = some c) : pop m = .ok c m.popped := by
  rw [pop, Action.bind_of_ok (peek_zero_eq h)]
  rfl

/-- An integer on the stack is seen. -/
theorem peekInt_eq {n : Word} {depth : Nat} (h : m.slot? depth = some (.int n)) :
    peekInt depth m = .ok n m := by
  rw [peekInt, Action.bind_of_ok (peek_eq h)]
  rfl

/-- What is seen as an integer is one. -/
theorem peekInt_ok {n : Word} {depth : Nat} (h : peekInt depth m = .ok n m') :
    m.slot? depth = some (.int n) ∧ m' = m := by
  obtain ⟨c, m₁, hpeek, hint⟩ := Action.bind_eq_ok.1 h
  obtain ⟨hslot, rfl⟩ := peek_ok hpeek
  obtain ⟨hc, rfl⟩ := Action.lift_eq_ok.1 hint
  cases c <;> cases hc
  exact ⟨hslot, rfl⟩

theorem peekAddress_eq {depth : Nat} (hc : m.slot? depth = some c) (ha : c.asAddress = .ok a) :
    peekAddress depth m = .ok a m := by
  rw [peekAddress, Action.bind_of_ok (peek_eq hc), ha, Action.lift_ok]

/-- What is seen as an address is in the cell, and looking changes nothing. -/
theorem peekAddress_ok {depth : Nat} (h : peekAddress depth m = .ok a m') :
    ∃ c, m.slot? depth = some c ∧ c.asAddress = .ok a ∧ m' = m := by
  obtain ⟨c, m₁, hpeek, haddress⟩ := Action.bind_eq_ok.1 h
  obtain ⟨hslot, rfl⟩ := peek_ok hpeek
  obtain ⟨hc, rfl⟩ := Action.lift_eq_ok.1 haddress
  exact ⟨c, hslot, hc, rfl⟩

theorem popAddress_eq (hc : m.top? = some c) (ha : c.asAddress = .ok a) :
    popAddress m = .ok a m.popped := by
  rw [popAddress, Action.bind_of_ok (pop_eq hc), ha, Action.lift_ok]

/-- What is taken as an address was in the top cell. -/
theorem popAddress_ok (h : popAddress m = .ok a m') :
    ∃ c, m.slot? 0 = some c ∧ c.asAddress = .ok a ∧ m' = m.popped := by
  obtain ⟨c, m₁, hpop, haddress⟩ := Action.bind_eq_ok.1 h
  obtain ⟨d, m₂, hpeek, hdrop⟩ := Action.bind_eq_ok.1 hpop
  obtain ⟨hslot, rfl⟩ := peek_ok hpeek
  cases hdrop
  obtain ⟨hc, rfl⟩ := Action.lift_eq_ok.1 haddress
  exact ⟨c, hslot, hc, rfl⟩

/-- The top cell is replaced. -/
theorem setTop_eq (h : m.top? = some c) (d : Cell) : setTop d m = .ok () (m.replaced d) := by
  unfold top? at h
  split at h
  · rename_i hsp
    have hzero : (m.sp - (0 : Nat)).toNat = m.sp.toNat := by omega
    have hlt : m.sp.toNat < m.store.cells.size := (Array.getElem?_eq_some_iff.1 h).1
    rw [setTop, Action.bind_of_ok (below_eq (by omega)), hzero, write_eq hlt]
    rfl
  · cases h

theorem top?_replaced (h : m.top? = some c) (d : Cell) : (m.replaced d).top? = some d := by
  unfold top? at h ⊢
  split at h
  · rename_i hsp
    have hlt : m.sp.toNat < m.store.cells.size := (Array.getElem?_eq_some_iff.1 h).1
    have htop : (m.store.cells.setIfInBounds m.sp.toNat d)[m.sp.toNat]? = some d :=
      Array.getElem?_setIfInBounds_self_of_lt hlt
    exact (if_pos hsp).trans htop
  · cases h

/-- An address at an offset is found if it is one below `2 ^ 63`. -/
theorem offset_eq {base : Nat} {d : Int} (hbase : base < 0x8000000000000000) (hlow : 0 ≤ base + d)
    (hhigh : base + d < 0x8000000000000000) : offset base d m = .ok (base + d).toNat m := by
  rw [offset, Address.offset?, Address.signed_of_lt hbase, if_pos ⟨hlow, hhigh⟩]
  rfl

/-- An address below `2 ^ 63` can be an operand. -/
theorem operand_toWord (h : a < 0x8000000000000000) : operand (Address.toWord a) m = .ok a m := by
  have hword : (Address.toWord a).toInt = a := Address.signed_of_lt h
  rw [operand, hword, offset_eq (by omega) (by omega) (by omega)]
  congr 1
  omega

/-- A cell is pushed if the stack stays below the heap. -/
theorem push_eq (hlow : -1 ≤ m.sp) (hroom : m.sp + 1 < m.np) (hheap : m.np ≤ m.store.cells.size)
    (hsize : m.store.cells.size ≤ 0x8000000000000000) (c : Cell) :
    push c m = .ok () (m.pushed c) := by
  have haddress : Address.ofSigned (m.sp + 1) = (m.sp + 1).toNat := by
    unfold Address.ofSigned
    omega
  rw [push, Action.bind_of_ok (Action.get_apply m)]
  simp only [haddress]
  rw [if_neg (by omega), Action.bind_of_ok (Action.modify_apply _ m), write_eq (by simp only; omega)]
  rfl

/-- The next instruction is fetched, and the program counter stands behind it. -/
theorem fetch_eq {i : Instruction} (h : m.code[m.pc]? = some i) : fetch m = .ok i m.fetched := by
  rw [fetch, Action.bind_of_ok (Action.get_apply m), h]
  rfl

/-- A step succeeds as its instruction does. -/
theorem step_of_ok {i : Instruction} (hi : m.code[m.pc]? = some i)
    (h : perform i m.fetched = .ok () m') : step m = .ok (i.op ≠ .stp) m' := by
  rw [step, Action.bind_of_ok (fetch_eq hi), Action.bind_of_ok h]
  rfl

/-- A step fails as its instruction does. -/
theorem step_of_error {i : Instruction} {f : Fault} (hi : m.code[m.pc]? = some i)
    (h : perform i m.fetched = .error f m') : step m = .error f m' := by
  rw [step, Action.bind_of_ok (fetch_eq hi), Action.bind_of_error h]

/-! ### Operators -/

variable {d : Cell} {f : Fault}

/-- An operator replaces the top cell by its result. -/
theorem unary_eq {g : Cell → Except Fault Cell} (htop : m.top? = some c) (h : g c = .ok d) :
    unary g m = .ok () (m.replaced d) := by
  rw [unary, Action.bind_of_ok (peek_zero_eq htop), h, Action.bind_of_ok (Action.lift_ok d m),
    setTop_eq htop]

/-- An operator that fails on the top cell leaves it. -/
theorem unary_error {g : Cell → Except Fault Cell} (htop : m.top? = some c) (h : g c = .error f) :
    unary g m = .error f m := by
  rw [unary, Action.bind_of_ok (peek_zero_eq htop), h, Action.bind_of_error (Action.lift_error f m)]

variable {g : Cell → Cell → Except Fault Cell} {left right : Cell}

/-- An operator replaces the two top cells by its result. -/
theorem binary_eq (hright : m.top? = some right) (hleft : m.popped.top? = some left)
    (h : g left right = .ok d) : binary g m = .ok () (m.popped.replaced d) := by
  rw [binary, Action.bind_of_ok (pop_eq hright), Action.bind_of_ok (peek_zero_eq hleft), h,
    Action.bind_of_ok (Action.lift_ok d m.popped), setTop_eq hleft]

/-- An operator that fails on the two top cells has taken the upper one. -/
theorem binary_error (hright : m.top? = some right) (hleft : m.popped.top? = some left)
    (h : g left right = .error f) : binary g m = .error f m.popped := by
  rw [binary, Action.bind_of_ok (pop_eq hright), Action.bind_of_ok (peek_zero_eq hleft), h,
    Action.bind_of_error (Action.lift_error f m.popped)]

/-- A comparison of two cells is an operator. -/
theorem compare_eq (r : Relation) {p : Nat} (hp : p ≠ Instruction.multiple) (q : Word)
    (hright : m.top? = some right) (hleft : m.popped.top? = some left) :
    compare r p q m = binary (fun c d => (Cell.relates r c d).map .bool) m := by
  rw [compare, binary, Action.bind_of_ok (pop_eq hright), Action.bind_of_ok (pop_eq hright),
    Action.bind_of_ok (peek_zero_eq hleft), Action.bind_of_ok (peek_zero_eq hleft)]
  unfold relates
  rw [if_neg hp]
  cases Cell.relates r left right <;> rfl

/-- The two top cells of the stack are a left and a right operand. -/
def Operands (m : Machine) (left right : Cell) : Prop :=
  m.top? = some right ∧ m.popped.top? = some left

/-- An instruction puts its result in the place of two operands. -/
def Gives (i : Instruction) (m : Machine) (result : Cell) : Prop :=
  perform i m = .ok () (m.popped.replaced result)

/-- An instruction on two operands fails and leaves all cells as they were. -/
def Refuses (i : Instruction) (m : Machine) : Prop := ∃ f, perform i m = .error f m.popped

/-- An instruction that gives a result does not refuse its operands. -/
theorem Gives.not_refuses {i : Instruction} (h : Gives i m c) : ¬ Refuses i m := by
  rintro ⟨f, hf⟩
  unfold Gives at h
  rw [h] at hf
  cases hf

/-- An instruction gives one result. -/
theorem Gives.unique {i : Instruction} (hops : m.Operands left right) (hc : Gives i m c)
    (hd : Gives i m d) : c = d := by
  unfold Gives at hc hd
  have hsame : m.popped.replaced c = m.popped.replaced d := (EStateM.Result.ok.inj (hc.symm.trans hd)).2
  have htop := top?_replaced hops.2 c
  rw [hsame, top?_replaced hops.2 d] at htop
  exact (Option.some.inj htop).symm

end PMachine.Machine
