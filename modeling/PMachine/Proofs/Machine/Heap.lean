import PMachine.Proofs.Machine.FreshFrame

/-!
# The heap

The heap grows down from the end of the stack region, toward the stack. A block is taken from its lower
end, and blocks are given back all at once: the end of the heap is saved in a cell and later set to what
this cell holds.

* `Machine.HasHeap`: the heap is in the store.
* `Machine.Takes`: a block is taken.
* `Machine.np_after_le`: only a restore gives blocks back.
* `Machine.Saves`, `Machine.Restores`: the end of the heap is saved, and restored from a cell.
* `Machine.Nests`: a run in which every restore belongs to a save before it.
* `Machine.heap_disciplined`: blocks that are taken do not meet, and restoring gives back what was saved.
-/

namespace PMachine

/-- Whether an entry of the record leaves the cell at an address alone. -/
def Effect.spares (a : Nat) : Effect → Bool
  | .write _ b => b ≠ a
  | .result _ _ => true

namespace Machine

open PMachine.Action (Keeps Raises bind_eq_ok)

variable {m m' : Machine} {n : Word} {c : Cell} {a : Nat}

/-- The heap ends with the stack region, all of which is in the store. -/
structure HasHeap (m : Machine) : Prop where
  np : m.np ≤ m.store.limits.stackSize + 1
  region : m.store.limits.stackSize < m.store.cells.size
  size : m.store.cells.size < 0x8000000000000000

/-- A block of `n` cells is taken from the heap, and its address is stored at `a`. -/
structure Takes (n a : Nat) (m m' : Machine) : Prop where
  np : m'.np + n = m.np
  above : m.sp < m'.np
  sp : m'.sp = m.sp - 2
  pointer : m'.store.cells[a]? = some (.address m'.np)
  cells : ∀ b, b ≠ a →
    m'.store.cells[b]? = if m'.np ≤ b ∧ b < m.np then some .undefined else m.store.cells[b]?

/-- The cells that the step `k` of a run takes from the heap. -/
def taken (m : Machine) (k : Nat) : Finset Nat := .Ico (step.after^[k + 1] m).np (step.after^[k] m).np

/-! ### Taking a block -/

/-- What follows once the size of a block is known to fit. -/
def takeBlock (size heap : Nat) : Action Machine Unit := do
  let pointer ← peekAddress 1
  clear size heap
  modify fun m => { m with np := heap }
  write pointer (.address heap)
  drop 2

/-- There is room for a block between the stack and the heap. -/
def HasRoom (m : Machine) (size : Nat) : Prop := size ≤ m.np ∧ m.sp < Address.signed (m.np - size)

/-- Where there is room a block is taken from below the heap. -/
theorem allocate_of_room (h : m.slot? 0 = some (.int n)) (hroom : m.HasRoom n.count) :
    allocate m = takeBlock n.count (m.np - n.count) m := by
  rw [allocate, Action.bind_of_ok (peekInt_eq h)]
  exact congrFun (if_pos hroom) m

/-- Where there is no room a block is refused. -/
theorem allocate_of_full (h : m.slot? 0 = some (.int n)) (hfull : ¬ m.HasRoom n.count) :
    allocate m = .error .storeOverflow m := by
  rw [allocate, Action.bind_of_ok (peekInt_eq h)]
  exact congrFun (if_neg hfull) m

/-- A block that is allocated had room and was taken. -/
theorem allocate_ok (h : allocate m = .ok () m') : ∃ n, m.slot? 0 = some (.int n) ∧ m.HasRoom n.count ∧
    takeBlock n.count (m.np - n.count) m = .ok () m' := by
  obtain ⟨n, m₀, hsize, -⟩ := bind_eq_ok.1 h
  obtain ⟨hn, -⟩ := peekInt_ok hsize
  by_cases hroom : m.HasRoom n.count
  · exact ⟨n, hn, hroom, (allocate_of_room hn hroom).symm.trans h⟩
  · rw [allocate_of_full hn hroom] at h
    cases h

/-- A block that is taken lies at the new end of the heap, cleared but for the cell of its pointer, which
holds its address. All other cells are as before. -/
theorem takeBlock_ok {size heap : Nat} (hsize : heap + size = m.np) (h : takeBlock size heap m = .ok () m') :
    ∃ c a, m.slot? 1 = some c ∧ c.asAddress = .ok a ∧ m'.np = heap ∧ m'.sp = m.sp - 2 ∧
      m'.store.cells[a]? = some (.address heap) ∧ ∀ b, b ≠ a →
        m'.store.cells[b]? = if heap ≤ b ∧ b < m.np then some .undefined else m.store.cells[b]? := by
  obtain ⟨a, m₀, hpointer, hrest⟩ := bind_eq_ok.1 h
  obtain ⟨c, hslot, hc, rfl⟩ := peekAddress_ok hpointer
  obtain ⟨_, m₁, hclear, hlower⟩ := bind_eq_ok.1 hrest
  obtain ⟨cells, rfl, hcells⟩ := clear_ok hclear
  obtain ⟨_, m₂, hnp, hstore⟩ := bind_eq_ok.1 hlower
  cases hnp
  obtain ⟨_, m₃, hwrite, hdrop⟩ := bind_eq_ok.1 hstore
  obtain ⟨hlt, rfl⟩ := write_ok hwrite
  cases hdrop
  refine ⟨c, a, hslot, hc, rfl, rfl, Array.getElem?_setIfInBounds_self_of_lt hlt, fun b hb => ?_⟩
  rw [← hsize, ← hcells b]
  exact Array.getElem?_setIfInBounds_ne (Ne.symm hb)

/-- A block in the store can be taken if its pointer is in the store too. -/
theorem takeBlock_total {size heap : Nat} (hslot : m.slot? 1 = some c) (hc : c.asAddress = .ok a)
    (ha : a < m.store.cells.size) (hsize : heap + size ≤ m.store.cells.size) :
    ∃ m', takeBlock size heap m = .ok () m' := by
  obtain ⟨m₁, hclear⟩ := clear_total (n := size) (a := heap) (m := m) fun _ => hsize
  obtain ⟨cells, rfl, hcells⟩ := clear_ok hclear
  have hlt : a < cells.size := by
    have hin := hcells a
    by_contra hout
    rw [Array.getElem?_eq_none (Nat.not_lt.1 hout)] at hin
    split at hin
    · cases hin
    · rw [Array.getElem?_eq_getElem ha] at hin
      cases hin
  have hwrite := write_eq (m := { m with np := heap, store := { m.store with cells } }) hlt (.address heap)
  exact ⟨_, (Action.bind_of_ok (peekAddress_eq hslot hc)).trans <| (Action.bind_of_ok hclear).trans <|
    Action.bind_of_ok hwrite⟩

/-- None of the actions that take a block reports a full store: that is done before, where room is looked
for. -/
theorem below_raises (depth : Nat) : Raises (·.kind ≠ .storeOverflow) (below depth) :=
  .bind .get fun _ => .ite (.pure _) (.throw (by decide))

theorem read_raises (a : Nat) : Raises (·.kind ≠ .storeOverflow) (read a) := by
  refine .bind .get fun m => .lift fun f hf => ?_
  unfold Store.read at hf
  split at hf
  · cases hf
  · cases hf
    decide

theorem peekAddress_raises (depth : Nat) : Raises (·.kind ≠ .storeOverflow) (peekAddress depth) := by
  refine .bind (.bind (below_raises depth) fun a => read_raises a) fun c => .lift fun f hf => ?_
  cases c with
  | int n =>
    dsimp only [Cell.asAddress] at hf
    cases ha : n.toAddress? with
    | some a =>
      rw [ha] at hf
      cases hf
    | none =>
      rw [ha] at hf
      rw [← Except.error.inj hf]
      decide
  | address _ | mark _ => cases hf
  | undefined | real _ | bool _ | set _ =>
    rw [← Except.error.inj hf]
    decide

theorem write_raises (a : Nat) (c : Cell) : Raises (·.kind ≠ .storeOverflow) (write a c) := by
  intro m f m' h
  rcases Nat.lt_or_ge a m.store.cells.size with ha | ha
  · rw [write_eq ha] at h
    cases h
  · rw [write_error ha] at h
    cases h
    decide

theorem clear_raises (size : Nat) : ∀ heap, Raises (·.kind ≠ .storeOverflow) (clear size heap) := by
  induction size with
  | zero => exact fun _ => .pure _
  | succ size ih => exact fun heap => .bind (write_raises heap _) fun _ => ih _

/-- The only overflow is that of the room between the stack and the heap. -/
theorem takeBlock_raises (size heap : Nat) : Raises (·.kind ≠ .storeOverflow) (takeBlock size heap) :=
  .bind (peekAddress_raises 1) fun _ => .bind (clear_raises size heap) fun _ =>
    .bind (.modifyGet _) fun _ => .bind (write_raises _ _) fun _ => .modifyGet _

/-- A block that is asked for is taken, or else there is no room for it. -/
theorem step_takes (hm : m.HasHeap) (hcalled : m.called? = some .new) {b : Bool} (h : step m = .ok b m') :
    ∃ n c a, m.slot? 0 = some (.int n) ∧ m.slot? 1 = some c ∧ c.asAddress = .ok a ∧
      Takes n.count a m m' := by
  obtain ⟨n, hn, hroom, hrun⟩ := allocate_ok (m := m.fetched) (standard_of_step hcalled h)
  have hle : n.count ≤ m.np := hroom.1
  have habove : m.sp < Address.signed (m.np - n.count) := hroom.2
  obtain ⟨c, a, hslot, hc, hnp, hsp, hpointer, hcells⟩ :=
    takeBlock_ok (m := m.fetched) (Nat.sub_add_cancel hle) hrun
  have hsmall : m.np - n.count < 0x8000000000000000 := by
    have := hm.np
    have := hm.region
    have := hm.size
    omega
  have hheap : m'.np = m.np - n.count := hnp
  rw [Address.signed_of_lt hsmall, ← hheap] at habove
  rw [← hnp] at hpointer hcells
  exact ⟨n, c, a, hn, hslot, hc, by omega, habove, hsp, hpointer, hcells⟩

/-- There is room for a block that ends above the stack. -/
theorem hasRoom_iff (hm : m.HasHeap) (hslot : m.slot? 0 = some c) (size : Nat) :
    m.HasRoom size ↔ m.sp < (m.np : Int) - size := by
  have hnp := hm.np
  have hregion := hm.region
  have hsize := hm.size
  have hsp : 0 ≤ m.sp := by
    unfold slot? at hslot
    split at hslot
    · omega
    · cases hslot
  unfold HasRoom
  by_cases hle : size ≤ m.np
  · rw [Address.signed_of_lt (by omega)]
    omega
  · omega

/-- The step fails for lack of room just if the block would reach the stack, and then nothing happens. -/
theorem step_full_iff (hm : m.HasHeap) (hcalled : m.called? = some .new) (hn : m.slot? 0 = some (.int n)) :
    ((∃ m', step m = .error .storeOverflow m') ↔ (m.np : Int) - n.count ≤ m.sp) ∧
      ∀ m', step m = .error .storeOverflow m' → m' = m.fetched := by
  have hiff : m.fetched.HasRoom n.count ↔ m.sp < (m.np : Int) - n.count := hasRoom_iff hm hn n.count
  by_cases hroom : m.fetched.HasRoom n.count
  · -- the rest of the call may fail, but for other reasons
    have hnever : ∀ m', step m ≠ .error .storeOverflow m' := fun m' h => by
      have hrun : allocate m.fetched = .error .storeOverflow m' := standard_of_step_error hcalled h
      rw [allocate_of_room (m := m.fetched) hn hroom] at hrun
      exact takeBlock_raises _ _ _ _ _ hrun rfl
    refine ⟨⟨fun ⟨m', h⟩ => absurd h (hnever m'), fun hfull => ?_⟩, fun m' h => absurd h (hnever m')⟩
    have := hiff.1 hroom
    omega
  · have hstep := step_called_error hcalled (allocate_of_full hn hroom)
    have hfull : (m.np : Int) - n.count ≤ m.sp := Int.not_lt.1 (mt hiff.2 hroom)
    refine ⟨⟨fun _ => hfull, fun _ => ⟨_, hstep⟩⟩, fun m' h => ?_⟩
    rw [hstep] at h
    cases h
    rfl

/-- A block for which there is room is taken. -/
theorem step_take_total (hm : m.HasHeap) (hcalled : m.called? = some .new) (hn : m.slot? 0 = some (.int n))
    (hslot : m.slot? 1 = some c) (hc : c.asAddress = .ok a) (ha : a < m.store.cells.size)
    (hroom : m.sp < (m.np : Int) - n.count) : ∃ m', step m = .ok true m' := by
  have hnp := hm.np
  have hregion := hm.region
  have hhas : m.fetched.HasRoom n.count := (hasRoom_iff hm hn n.count).2 hroom
  have hle : n.count ≤ m.np := hhas.1
  obtain ⟨m', hrun⟩ := takeBlock_total (m := m.fetched) hslot hc ha
    (show m.np - n.count + n.count ≤ m.store.cells.size by omega)
  exact ⟨m', step_called_ok hcalled ((allocate_of_room (m := m.fetched) hn hhas).trans hrun)⟩

/-! ### The end of the heap -/

/-- The end of the heap. -/
theorem still_np : Still fun m => m.np where
  moved _ _ _ := rfl
  input _ _ _ := rfl
  cells _ _ _ := rfl

/-- Only two procedures move the end of the heap. -/
theorem np_after_eq (hf : m.called?.any Procedure.movesHeap = false) : (step.after m).np = m.np := by
  refine step_still still_np (fun _ _ => rfl) fun f hcalled => ?_
  refine standard_keeps still_np (fun _ _ _ => rfl) fun hmoves => ?_
  rw [hcalled, Option.any_some, hmoves] at hf
  cases hf

/-- A block is cleared before the end of the heap moves below it. -/
theorem takeBlock_np_le {size heap : Nat} (h : heap ≤ m.np) : ((takeBlock size heap).after m).np ≤ m.np := by
  have hpeek : Keeps (fun m : Machine => m.np) (peekAddress 1) := peekAddress_keeps 1
  unfold takeBlock
  cases hpointer : peekAddress 1 m with
  | error f m₀ =>
    have hsame := hpeek m
    rw [Action.after_of_error hpointer] at hsame
    rw [Action.after_bind_of_error hpointer]
    exact hsame.le
  | ok pointer m₀ =>
    obtain ⟨-, -, -, rfl⟩ := peekAddress_ok hpointer
    rw [Action.after_bind_of_ok hpointer]
    have hclears := clear_keeps still_np size heap m₀
    have hrest : Keeps (fun m => m.np) (write pointer (.address heap) >>= fun _ => drop 2) :=
      .bind (write_keeps still_np _ _) fun _ => drop_keeps still_np 2
    cases hclear : clear size heap m₀ with
    | error f m₁ =>
      rw [Action.after_of_error hclear] at hclears
      rw [Action.after_bind_of_error hclear, hclears]
    | ok u m₁ =>
      rw [Action.after_bind_of_ok hclear, Action.after_bind_of_ok (Action.modify_apply _ m₁)]
      exact (hrest { m₁ with np := heap }).trans_le h

/-- The heap only grows down. -/
theorem allocate_np_le (m : Machine) : (allocate.after m).np ≤ m.np := by
  have hpeek : Keeps (fun m : Machine => m.np) (peekInt 0) := peekInt_keeps 0
  cases hsize : peekInt 0 m with
  | error f m₀ =>
    have hsame := hpeek m
    rw [Action.after_of_error hsize] at hsame
    rw [allocate, Action.after_bind_of_error hsize]
    exact hsame.le
  | ok n m₀ =>
    obtain ⟨hn, rfl⟩ := peekInt_ok hsize
    by_cases hroom : m₀.HasRoom n.count
    · rw [Action.after, allocate_of_room hn hroom, ← Action.after]
      exact takeBlock_np_le (Nat.sub_le _ _)
    · rw [Action.after_of_error (allocate_of_full hn hroom)]

/-- **Only a restore moves the end of the heap up**, also where a step fails. -/
theorem np_after_le (hrst : m.called? ≠ some .rst) : (step.after m).np ≤ m.np := by
  by_cases hnew : m.called? = some .new
  · have hle : (allocate.after m.fetched).np ≤ m.np := allocate_np_le m.fetched
    cases hrun : allocate m.fetched with
    | ok u m₁ =>
      rw [Action.after_of_ok hrun] at hle
      rwa [Action.after_of_ok (step_called_ok hnew hrun)]
    | error f m₁ =>
      rw [Action.after_of_error hrun] at hle
      rwa [Action.after_of_error (step_called_error hnew hrun)]
  · refine Nat.le_of_eq (np_after_eq ?_)
    cases hcalled : m.called? with
    | none => rfl
    | some f => cases f <;> first | rfl | contradiction

/-- The limits and the number of cells. -/
theorem fixed_limits : Fixed fun m => (m.store.limits, m.store.cells.size) where
  registers _ _ _ _ := rfl
  files _ _ := rfl
  cells m cells h := by simp only [h]
  frame _ _ := rfl

/-- A heap is still one after a step that releases none of it. -/
theorem HasHeap.after (hm : m.HasHeap) (hrst : m.called? ≠ some .rst) : (step.after m).HasHeap := by
  have hview : (_, _) = (_, _) := step_keeps fixed_limits m
  obtain ⟨hlimits, hsize⟩ := Prod.mk.inj hview
  refine ⟨?_, ?_, ?_⟩
  · rw [hlimits]
    exact (np_after_le hrst).trans hm.np
  · rw [hlimits, hsize]
    exact hm.region
  · rw [hsize]
    exact hm.size

section Run

variable {N : Nat} (hrst : ∀ k < N, (step.after^[k] m).called? ≠ some .rst)

include hrst

/-- A heap is still one after a run that releases none of it. -/
theorem HasHeap.run (hm : m.HasHeap) {k : Nat} (hk : k ≤ N) : (step.after^[k] m).HasHeap := by
  induction k with
  | zero => exact hm
  | succ k ih =>
    rw [Function.iterate_succ_apply']
    exact (ih (by omega)).after (hrst k (by omega))

/-- In a run that releases nothing the heap only grows down. -/
theorem np_run_le {i j : Nat} (hij : i ≤ j) (hj : j ≤ N) : (step.after^[j] m).np ≤ (step.after^[i] m).np := by
  induction j, hij using Nat.le_induction with
  | base => exact Nat.le_refl _
  | succ j hij ih =>
    rw [Function.iterate_succ_apply']
    exact (np_after_le (hrst j (by omega))).trans (ih (by omega))

/-- Blocks that are taken one after the other do not meet. -/
theorem taken_disjoint {i j : Nat} (hij : i < j) (hj : j < N) : Disjoint (m.taken i) (m.taken j) := by
  have hle := np_run_le hrst (Nat.succ_le_of_lt hij) hj.le
  rw [Finset.disjoint_left]
  intro a hi hj
  rw [taken, Finset.mem_Ico] at hi hj
  exact absurd hj.2 (Nat.not_lt.2 (hle.trans hi.1))

end Run

/-! ### Saving and restoring -/

/-- The next step saves the end of the heap in the cell at an address. -/
structure Saves (a : Nat) (m : Machine) : Prop where
  called : m.called? = some .sav
  target : ∃ c, m.slot? 0 = some c ∧ c.asAddress = .ok a
  succeeds : step.outcome m = .ok true

/-- The next step sets the end of the heap to what the cell at an address holds. -/
structure Restores (a : Nat) (m : Machine) : Prop where
  called : m.called? = some .rst
  top : m.slot? 0 = m.store.cells[a]?

/-- Nothing is written to a cell in the next `n` steps. -/
def Unwritten (a n : Nat) (m : Machine) : Prop :=
  ∀ k < n, ∀ o, .write o a ∉ Observed.step.effects (step.after^[k] m)

/-- A cell is not written in a run if no entry of its record writes it. -/
theorem unwritten_iff {n : Nat} : Unwritten a n m ↔
    ∀ k < n, ∀ e ∈ Observed.step.effects (step.after^[k] m), e.spares a = true := by
  refine forall₂_congr fun k _ => ⟨fun h e he => ?_, fun h o he => ?_⟩
  · cases e with
    | result r n => rfl
    | write o b =>
      have hne : b ≠ a := by
        rintro rfl
        exact h o he
      exact decide_eq_true hne
  · exact absurd rfl (of_decide_eq_true (h _ he))

instance (a n : Nat) (m : Machine) : Decidable (Unwritten a n m) := decidable_of_iff _ unwritten_iff.symm

/-- The cell holds the end of the heap that was saved. -/
theorem Saves.cell (h : Saves a m) : (step.after m).store.cells[a]? = some (.address m.np) := by
  obtain ⟨c, hc, ha⟩ := h.target
  obtain ⟨m', hstep⟩ := Action.outcome_eq_ok.1 h.succeeds
  have hrun : standard .sav m.fetched = .ok () m' := standard_of_step h.called hstep
  obtain ⟨b, m₁, hpop, hsave⟩ := bind_eq_ok.1 hrun
  obtain ⟨d, hd, hb, rfl⟩ := popAddress_ok hpop
  obtain rfl : c = d := Option.some.inj (hc.symm.trans hd)
  obtain rfl : a = b := Except.ok.inj (ha.symm.trans hb)
  rw [Action.bind_of_ok (Action.get_apply _)] at hsave
  obtain ⟨hlt, rfl⟩ := write_ok hsave
  rw [Action.after_of_ok hstep]
  exact Array.getElem?_setIfInBounds_self_of_lt hlt

/-- What a cell holds that nothing was written to is restored. -/
theorem Restores.step_eq (h : Restores a m) {np : Nat} (hc : m.store.cells[a]? = some (.address np)) :
    step m = .ok true { m.fetched.popped with np } := by
  have htop : m.fetched.top? = some (.address np) := (slot?_zero m).symm.trans (h.top.trans hc)
  have hpop : popAddress m.fetched = .ok np m.fetched.popped := popAddress_eq htop rfl
  exact step_called_ok h.called (Action.bind_of_ok hpop)

/-- **What was saved is restored**, whatever happens in between that leaves the cell alone. -/
theorem Saves.restored (h : Saves a m) {n : Nat} (hunwritten : Unwritten a n (step.after m))
    (hrestores : Restores a (step.after^[n] (step.after m))) :
    ∃ m', step (step.after^[n] (step.after m)) = .ok true m' ∧ m'.np = m.np :=
  ⟨_, hrestores.step_eq ((cell_of_unwritten n hunwritten).trans h.cell), rfl⟩

/-- A run of `k` steps that takes `n` cells from the heap and does not give them back. Every restore in it
takes what was saved before it in the same run, and what happens between the two is such a run again. -/
inductive Nests : Machine → Nat → Nat → Prop
  | done (m : Machine) : Nests m 0 0
  | other {m : Machine} {n k : Nat} : Nests m n k → (step.after^[k] m).called?.any Procedure.movesHeap = false →
      Nests m n (k + 1)
  | take {m : Machine} {n k : Nat} (size : Word) : Nests m n k → (step.after^[k] m).called? = some .new →
      (step.after^[k] m).slot? 0 = some (.int size) → step.outcome (step.after^[k] m) = .ok true →
      Nests m (n + size.count) (k + 1)
  | restore {m : Machine} {n k inner j a : Nat} : Nests m n k → Saves a (step.after^[k] m) →
      Nests (step.after^[k + 1] m) inner j → Unwritten a j (step.after^[k + 1] m) →
      Restores a (step.after^[j] (step.after^[k + 1] m)) → Nests m n (k + j + 2)

/-- A block that is taken moves the end of the heap by its size. -/
theorem np_after_take {size : Word} (hcalled : m.called? = some .new) (hsize : m.slot? 0 = some (.int size))
    (h : step.outcome m = .ok true) : (step.after m).np + size.count = m.np := by
  obtain ⟨m', hstep⟩ := Action.outcome_eq_ok.1 h
  obtain ⟨n, hn, hroom, hrun⟩ := allocate_ok (m := m.fetched) (standard_of_step hcalled hstep)
  obtain rfl : size = n := Cell.int.inj (Option.some.inj (hsize.symm.trans hn))
  have hle : size.count ≤ m.np := hroom.1
  obtain ⟨-, -, -, -, hnp, -⟩ := takeBlock_ok (m := m.fetched) (Nat.sub_add_cancel hle) hrun
  rw [Action.after_of_ok hstep, hnp]
  exact Nat.sub_add_cancel hle

/-- **A run with nested pairs of saves and restores** lowers the heap by what it took outside of them. -/
theorem Nests.np {n k : Nat} (h : Nests m n k) : (step.after^[k] m).np + n = m.np := by
  -- a pair sets the end of the heap back, so only what comes before it counts
  induction h with
  | done => rfl
  | other _ hf ih => rw [Function.iterate_succ_apply', np_after_eq hf, ih]
  | take _ _ hcalled hsize hsucceeds ih =>
    have htaken := np_after_take hcalled hsize hsucceeds
    rw [Function.iterate_succ_apply']
    omega
  | @restore m n k inner j a _ hsaves _ hunwritten hrestores ih =>
    rw [Function.iterate_succ_apply'] at hunwritten hrestores
    obtain ⟨m', hrestored, hnp⟩ := hsaves.restored hunwritten hrestores
    have hsteps : step.after^[k + j + 2] m = step.after (step.after^[j] (step.after (step.after^[k] m))) := by
      rw [← Function.iterate_succ_apply' step.after k, ← Function.iterate_add_apply,
        ← Function.iterate_succ_apply' step.after]
      congr 1
      omega
    rw [hsteps, Action.after_of_ok hrestored, hnp, ih]

/-- What comes of asking for a block: it is taken, or it would reach the stack and nothing happens. There is
no other reason why it is not taken than an operand that is not there or not in the store. -/
structure Allots (m : Machine) : Prop where
  takes : ∀ b m', step m = .ok b m' → ∃ n c a, m.slot? 0 = some (.int n) ∧ m.slot? 1 = some c ∧
    c.asAddress = .ok a ∧ Takes n.count a m m'
  overflows : ∀ n, m.slot? 0 = some (.int n) →
    ((∃ m', step m = .error .storeOverflow m') ↔ (m.np : Int) - n.count ≤ m.sp) ∧
      ∀ m', step m = .error .storeOverflow m' → m' = m.fetched
  total : ∀ n c a, m.slot? 0 = some (.int n) → m.slot? 1 = some c → c.asAddress = .ok a →
    a < m.store.cells.size → m.sp < (m.np : Int) - n.count → ∃ m', step m = .ok true m'

/-- With a heap, asking for a block comes to this. -/
theorem HasHeap.allots (hm : m.HasHeap) (hcalled : m.called? = some .new) : m.Allots where
  takes _ _ h := step_takes hm hcalled h
  overflows _ hn := step_full_iff hm hcalled hn
  total _ _ _ hn hslot hc ha hroom := step_take_total hm hcalled hn hslot hc ha hroom

/-- **The discipline of the heap.** In a run without a restore every block that is asked for is taken from
below the heap and above the stack, or it would reach the stack and nothing happens; the blocks do not meet.
A restore from a cell in which the end of the heap was saved sets it to what it was then, as long as nothing
was written to the cell. So a run with nested pairs of saves and restores takes what it takes outside of them. -/
theorem heap_disciplined (m : Machine) (hm : m.HasHeap) (N : Nat)
    (hrst : ∀ k < N, (step.after^[k] m).called? ≠ some .rst) :
    (∀ k < N, (step.after^[k] m).called? = some .new → (step.after^[k] m).Allots) ∧
    (∀ i j, i < j → j < N → Disjoint (m.taken i) (m.taken j)) ∧
    (∀ a n m₀, Saves a m₀ → Unwritten a n (step.after m₀) → Restores a (step.after^[n] (step.after m₀)) →
      ∃ m', step (step.after^[n] (step.after m₀)) = .ok true m' ∧ m'.np = m₀.np) ∧
    ∀ n k m₀, Nests m₀ n k → (step.after^[k] m₀).np + n = m₀.np := by
  refine ⟨fun k hk hcalled => ?_, fun i j hij hj => taken_disjoint hrst hij hj, ?_, ?_⟩
  · exact (hm.run hrst hk.le).allots hcalled
  · intro a n m₀ hsaves hunwritten hrestores
    exact hsaves.restored hunwritten hrestores
  · intro n k m₀ hnests
    exact hnests.np

/-- A machine that saves the end of its heap in two cells, takes a block after each and restores twice. -/
def nesting : Machine where
  pc := 0
  mp := 0
  sp := 11
  np := 31
  code := #[⟨.lao, 0, 8⟩, ⟨.csp, 0, 20⟩, ⟨.lao, 0, 10⟩, ⟨.ldc, 1, 5⟩, ⟨.csp, 0, 4⟩,
    ⟨.lao, 0, 9⟩, ⟨.csp, 0, 20⟩, ⟨.lao, 0, 11⟩, ⟨.ldc, 1, 3⟩, ⟨.csp, 0, 4⟩,
    ⟨.ldo, 0, 9⟩, ⟨.csp, 0, 2⟩, ⟨.ldo, 0, 8⟩, ⟨.csp, 0, 2⟩]
  store := ⟨{ stackSize := 30, pools := {}, codeSize := 16, maxLabel := 0 }, .replicate 31 .undefined, {}⟩
  files := default

theorem heap_disciplined_nesting :
    Disjoint (nesting.taken 4) (nesting.taken 9) ∧ nesting.taken 9 = {23, 24, 25} ∧
    (step.after^[14] nesting).np + 0 = 31 := by
  have hheap : nesting.HasHeap := ⟨by decide, by decide, by decide⟩
  obtain ⟨-, hdisjoint, -, hnested⟩ := heap_disciplined nesting hheap 11 (by decide +kernel)
  -- the inner pair is a part of what happens between the outer save and its restore
  have hfive : Nests (step.after^[2] nesting) 5 4 := by
    refine .other (.take 5 (.other (.other (.done _) ?_) ?_) ?_ ?_ ?_) ?_ <;> decide +kernel
  have hthree : Nests (step.after^[7] nesting) 3 4 := by
    refine .other (.take 3 (.other (.other (.done _) ?_) ?_) ?_ ?_ ?_) ?_ <;> decide +kernel
  have hinner : Nests (step.after^[2] nesting) 5 10 := by
    refine .restore hfive ⟨?_, ⟨.address 9, ?_, rfl⟩, ?_⟩ hthree ?_ ⟨?_, ?_⟩ <;> decide +kernel
  have houter : Nests nesting 0 14 := by
    refine .restore (.other (.done _) ?_) ⟨?_, ⟨.address 8, ?_, rfl⟩, ?_⟩ (.other hinner ?_) ?_ ⟨?_, ?_⟩ <;>
      decide +kernel
  exact ⟨hdisjoint 4 9 (by decide) (by decide), by decide +kernel, hnested 0 14 nesting houter⟩

end Machine

end PMachine
