import PMachine.Proofs.Cell
import PMachine.Proofs.Machine.Call
import PMachine.Proofs.Machine.Frame
import PMachine.Proofs.Machine.Observed

/-!
# A frame starts without values

A procedure reserves its frame after a call has put the parameters there. What lies above them is
cleared, whatever earlier calls left in these cells, and nothing else changes. So a parameter has the value
that was pushed for it, and a variable has none before something is stored to it.

The stack of the main program may not reach the buffers of the files yet. Then its frame starts above them.

* `Machine.frameTop`, `Machine.firstCleared`: where a frame ends, and the first cell that is cleared for it.
* `Machine.clear_ok`, `Machine.clear_total`: clearing cells, cell by cell.
* `Machine.Reserves`: the machine after a frame was reserved.
* `Machine.step_reserves`, `Machine.step_overflows`, `Machine.step_reserve_total`: the instruction that
  reserves one.
* `Machine.frame_fresh`: the variables and the parameters of a new frame.
-/

namespace PMachine

namespace Machine

open PMachine.Action (bind_eq_ok)

/-- The last cell of a frame of size `q` at the current frame. As everywhere, an address is read as a signed
number where a word is added to it. -/
def frameTop (m : Machine) (q : Word) : Int := Address.signed m.mp + q.toInt

/-- The first cell above the stack or, if the stack does not reach them, above the buffers of the files. -/
def firstCleared (m : Machine) : Nat :=
  if m.sp < (Channel.input.number : Int) then Channel.prr.number + 1 else (m.sp + 1).toNat

/-- The machine `m'` is `m` past an instruction that reserved a frame. -/
structure Reserves (q : Word) (m m' : Machine) : Prop where
  sp : m'.sp = m.frameTop q
  cells : ∀ a : Nat, m'.store.cells[a]? =
    if m.firstCleared ≤ a ∧ (a : Int) ≤ m.frameTop q then some .undefined else m.store.cells[a]?
  rest : m' = { m.fetched with sp := m'.sp, store := { m.store with cells := m'.store.cells } }
  fits : Word.Fits (m.frameTop q)

variable {m m' : Machine} {q : Word}

/-- The frame stays the current one. -/
theorem Reserves.mp (h : Reserves q m m') : m'.mp = m.mp := by
  rw [h.rest]
  rfl

/-- The top of a frame is counted from its base. -/
theorem frameTop_eq (h : m.mp < 0x8000000000000000) (q : Word) : m.frameTop q = m.mp + q.toInt := by
  rw [frameTop, Address.signed_of_lt h]

/-- Above the buffers of the files, the first cell that is cleared is the one above the stack. -/
theorem firstCleared_eq (h : 4 ≤ m.sp) : (m.firstCleared : Int) = m.sp + 1 := by
  have hinput : ¬ m.sp < (Channel.input.number : Int) := Int.not_lt.2 h
  rw [firstCleared, if_neg hinput]
  omega

/-! ### Clearing -/

/-- A block that is cleared, cell by cell. -/
theorem clear_ok {n : Nat} : ∀ {a : Nat} {m m' : Machine}, clear n a m = .ok () m' →
    ∃ cells : Array Cell, m' = { m with store := { m.store with cells } } ∧
      ∀ b, cells[b]? = if a ≤ b ∧ b < a + n then some .undefined else m.store.cells[b]? := by
  induction n with
  | zero =>
    intro a m m' h
    cases h
    exact ⟨m.store.cells, rfl, fun b => (if_neg (by omega)).symm⟩
  | succ n ih =>
    intro a m m' h
    obtain ⟨_, m₁, hwrite, hrest⟩ := bind_eq_ok.1 h
    obtain ⟨hlt, rfl⟩ := write_ok hwrite
    obtain ⟨cells, rfl, hcells⟩ := ih hrest
    refine ⟨cells, rfl, fun b => ?_⟩
    rw [hcells b]
    -- the first cell is not one of those that are cleared after it
    by_cases hab : a = b
    · subst hab
      rw [if_neg (by omega), if_pos (by omega)]
      exact Array.getElem?_setIfInBounds_self_of_lt hlt
    · have hiff : (a + 1 ≤ b ∧ b < a + 1 + n) ↔ (a ≤ b ∧ b < a + (n + 1)) := by omega
      simp only [hiff]
      rw [Array.getElem?_setIfInBounds_ne hab]

/-- A block of the store can be cleared, and so can nothing. -/
theorem clear_total {n : Nat} : ∀ {a : Nat} {m : Machine}, (0 < n → a + n ≤ m.store.cells.size) →
    ∃ m', clear n a m = .ok () m' := by
  induction n with
  | zero => exact fun {_ m} _ => ⟨m, rfl⟩
  | succ n ih =>
    intro a m h
    have hle := h (Nat.succ_pos n)
    have hwrite := write_eq (m := m) (a := a) (by omega) .undefined
    obtain ⟨m', hrest⟩ := ih (a := a + 1)
      (m := { m with store := { m.store with cells := m.store.cells.setIfInBounds a .undefined } })
      fun _ => by simp only [Array.size_setIfInBounds]; omega
    exact ⟨m', (Action.bind_of_ok hwrite).trans hrest⟩

/-! ### Reserving a frame -/

variable {top : Nat}

/-- The top of a frame is found if it is an address below `2 ^ 63`. -/
theorem offset_frameTop (htop : (top : Int) = m.frameTop q) (hhigh : top < 0x8000000000000000) :
    offset m.mp q.toInt m = .ok top m := by
  rw [offset, Address.offset?_eq_some_iff.2 ⟨htop, hhigh⟩]
  rfl

/-- Stepping over the buffers of the files leads to the cell below the first one that is cleared. -/
theorem skip_firstCleared (hsp : m.sp < 0x8000000000000000) : ∃ sp : Int,
    (if m.sp < (Channel.input.number : Int) then { m with sp := Channel.prr.number } else m) = { m with sp } ∧
      Address.ofSigned (sp + 1) = m.firstCleared := by
  have hinput : (Channel.input.number : Int) = 4 := rfl
  by_cases hlow : m.sp < (Channel.input.number : Int)
  · refine ⟨7, by rw [if_pos hlow]; rfl, ?_⟩
    rw [firstCleared, if_pos hlow]
    rfl
  · refine ⟨m.sp, by rw [if_neg hlow], ?_⟩
    rw [firstCleared, if_neg hlow, Address.ofSigned]
    omega

/-- Where there is room for a frame, its cells are cleared and it becomes the stack. -/
theorem reserve_of_room (hsp : m.sp < 0x8000000000000000) (htop : (top : Int) = m.frameTop q)
    (hhigh : top < 0x8000000000000000) (hroom : top < m.np) :
    ∃ sp, reserve q m = (do
      clear (top + 1 - m.firstCleared) m.firstCleared
      modify fun m => { m with sp := (top : Int) } : Action Machine Unit) { m with sp } := by
  obtain ⟨sp, hskip, hfirst⟩ := skip_firstCleared hsp
  refine ⟨sp, ?_⟩
  rw [reserve, Action.bind_of_ok (Action.get_apply m), Action.bind_of_ok (offset_frameTop htop hhigh)]
  simp only [if_neg (Nat.not_le.2 hroom)]
  rw [Action.bind_of_ok (Action.modify_apply _ m), hskip, ← hfirst]
  rfl

/-- A frame that reaches the heap is refused. -/
theorem reserve_full (htop : (top : Int) = m.frameTop q) (hhigh : top < 0x8000000000000000)
    (hfull : m.np ≤ top) : reserve q m = .error .storeOverflow m := by
  rw [reserve, Action.bind_of_ok (Action.get_apply m), Action.bind_of_ok (offset_frameTop htop hhigh)]
  simp only [if_pos hfull]
  rfl

/-- A frame that was reserved ends at an address below the heap. -/
theorem lt_of_reserve (h : reserve q m = .ok () m') :
    ∃ top : Nat, (top : Int) = m.frameTop q ∧ top < 0x8000000000000000 ∧ top < m.np := by
  rw [reserve, Action.bind_of_ok (Action.get_apply m)] at h
  obtain ⟨top, m₁, hoffset, h⟩ := bind_eq_ok.1 h
  obtain ⟨hsome, rfl⟩ := Action.orFault_eq_ok.1 hoffset
  obtain ⟨htop, hhigh⟩ := Address.offset?_eq_some_iff.1 hsome
  refine ⟨top, htop, hhigh, ?_⟩
  by_contra hfull
  simp only [if_pos (Nat.not_lt.1 hfull)] at h
  cases h

/-- A frame that is reserved, cell by cell. -/
theorem reserve_ok (hsp : m.sp < 0x8000000000000000) (h : reserve q m = .ok () m') :
    ∃ cells : Array Cell, m' = { m with sp := m.frameTop q, store := { m.store with cells } } ∧
      ∀ a : Nat, cells[a]? =
        if m.firstCleared ≤ a ∧ (a : Int) ≤ m.frameTop q then some .undefined else m.store.cells[a]? := by
  obtain ⟨top, htop, hhigh, hroom⟩ := lt_of_reserve h
  obtain ⟨sp, hreserve⟩ := reserve_of_room hsp htop hhigh hroom
  obtain ⟨_, m₁, hclear, hlast⟩ := bind_eq_ok.1 (hreserve.symm.trans h)
  obtain ⟨cells, rfl, hcells⟩ := clear_ok hclear
  cases hlast
  refine ⟨cells, by rw [← htop], fun a => ?_⟩
  have hiff : (m.firstCleared ≤ a ∧ a < m.firstCleared + (top + 1 - m.firstCleared)) ↔
      (m.firstCleared ≤ a ∧ (a : Int) ≤ m.frameTop q) := by omega
  rw [hcells a]
  simp only [hiff]

/-- A frame below the heap can be reserved, if the heap is in the store. -/
theorem reserve_total (hsp : m.sp < 0x8000000000000000) (htop : (top : Int) = m.frameTop q)
    (hhigh : top < 0x8000000000000000) (hroom : top < m.np) (hheap : m.np ≤ m.store.cells.size) :
    ∃ m', reserve q m = .ok () m' := by
  obtain ⟨sp, hreserve⟩ := reserve_of_room hsp htop hhigh hroom
  obtain ⟨m₁, hclear⟩ := clear_total (n := top + 1 - m.firstCleared) (a := m.firstCleared)
    (m := { m with sp }) fun hn => by simp only; omega
  exact ⟨_, hreserve.trans (Action.bind_of_ok hclear)⟩

/-! ### Steps -/

variable {p : Nat} (hi : m.code[m.pc]? = some ⟨.ent, p, q⟩)

include hi

/-- A step that reserves a frame and succeeds has reserved it. -/
theorem step_reserves (hsp : m.sp < 0x8000000000000000) {b : Bool} (h : step m = .ok b m') :
    Reserves q m m' := by
  cases hrun : reserve q m.fetched with
  | ok u m₁ =>
    rw [step_of_ok hi hrun] at h
    cases h
    obtain ⟨cells, rfl, hcells⟩ := reserve_ok (m := m.fetched) hsp hrun
    obtain ⟨top, htop, hhigh, -⟩ := lt_of_reserve hrun
    have htop : (top : Int) = m.frameTop q := htop
    exact ⟨rfl, hcells, rfl, by omega, by omega⟩
  | error f m₁ =>
    rw [step_of_error hi hrun] at h
    cases h

/-- A step that would reserve a frame up to the heap fails. -/
theorem step_overflows (hlow : 0 ≤ m.frameTop q) (hhigh : m.frameTop q < 0x8000000000000000)
    (hfull : m.np ≤ m.frameTop q) : step m = .error .storeOverflow m.fetched := by
  obtain ⟨top, htop⟩ := Int.eq_ofNat_of_zero_le hlow
  exact step_of_error hi (reserve_full (m := m.fetched) htop.symm (by omega)
    (by show m.np ≤ top; omega))

/-- A step that reserves a frame with room for it succeeds. -/
theorem step_reserve_total (hsp : m.sp < 0x8000000000000000) (hlow : 0 ≤ m.frameTop q)
    (hhigh : m.frameTop q < 0x8000000000000000) (hroom : m.frameTop q < m.np)
    (hheap : m.np ≤ m.store.cells.size) : ∃ m', step m = .ok true m' := by
  obtain ⟨top, htop⟩ := Int.eq_ofNat_of_zero_le hlow
  obtain ⟨m', hrun⟩ := reserve_total (m := m.fetched) hsp htop.symm (by omega)
    (by show top < m.np; omega) hheap
  exact ⟨m', step_of_ok hi hrun⟩

omit hi

/-! ### Variables and parameters -/

/-- A cell is as it was as long as nothing is written to it. -/
theorem cell_of_unwritten {a : Nat} (n : Nat)
    (h : ∀ k < n, ∀ o, .write o a ∉ Observed.step.effects (step.after^[k] m)) :
    (step.after^[n] m).store.cells[a]? = m.store.cells[a]? := by
  induction n with
  | zero => rfl
  | succ n ih =>
    have hstep := Observed.step.frame (step.after^[n] m) a (h n (Nat.lt_succ_self n))
    rw [Function.iterate_succ_apply', hstep]
    exact ih fun k hk => h k (by omega)

/-- A variable of the current frame that has no value cannot be loaded. -/
theorem step_lod_undefined {j : Word} (hi : m.code[m.pc]? = some ⟨.lod, 0, j⟩) {a : Nat}
    (ha : (a : Int) = m.frameTop j) (hhigh : a < 0x8000000000000000)
    (hc : m.store.cells[a]? = some .undefined) : step m = .error .valueUndefined m.fetched := by
  have hvariable : variableAt 0 j m.fetched = .ok a m.fetched := offset_frameTop (m := m.fetched) ha hhigh
  have hload : load a m.fetched = .error .valueUndefined m.fetched := by
    rw [load, Action.bind_of_ok (read_eq (m := m.fetched) hc)]
    rfl
  exact step_of_error hi ((Action.bind_of_ok hvariable).trans (Action.bind_of_error hload))

/-- A call finds its frame below the parameters, and writes nothing but the link in it. -/
theorem Executes.frame {k : Nat} {l : Word} {caller : Machine} (h : Executes ⟨.cup, k, l⟩ caller m)
    (hk : k + 3 < 0x8000000000000000) : (m.mp : Int) = caller.sp - (k + 3) ∧ m.sp = caller.sp ∧
      ∀ a, a ≠ m.mp + returnLink → m.store.cells[a]? = caller.store.cells[a]? := by
  obtain ⟨hstart, hroom, hstore⟩ := enterFrame_ok h.perform
  have hframe : (m.mp : Int) = caller.sp - (k + 3) :=
    ((frameStart?_of_lt (m := caller) (p := k) hk).1 hstart).1
  have henters := entersFrame h.1 hstart hroom
  have hafter : step.after caller = m := Action.after_of_ok h.2
  refine ⟨hframe, hafter ▸ henters.sp, fun a ha => ?_⟩
  rw [hstore]
  exact Array.getElem?_setIfInBounds_ne (Ne.symm ha)

variable {k : Nat} {l : Word} {caller : Machine} (hcall : Executes ⟨.cup, k, l⟩ caller m)
  (hcaller : 4 ≤ caller.sp) (hk : k + 3 < 0x8000000000000000) (hm : Reserves q m m')

include hcall hcaller hk hm

/-- The parameters are where the caller has pushed them. -/
theorem Reserves.parameter {j : Nat} (hj : j < k) :
    m'.store.cells[m'.mp + 4 + j]? = caller.store.cells[(caller.sp - k + 1).toNat + j]? := by
  -- the link that the call writes is below the parameters, and what is cleared is above them
  obtain ⟨hmp, hsp, hcells⟩ := hcall.frame hk
  have hplace : (caller.sp - k + 1).toNat + j = m.mp + 4 + j := by omega
  have hfirst := firstCleared_eq (m := m) (by omega)
  have hbelow : ¬ (m.firstCleared ≤ m.mp + 4 + j ∧ ((m.mp + 4 + j : Nat) : Int) ≤ m.frameTop q) := by
    omega
  rw [hm.mp, hplace, hm.cells, if_neg hbelow]
  exact hcells _ (by simp only [returnLink]; omega)

/-- A variable of a fresh frame has no value. -/
theorem Reserves.variable {j : Word} (hsp : m.sp < 0x8000000000000000) (hlow : (k : Int) + 4 ≤ j.toInt)
    (hhigh : j.toInt ≤ q.toInt) : ((m'.mp + j.toInt.toNat : Nat) : Int) = m'.frameTop j ∧
      m'.mp + j.toInt.toNat < 0x8000000000000000 ∧
      m'.store.cells[m'.mp + j.toInt.toNat]? = some .undefined := by
  obtain ⟨hmp, hsame, -⟩ := hcall.frame hk
  have hfirst := firstCleared_eq (m := m) (by omega)
  have hframe := hm.mp
  have hvariable := frameTop_eq (m := m') (by omega) j
  have htop := frameTop_eq (m := m) (by omega) q
  have hfits := hm.fits
  refine ⟨by omega, by omega, ?_⟩
  rw [hm.cells, if_pos (by omega)]

omit hcall hcaller hk hm

/-- **A frame starts without values.** Reserving a frame of `q` cells makes its last cell the top of the
stack. It clears the cells above the stack, or above the buffers of the files if the stack does not reach
them, and changes no other cell. It fails just if the frame would reach the heap, and then it changes
nothing. So after a call with `k` parameters a new frame holds what the caller pushed for them, whatever
its other cells held before, and none of its variables can be loaded until something is written to it. -/
theorem frame_fresh (m : Machine) (p : Nat) (q : Word) (hi : m.code[m.pc]? = some ⟨.ent, p, q⟩)
    (hsp : m.sp < 0x8000000000000000) (hnp : m.np ≤ m.store.limits.stackSize + 1)
    (hlayout : m.store.limits.stackSize < m.store.cells.size) :
    (∀ b m', step m = .ok b m' → Reserves q m m') ∧
    (0 ≤ m.frameTop q → m.frameTop q < 0x8000000000000000 →
      ((∃ m', step m = .error .storeOverflow m') ↔ m.np ≤ m.frameTop q) ∧
      ∀ f m', step m = .error f m' → f = .storeOverflow ∧ m' = m.fetched) ∧
    ∀ (k : Nat) (l : Word) (caller m' : Machine), Executes ⟨.cup, k, l⟩ caller m → 4 ≤ caller.sp →
      (k : Int) + 3 ≤ q.toInt → step m = .ok true m' →
      (∀ j < k, m'.store.cells[m'.mp + 4 + j]? = caller.store.cells[(caller.sp - k + 1).toNat + j]?) ∧
      ∀ (j : Word) (n : Nat), (k : Int) + 4 ≤ j.toInt → j.toInt ≤ q.toInt →
        (∀ i < n, ∀ o, .write o (m'.mp + j.toInt.toNat) ∉ Observed.step.effects (step.after^[i] m')) →
        (step.after^[n] m').mp = m'.mp →
        (step.after^[n] m').code[(step.after^[n] m').pc]? = some ⟨.lod, 0, j⟩ →
        step (step.after^[n] m') = .error .valueUndefined (step.after^[n] m').fetched := by
  refine ⟨fun b m' h => step_reserves hi hsp h, fun hlow hhigh => ?_, ?_⟩
  · by_cases hfull : m.np ≤ m.frameTop q
    · have hstep := step_overflows hi hlow hhigh hfull
      refine ⟨⟨fun _ => hfull, fun _ => ⟨_, hstep⟩⟩, fun f m' h => ?_⟩
      rw [hstep] at h
      cases h
      exact ⟨rfl, rfl⟩
    · obtain ⟨m₁, hstep⟩ := step_reserve_total hi hsp hlow hhigh (Int.not_le.1 hfull) (by omega)
      have hsucceeds : ∀ f m', step m ≠ .error f m' := fun f m' h => by
        rw [hstep] at h
        cases h
      exact ⟨⟨fun ⟨m', h⟩ => absurd h (hsucceeds _ m'), fun h => absurd h hfull⟩,
        fun f m' h => absurd h (hsucceeds f m')⟩
  · intro k l caller m' hcall hcaller hkq hstep
    have hq := q.toInt_lt
    have hm := step_reserves hi hsp hstep
    refine ⟨fun j hj => hm.parameter hcall hcaller (by omega) hj, ?_⟩
    intro j n hlow hhigh hunwritten hframe hnext
    obtain ⟨hplace, hlt, hundefined⟩ := hm.variable hcall hcaller (by omega) hsp hlow hhigh
    have hsame : (step.after^[n] m').frameTop j = m'.frameTop j := by rw [frameTop, hframe, frameTop]
    exact step_lod_undefined hnext (hplace.trans hsame.symm) hlt
      ((cell_of_unwritten n hunwritten).trans hundefined)

/-- A machine that is about to call a procedure with one parameter and two variables, on a stack that other
calls have used. -/
def recalling : Machine where
  pc := 0
  mp := 0
  sp := 12
  np := 21
  code := #[⟨.cup, 1, 1⟩, ⟨.ent, 0, 6⟩, ⟨.lod, 0, 6⟩]
  store := ⟨{ stackSize := 20, pools := {}, codeSize := 8, maxLabel := 0 }, .replicate 21 (.int 9), {}⟩
  files := default

theorem frame_fresh_recalling :
    (step.after^[2] recalling).store.cells[12]? = some (.int 9) ∧
    step (step.after^[2] recalling) = .error .valueUndefined (step.after^[2] recalling).fetched := by
  have hcall : Executes ⟨.cup, 1, 1⟩ recalling (step.after recalling) := ⟨rfl, rfl⟩
  have henter : step (step.after recalling) = .ok true (step.after^[2] recalling) := rfl
  obtain ⟨-, -, hfresh⟩ := frame_fresh (step.after recalling) 0 6 rfl (by decide) (by decide) (by decide)
  obtain ⟨hparameters, hvariables⟩ := hfresh 1 1 recalling _ hcall (by decide) (by decide) henter
  exact ⟨hparameters 0 (by decide), hvariables 6 0 (by decide) (by decide) nofun rfl rfl⟩

end Machine

end PMachine
