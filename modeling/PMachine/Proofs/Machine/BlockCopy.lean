import PMachine.Proofs.Machine.Stack

/-!
# Copies of blocks

A block is copied cell by cell from its first cell on. Where the target starts inside the source, the
copy comes to cells that it has written itself. So the cells between the two starts are repeated over
the whole target. Everywhere else the target holds what the source held before.

* `Machine.copySource`: the cell that a cell of the target comes from.
* `Machine.Copied`: the cells after a copy.
* `Machine.copy_eq`: a copy up to the first cell outside the store.
* `Machine.step_mov`: the instruction.
* `Machine.block_copied`: what it leaves in the store.
-/

namespace PMachine.Machine

variable {m : Machine} {n k source target : Nat} {cells cells' : Array Cell}

/-- The cell that cell `i` of a target was copied from, if the target starts inside the source. -/
def repeated (source target i : Nat) : Nat := source + i % (target - source)

/-- The cell that cell `i` of a target comes from. -/
def copySource (source target i : Nat) : Nat :=
  if source < target then repeated source target i else source + i

/-- The cells after `n` of them were copied. -/
def Copied (n source target : Nat) (cells cells' : Array Cell) : Prop :=
  ∀ a, cells'[a]? =
    if target ≤ a ∧ a < target + n then cells[copySource source target (a - target)]? else cells[a]?

/-- Cell `i` of both blocks is in the store. -/
def Within (m : Machine) (source target i : Nat) : Prop :=
  source + i < m.store.size ∧ target + i < m.store.size

instance (m : Machine) (source target i : Nat) : Decidable (m.Within source target i) :=
  inferInstanceAs (Decidable (_ ∧ _))

/-- A copy over cells behind its source, or far enough in front of it, takes all from the source. -/
theorem copySource_of_apart {i : Nat} (hi : i < n) (h : ¬ (source < target ∧ target < source + n)) :
    copySource source target i = source + i := by
  unfold copySource repeated
  split
  · have hlt : i < target - source := by omega
    rw [Nat.mod_eq_of_lt hlt]
  · rfl

/-- The first cell is copied from where it was. -/
theorem copySource_zero (source target : Nat) : copySource source target 0 = source := by
  unfold copySource repeated
  simp

/-- The first cell that is copied is the only one that is read again from the target. -/
theorem copySource_succ (source target i : Nat) :
    copySource (source + 1) (target + 1) i = target ∧ copySource source target (i + 1) = source ∨
      copySource (source + 1) (target + 1) i ≠ target ∧
        copySource source target (i + 1) = copySource (source + 1) (target + 1) i := by
  unfold copySource repeated
  by_cases hlt : source < target
  · obtain ⟨d, rfl⟩ : ∃ d, target = source + d := ⟨target - source, by omega⟩
    have hd : source + d + 1 - (source + 1) = d := by omega
    have hd' : source + d - source = d := by omega
    have hpos : 0 < d := by omega
    have hmod := Nat.mod_lt i hpos
    rw [if_pos (by omega), if_pos hlt, hd, hd', Nat.add_mod_eq_ite]
    by_cases hone : d = 1
    · left
      subst hone
      simp [Nat.mod_one]
    · rw [Nat.mod_eq_of_lt (show 1 < d by omega)]
      split <;> omega
  · rw [if_neg (by omega), if_neg hlt]
    omega

/-- To copy nothing changes nothing. -/
theorem Copied.zero (source target : Nat) (cells : Array Cell) : Copied 0 source target cells cells := by
  intro a
  rw [if_neg (by omega)]

/-- A copy starts with its first cell. -/
theorem Copied.succ {c : Cell} (hc : cells[source]? = some c) (hlt : target < cells.size)
    (h : Copied k (source + 1) (target + 1) (cells.setIfInBounds target c) cells') :
    Copied (k + 1) source target cells cells' := by
  intro a
  rw [h a]
  by_cases hin : target + 1 ≤ a ∧ a < target + 1 + k
  · obtain ⟨i, rfl⟩ : ∃ i, a = target + 1 + i := ⟨a - (target + 1), by omega⟩
    have hi : target + 1 + i - (target + 1) = i := by omega
    have hi' : target + 1 + i - target = i + 1 := by omega
    rw [if_pos hin, if_pos (by omega), hi, hi']
    rcases copySource_succ source target i with ⟨hhit, hfirst⟩ | ⟨hmiss, hsame⟩
    · rw [hhit, hfirst, Array.getElem?_setIfInBounds_self_of_lt hlt, hc]
    · rw [hsame, Array.getElem?_setIfInBounds_ne (Ne.symm hmiss)]
  · rw [if_neg hin]
    by_cases ha : target = a
    · subst ha
      rw [if_pos (by omega), Nat.sub_self, copySource_zero, Array.getElem?_setIfInBounds_self_of_lt hlt, hc]
    · rw [if_neg (by omega), Array.getElem?_setIfInBounds_ne ha]

/-- **A copy runs up to the first cell outside the store**, in one of the two blocks. -/
theorem copy_eq (n : Nat) : ∀ {k source target : Nat} {m : Machine}, k ≤ n →
    (∀ i < k, m.Within source target i) → (k < n → ¬ m.Within source target k) →
    ∃ cells, Copied k source target m.store.cells cells ∧ copy n source target m =
      if k = n then .ok () { m with store := { m.store with cells } }
      else .error .addressOutOfStore { m with store := { m.store with cells } } := by
  -- the copy of the first cell comes first, and the rest is a copy between blocks one cell further
  induction n with
  | zero =>
    intro k source target m hk _ _
    obtain rfl : k = 0 := by omega
    exact ⟨m.store.cells, .zero _ _ _, rfl⟩
  | succ n ih =>
    intro k source target m hk hin hout
    unfold Within Store.size at hin hout
    rcases Nat.eq_zero_or_pos k with rfl | hpos
    · have hfirst := hout (Nat.succ_pos n)
      refine ⟨m.store.cells, .zero _ _ _, ?_⟩
      rw [if_neg (by omega)]
      rcases Nat.lt_or_ge source m.store.cells.size with hs | hs
      · have hread := read_eq (Array.getElem?_eq_getElem hs)
        have hwrite := write_error (m := m) (a := target) (by omega) m.store.cells[source]
        exact (Action.bind_of_ok hread).trans (Action.bind_of_error hwrite)
      · have hread := read_error (m := m) (Array.getElem?_eq_none hs)
        exact Action.bind_of_error hread
    · obtain ⟨j, rfl⟩ : ∃ j, k = j + 1 := ⟨k - 1, by omega⟩
      have hfirst := hin 0 hpos
      have hs : source < m.store.cells.size := by omega
      have ht : target < m.store.cells.size := by omega
      have hc := Array.getElem?_eq_getElem hs
      have hread := read_eq (m := m) hc
      have hwrite := write_eq (m := m) ht m.store.cells[source]
      obtain ⟨cells, hcopied, hrest⟩ := @ih j (source + 1) (target + 1)
        { m with store := { m.store with
          cells := m.store.cells.setIfInBounds target m.store.cells[source] } }
        (by omega)
        (fun i hi => by
          have hnext := hin (i + 1) (by omega)
          unfold Within Store.size
          rw [Array.size_setIfInBounds]
          omega)
        (fun hj => by
          have hnext := hout (by omega)
          unfold Within Store.size
          rw [Array.size_setIfInBounds]
          omega)
      refine ⟨cells, .succ hc ht hcopied, ?_⟩
      have hcopy : copy (n + 1) source target m = _ :=
        (Action.bind_of_ok hread).trans ((Action.bind_of_ok hwrite).trans hrest)
      rw [hcopy]
      simp only [Nat.add_right_cancel_iff]

/-! ### The instruction -/

variable {p : Nat} {q : Word} {c d : Cell}

/-- The instruction takes the two addresses from the stack before it copies anything. -/
theorem step_mov (hi : m.code[m.pc]? = some ⟨.mov, p, q⟩) (hops : m.Operands d c)
    (hs : c.asAddress = .ok source) (ht : d.asAddress = .ok target) (hk : k ≤ q.count)
    (hin : ∀ i < k, m.Within source target i) (hout : k < q.count → ¬ m.Within source target k) :
    ∃ cells, Copied k source target m.store.cells cells ∧ step m =
      if k = q.count then .ok true { m.fetched with sp := m.sp - 2, store := { m.store with cells } }
      else .error .addressOutOfStore { m.fetched with sp := m.sp - 2, store := { m.store with cells } } := by
  have hsource : popAddress m.fetched = .ok source m.fetched.popped := popAddress_eq hops.1 hs
  have htarget : popAddress m.fetched.popped = .ok target m.fetched.popped.popped :=
    popAddress_eq hops.2 ht
  obtain ⟨cells, hcopied, hcopy⟩ := copy_eq q.count (m := m.fetched.popped.popped) hk hin hout
  have hperform : perform ⟨.mov, p, q⟩ m.fetched = copy q.count source target m.fetched.popped.popped :=
    (Action.bind_of_ok hsource).trans (Action.bind_of_ok htarget)
  rw [hcopy] at hperform
  have hsp : m.sp - 1 - 1 = m.sp - 2 := by omega
  refine ⟨cells, hcopied, ?_⟩
  by_cases hall : k = q.count
  · rw [if_pos hall] at hperform ⊢
    have hstep := step_of_ok hi hperform
    simp only [popped, fetched, hsp] at hstep
    simpa [fetched] using hstep
  · rw [if_neg hall] at hperform ⊢
    have hstep := step_of_error hi hperform
    simp only [popped, fetched, hsp] at hstep
    simpa [fetched] using hstep

/-- **A block is copied from its first cell on.** Where both blocks are in the store, every cell of the
target comes to hold what its cell of the source held before. If the target starts inside the source, then
it holds the cells between the two starts, again and again. No other cell changes, and nothing changes if
there is nothing to copy. A block that leaves the store is copied up to the first cell outside. -/
theorem block_copied (m : Machine) (p : Nat) (q : Word) (hi : m.code[m.pc]? = some ⟨.mov, p, q⟩)
    {c d : Cell} (hops : m.Operands d c) {source target : Nat} (hs : c.asAddress = .ok source)
    (ht : d.asAddress = .ok target) :
    ((∀ i < q.count, m.Within source target i) →
      ∃ cells, step m = .ok true { m.fetched with sp := m.sp - 2, store := { m.store with cells } } ∧
        (∀ i < q.count, (¬ (source < target ∧ target < source + q.count) →
            cells[target + i]? = m.store.cells[source + i]?) ∧
          (source < target ∧ target < source + q.count →
            cells[target + i]? = m.store.cells[source + i % (target - source)]?)) ∧
        ∀ a, ¬ (target ≤ a ∧ a < target + q.count) → cells[a]? = m.store.cells[a]?) ∧
    (q.toInt ≤ 0 → step m = .ok true { m.fetched with sp := m.sp - 2 }) ∧
    ((∃ i < q.count, ¬ m.Within source target i) →
      ∃ k < q.count, ¬ m.Within source target k ∧ (∀ i < k, m.Within source target i) ∧
        ∃ cells, step m =
            .error .addressOutOfStore { m.fetched with sp := m.sp - 2, store := { m.store with cells } } ∧
          ∀ a, ¬ (target ≤ a ∧ a < target + k) → cells[a]? = m.store.cells[a]?) := by
  refine ⟨fun hin => ?_, fun hq => ?_, fun hout => ?_⟩
  · obtain ⟨cells, hcopied, hstep⟩ := step_mov hi hops hs ht (Nat.le_refl _) hin
      fun hlt => absurd hlt (Nat.lt_irrefl _)
    rw [if_pos rfl] at hstep
    refine ⟨cells, hstep, fun i hlt => ?_, fun a ha => (hcopied a).trans (if_neg ha)⟩
    have hcell := hcopied (target + i)
    rw [if_pos (by omega), Nat.add_sub_cancel_left] at hcell
    refine ⟨fun hapart => ?_, fun hover => ?_⟩
    · rw [hcell, copySource_of_apart hlt hapart]
    · rw [hcell, copySource, if_pos hover.1, repeated]
  · have hnone : q.count = 0 := by
      unfold Word.count
      omega
    obtain ⟨cells, hcopied, hstep⟩ := step_mov (k := 0) hi hops hs ht (by omega) (fun i hlt => by omega)
      fun hlt => by omega
    have hcells : cells = m.store.cells :=
      Array.ext_getElem? fun a => (hcopied a).trans (if_neg (by omega))
    rw [if_pos hnone.symm, hcells] at hstep
    exact hstep
  · -- the copy ends at the least index whose cell is missing in one of the blocks
    classical
    obtain ⟨hlt, hmissing⟩ := Nat.find_spec hout
    have hbefore : ∀ i < Nat.find hout, m.Within source target i := fun i hi =>
      Classical.not_not.1 fun hnot => Nat.find_min hout hi ⟨by omega, hnot⟩
    obtain ⟨cells, hcopied, hstep⟩ := step_mov hi hops hs ht (Nat.le_of_lt hlt) hbefore fun _ => hmissing
    rw [if_neg (Nat.ne_of_lt hlt)] at hstep
    exact ⟨_, hlt, hmissing, hbefore, cells, hstep, fun a ha => (hcopied a).trans (if_neg ha)⟩

/-- A machine that is about to copy four cells to the place two cells further up. -/
def copying : Machine where
  pc := 0
  mp := 0
  sp := 9
  np := 11
  code := #[⟨.mov, 0, 4⟩]
  store := ⟨{ stackSize := 10, pools := {}, codeSize := 8, maxLabel := 0 },
    #[.int 1, .int 2, .int 3, .int 4, .int 5, .int 6, .int 7, .int 8, .address 2, .address 0,
      .undefined], {}⟩
  files := default

theorem block_copied_copying :
    ∃ cells : Array Cell, step copying =
        .ok true { copying.fetched with sp := 7, store := { copying.store with cells } } ∧
      cells[1]? = some (Cell.int 2) ∧ cells[2]? = some (Cell.int 1) ∧ cells[4]? = some (Cell.int 1) ∧
      cells[5]? = some (Cell.int 2) ∧ cells[6]? = some (Cell.int 7) := by
  have hops : copying.Operands (.address 2) (.address 0) := ⟨rfl, rfl⟩
  obtain ⟨hcopies, -, -⟩ := block_copied copying 0 4 rfl hops rfl rfl
  obtain ⟨cells, hstep, hinside, houtside⟩ := hcopies (by decide)
  exact ⟨cells, hstep, houtside 1 (by decide), (hinside 0 (by decide)).2 (by decide),
    (hinside 2 (by decide)).2 (by decide), (hinside 3 (by decide)).2 (by decide), houtside 6 (by decide)⟩

end PMachine.Machine
