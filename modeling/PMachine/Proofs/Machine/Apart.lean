import PMachine.Proofs.Machine.Policy

/-!
# Stack and heap apart

The stack grows up and the heap grows down, and every action that moves either of them makes sure
that they do not meet. So the cells that the machine writes on its own account are those of the stack
and the heap; the pools above them change only by a store through an address of the program.

Two instructions set a register to what they find in a cell. The release of heap blocks is to find
an address between the stack and the pools, and a return is to leave a frame below the heap.

* `Machine.Apart`: the stack ends below the heap, and the heap starts below the pools.
* `Machine.Orderly`: the next instruction sets no register to a cell that it should not.
* `Machine.stays_apart`: what holds over a run of orderly instructions.
-/

namespace PMachine

open Observed (Ends)

/-- Every address is at least as large as the signed number with its bits. -/
theorem Address.signed_le (a : Nat) : signed a ≤ a := by
  have hsigned : signed a = (a : Int).bmod (2 ^ 64) := Int64.toInt_ofNat'
  rw [hsigned, Int.bmod_def]
  split <;> omega

/-- Cells are written by a store, if there is one, or no higher than the stack may grow. -/
def Effect.Confined (S : Nat) (stores : Bool) : Effect → Prop
  | .result _ _ => True
  | .write .store _ => stores = true
  | .write _ a => a ≤ S

/-- A write that is no store is confined to the cells up to the highest of the stack. -/
theorem Effect.confined_write_iff {S a : Nat} {stores : Bool} {o : Origin} (ho : o ≠ .store) :
    Confined S stores (.write o a) ↔ a ≤ S := by
  cases o <;> first | exact Iff.rfl | exact absurd rfl ho

namespace Machine

/-- The stack ends below the heap, and the heap starts below the pools. -/
structure Apart (S : Nat) (m : Machine) : Prop where
  limits : m.store.limits.stackSize = S
  stack : m.sp < m.np
  heap : m.np ≤ S + 1

/-- The next instruction has a first operand that leaves room for the links of a frame. If it releases
heap blocks then down to an address between the stack and the pools, and if it leaves a frame then one
below the heap. -/
structure Orderly (S : Nat) (m : Machine) : Prop where
  operand : ∀ i, m.code[m.pc]? = some i → i.p < 0x8000000000000000 - 3
  release : ∀ i, m.code[m.pc]? = some i → i.op = .csp → Procedure.ofNumber? i.q = some .rst →
    ∀ c a, m.top? = some c → c.asAddress = .ok a → m.sp - 1 < a ∧ a ≤ S + 1
  leave : ∀ i, m.code[m.pc]? = some i → i.op = .ret → m.mp < m.np

variable {S : Nat} {stores : Bool} {m : Machine}

/-- A push keeps stack and heap apart, because it looks for the heap first. -/
theorem push_apart (hS : S < 0x8000000000000000) (h : m.Apart S) (c : Cell) :
    Ends (Effect.Confined S stores) (Apart S) (Observed.push c) (fun _ => Apart S) m := by
  have hstack := h.stack
  have hheap := h.heap
  refine .bind <| .look <| .computes trivial <| .computes trivial ?_
  refine .ite (fun _ => .failed h) fun hroom => ?_
  have hup : Apart S { m with sp := m.sp + 1 } := by
    refine ⟨h.limits, ?_, hheap⟩
    unfold Address.ofSigned at hroom
    simp only
    omega
  have hlow : Address.ofSigned (m.sp + 1) ≤ S := by omega
  exact .bind <| .change <| .write hlow (fun _ => hup) fun _ => ⟨h.limits, hup.stack, hheap⟩

/-- Where there is something to clear, the stack ends below it also after stepping over the file
buffers; where there is nothing, there is no fault either. -/
theorem reserve_apart (hS : S < 0x8000000000000000) (h : m.Apart S) (q : Word) :
    Ends (Effect.Confined S stores) (Apart S) (Observed.reserve q) (fun _ => Apart S) m := by
  have hstack := h.stack
  have hheap := h.heap
  refine .bind <| .look <| .bind <| .computes trivial <| .orFault h fun top _ => ?_
  refine .ite (fun _ => .failed h) fun hroom => .bind <| .change <| .bind <| .look ?_
  refine .computes trivial <| .computes trivial <| .bind ?_
  obtain ⟨sp, hskip, hsp⟩ := Observed.skip_cases m
  rw [hskip]
  have hfirst : (Address.ofSigned (sp + 1) : Int) = sp + 1 := by
    unfold Address.ofSigned
    omega
  refine .clear (I := fun m' => m'.sp = sp ∧ m'.np = m.np ∧ m'.store.limits.stackSize = S)
    (fun _ _ hI => hI) _ _ ⟨rfl, rfl, h.limits⟩ ?_ ?_ ?_
  · intro b _ hb
    show b ≤ S
    omega
  · rintro hn m' ⟨hsp', hnp, hlimits⟩
    have hsome : 0 < top + 1 - Address.ofSigned (sp + 1) := hn
    exact ⟨hlimits, by omega, by omega⟩
  · rintro m' ⟨-, hnp, hlimits⟩ - -
    exact .computes trivial <| .change ⟨hlimits, by simp only; omega, by simp only; omega⟩

end Machine

open Machine

/-- Stack and heap stay apart, with a store or without one. -/
def Policy.apart (S : Nat) (hS : S < 0x8000000000000000) (stores : Bool) : Policy where
  holds := Apart S
  faulted := Apart S
  address _ := True
  effect := Effect.Confined S stores
  fault h := h
  small _ := trivial
  lower _ _ := trivial
  cell {_ _ c} _ _ := by cases c <;> trivial
  next _ _ := trivial
  nil _ := trivial
  mp _ := trivial
  np _ := trivial
  base _ := trivial
  link _ _ := trivial
  depth _ _ := trivial
  width _ := trivial
  write {m o a} h ho ha := by
    have hstack := h.stack
    have hheap := h.heap
    exact (Effect.confined_write_iff ho).2 (by omega)
  set h _ := ⟨h.limits, h.stack, h.heap⟩
  files h := ⟨h.limits, h.stack, h.heap⟩
  jumped h _ := ⟨h.limits, h.stack, h.heap⟩
  fetched h _ := ⟨⟨h.limits, h.stack, h.heap⟩, trivial⟩
  dropped h _ _ := ⟨h.limits, by have := h.stack; simp only; omega, h.heap⟩
  taken {m heap} h hle hroom := by
    have hheap := h.heap
    have hsigned := Address.signed_le heap
    exact ⟨h.limits, by simp only; omega, by simp only; omega⟩
  pushed h _ := push_apart hS h _
  reserved h q := reserve_apart hS h q

namespace Machine

variable {S : Nat} {stores : Bool} {m : Machine}

/-- A call makes the stack no higher. -/
theorem enterFrame_apart {p : Nat} (hS : S < 0x8000000000000000) (hp : p < 0x8000000000000000 - 3)
    (h : m.Apart S) (q : Word) :
    (Policy.apart S hS stores).Ends (Observed.enterFrame p q) (fun _ => Apart S) m := by
  have hstack := h.stack
  have hheap := h.heap
  have hm₁ : ∀ mp : Nat, Apart S { m with mp } := fun _ => ⟨h.limits, hstack, hheap⟩
  refine .bind <| .look <| .computes trivial <| .computes trivial <| .computes trivial ?_
  refine .bind <| .orFault h fun frame hstart => ?_
  have hframe := ((frameStart?_of_lt (by omega)).1 hstart).1
  have hlink : frame + returnLink ≤ S := by
    unfold returnLink
    omega
  refine .bind <| .change <| .computes trivial <| .bind <| .write hlink (fun _ => hm₁ _) fun _ => ?_
  exact Policy.jump_ends (P := Policy.apart S hS stores) q ⟨h.limits, hstack, hheap⟩

/-- A return from a frame below the heap leaves the stack below the heap. -/
theorem leaveFrame_apart (hS : S < 0x8000000000000000) (hmp : m.mp < m.np) (h : m.Apart S) (p : Nat) :
    (Policy.apart S hS stores).Ends (Observed.leaveFrame p) (fun _ => Apart S) m := by
  have hsigned := Address.signed_le m.mp
  have hsp : (if p = 0 then Address.signed m.mp - 1 else Address.signed m.mp) < m.np := by
    split <;> omega
  have hout : ∀ pc mp : Nat, Apart S { m with
      pc, mp, sp := if p = 0 then Address.signed m.mp - 1 else Address.signed m.mp } :=
    fun _ _ => ⟨h.limits, hsp, h.heap⟩
  refine .bind <| .look <| .computes trivial <| .computes trivial <| .bind <| .change ?_
  refine .computes trivial <| .bind <| .read (hout _ _) fun c _ => .bind <|
    .lift (hout _ _) fun pc _ => .bind <| .change ?_
  exact .computes trivial <| .bind <| .read (hout _ _) fun d _ => .bind <|
    .lift (hout _ _) fun mp _ => .change (hout _ _)

/-- A release down to an address between stack and pools keeps the heap there. -/
theorem restore_apart (hS : S < 0x8000000000000000) (h : m.Apart S)
    (hrst : ∀ c a, m.top? = some c → c.asAddress = .ok a → m.sp - 1 < a ∧ a ≤ S + 1) :
    (Policy.apart S hS stores).Ends Observed.restore (fun _ => Apart S) m := by
  have hstack := h.stack
  refine .bind <| .bind <| .bind <| Policy.peek_ends h (by decide) fun c hsp hc => ?_
  have hdown : Apart S { m with sp := m.sp - (1 : Nat) } := ⟨h.limits, by simp only; omega, h.heap⟩
  refine .bind <| .drop trivial <| .pure <| .lift hdown fun a ha => ?_
  have htop : m.top? = some c := by
    rw [top?, if_pos (by omega)]
    simpa using hc
  obtain ⟨habove, hbelow⟩ := hrst c a htop ha
  exact .change ⟨h.limits, habove, hbelow⟩

/-- **One step** keeps stack and heap apart and writes above them by a store only. -/
theorem step_apart (hS : S < 0x8000000000000000) (h : m.Apart S) (ho : m.Orderly S) :
    Ends (Effect.Confined S (m.code[m.pc]?.any Instruction.stores)) (Apart S) Observed.step
      (fun _ => Apart S) m := by
  refine Policy.step_ends (P := Policy.apart S hS _) h fun i hi hfetched => ?_
  refine Policy.perform_ends hfetched (fun hs a => ?_) (fun _ => ?_) (fun hret => ?_) fun hcsp hrst => ?_
  · show m.code[m.pc]?.any Instruction.stores = true
    rw [hi]
    exact hs
  · exact enterFrame_apart (m := m.fetched) hS (ho.operand i hi) hfetched i.q
  · exact leaveFrame_apart (m := m.fetched) hS (ho.leave i hi hret) hfetched i.p
  · exact restore_apart (m := m.fetched) hS hfetched (ho.release i hi hcsp hrst)

/-- Stack and heap are apart after an orderly step, also if it fails. -/
theorem apart_after_step (hS : S < 0x8000000000000000) (h : m.Apart S) (ho : m.Orderly S) :
    (step.after m).Apart S := by
  have hstep := step_apart hS h ho
  cases hrun : step m with
  | ok b m' =>
    rw [Action.after_of_ok hrun]
    exact hstep.ok b m' hrun
  | error f m' =>
    rw [Action.after_of_error hrun]
    exact hstep.fault f m' hrun

/-- A cell of the pools that a step changes is one that a storing instruction writes. -/
theorem store_of_changed (hS : S < 0x8000000000000000) (h : m.Apart S) (ho : m.Orderly S) {a : Nat}
    (ha : S < a) (hne : (step.after m).store.cells[a]? ≠ m.store.cells[a]?) :
    ∃ i, m.code[m.pc]? = some i ∧ i.stores = true ∧ .write .store a ∈ Observed.step.effects m := by
  have hwritten : ∃ o, .write o a ∈ Observed.step.effects m := by
    by_contra hnone
    exact hne (Observed.step.frame m a fun o ho => hnone ⟨o, ho⟩)
  obtain ⟨o, hmem⟩ := hwritten
  have hconfined := (step_apart hS h ho).effects _ hmem
  by_cases hstore : o = .store
  · subst hstore
    have hany : m.code[m.pc]?.any Instruction.stores = true := hconfined
    obtain ⟨i, hi, hs⟩ := (Option.any_eq_true _ _).1 hany
    exact ⟨i, hi, hs, hmem⟩
  · have hlow := (Effect.confined_write_iff hstore).1 hconfined
    omega

/-- **Stack and heap never meet and stay out of the pools.** Over a run of orderly instructions,
whether they succeed or fail, the stack ends below the heap and the heap starts below the pools. All
cells that the machine writes on its own account are below the pools: those of pushes, of the top of
the stack, of conversions, of frames and their links and of heap blocks. A cell of the pools that is
changed was stored to by an instruction of the program. -/
theorem stays_apart (S : Nat) (hS : S < 0x8000000000000000) (m : Machine) (h : m.Apart S) (n : Nat)
    (hrun : ∀ k < n, (step.after^[k] m).Orderly S) :
    Observed.step.act = step ∧
    (∀ k ≤ n, (step.after^[k] m).Apart S) ∧
    (∀ k < n, ∀ o a, .write o a ∈ Observed.step.effects (step.after^[k] m) → o ≠ .store → a ≤ S) ∧
    ∀ a, S < a → (step.after^[n] m).store.cells[a]? ≠ m.store.cells[a]? →
      ∃ k < n, ∃ i, (step.after^[k] m).code[(step.after^[k] m).pc]? = some i ∧ i.stores = true ∧
        .write .store a ∈ Observed.step.effects (step.after^[k] m) := by
  have hapart : ∀ k ≤ n, (step.after^[k] m).Apart S := by
    intro k
    induction k with
    | zero => exact fun _ => h
    | succ k ih =>
      intro hk
      rw [Function.iterate_succ_apply']
      exact apart_after_step hS (ih (by omega)) (hrun k (by omega))
  refine ⟨Observed.step_act, hapart, ?_, ?_⟩
  · intro k hk o a hmem ho
    have hconfined := (step_apart hS (hapart k (by omega)) (hrun k hk)).effects _ hmem
    exact (Effect.confined_write_iff ho).1 hconfined
  · intro a ha hne
    -- the first step that changes the cell is the one that is looked for
    by_contra hnone
    have hsame : ∀ k ≤ n, (step.after^[k] m).store.cells[a]? = m.store.cells[a]? := by
      intro k
      induction k with
      | zero => exact fun _ => rfl
      | succ k ih =>
        intro hk
        by_contra hchanged
        rw [Function.iterate_succ_apply', ← ih (by omega)] at hchanged
        exact hnone ⟨k, by omega,
          store_of_changed hS (hapart k (by omega)) (hrun k (by omega)) ha hchanged⟩
    exact hne (hsame n (Nat.le_refl n))

/-- A machine whose program stores an integer in the first cell above its stack. -/
def intruder : Machine where
  pc := 0
  mp := 0
  sp := -1
  np := 9
  code := #[⟨.ldc, 1, 7⟩, ⟨.sro, 0, 9⟩]
  store := .new { stackSize := 8, pools := { integer := 1 }, codeSize := 8, maxLabel := 0 }
  files := {}

theorem stays_apart_intruder : ∃ k < 2, ∃ i,
    (step.after^[k] intruder).code[(step.after^[k] intruder).pc]? = some i ∧ i.stores = true ∧
      .write .store 9 ∈ Observed.step.effects (step.after^[k] intruder) := by
  have horderly : ∀ k < 2, (step.after^[k] intruder).Orderly 8 := by
    intro k hk
    have hcases : k = 0 ∨ k = 1 := by omega
    rcases hcases with rfl | rfl
    · refine ⟨fun i hi => ?_, fun i hi hop => ?_, fun i hi hop => ?_⟩ <;> cases hi
      · decide
      · cases hop
      · cases hop
    · refine ⟨fun i hi => ?_, fun i hi hop => ?_, fun i hi hop => ?_⟩ <;> cases hi
      · decide
      · cases hop
      · cases hop
  obtain ⟨-, -, -, hpools⟩ := stays_apart 8 (by decide) intruder ⟨rfl, by decide, by decide⟩ 2 horderly
  exact hpools 9 (by decide) (by decide)

end Machine

end PMachine
