import PMachine.Proofs.Expression
import PMachine.Proofs.Machine.Rounds
import PMachine.Proofs.Program.Fresh
import PMachine.Proofs.Program.Meaning

/-!
# Postfix code evaluates its expression

The code of an expression pushes its leaves and applies each operator to the cells on top. So it leaves
the value of the expression on the stack, above what was there before; or it stops at the first node, in
the order of the code, that has no value.

* `Machine.Computes`: what it is to leave a value on the stack.
* `Machine.Fails`: what it is to stop with a fault at one of the next instructions.
* `Machine.Stage`: a machine in front of the code of an expression.
* `Machine.Stage.settles`: one case for each kind of node.
* `Program.code_evaluates`: the code of an expression in a loaded program.
-/

namespace PMachine

namespace Machine

/-- The machine a number of instructions further, with one more cell on its stack. -/
def grown (m : Machine) (n : Nat) (cells : Array Cell) : Machine :=
  { m with pc := m.pc + n, sp := m.sp + 1, store := { m.store with cells } }

/-- These are the cells of a machine with a value on top of its stack, and changed nowhere else but
above it. -/
structure Leaves (depth : Nat) (c : Cell) (m : Machine) (cells : Array Cell) : Prop where
  size : cells.size = m.store.cells.size
  top : cells[(m.sp + 1).toNat]? = some c
  spared : ∀ a : Nat, (a : Int) ≤ m.sp ∨ m.sp + depth < a → cells[a]? = m.store.cells[a]?

/-- The next `n` instructions leave a value on the stack and do nothing else. -/
structure Computes (n depth : Nat) (c : Cell) (m : Machine) (cells : Array Cell) : Prop
    extends Leaves depth c m cells where
  run : m.execute n = m.grown n cells

/-- The machine stops with a fault at the instruction that comes after `i` others. -/
def Fails (i : Nat) (f : Fault) (m : Machine) : Prop :=
  ∀ n, i < n → (m.execute n).status = .failed (f.atAddress (m.pc + i))

variable {l : Limits} {p : Program} {s : Store} {m m₁ m' : Machine} {n k : Nat} {f : Fault} {c : Cell}
  {i : Instruction}

/-! ### One more instruction -/

/-- One more instruction is executed if the machine still runs and it is not the last one. -/
theorem execute_succ_of_ok (hrun : m.execute n = m₁) (hstatus : m₁.status = .running)
    (hclear : m₁.interrupted = false) (hi : m₁.code[m₁.pc]? = some i) (hop : i.op ≠ .stp)
    (h : perform i m₁.fetched = .ok () m') : m.execute (n + 1) = m' := by
  have hstep := step_of_ok hi h
  rw [decide_eq_true hop] at hstep
  rw [← execute_add, hrun, execute_of_running hstatus hclear, cycle_succ, hstep]
  rfl

/-- A machine fails where its next instruction does. -/
theorem fails_of_error (hrun : m.execute n = m₁) (hpc : m₁.pc = m.pc + n) (hstatus : m₁.status = .running)
    (hclear : m₁.interrupted = false) (hi : m₁.code[m₁.pc]? = some i)
    (h : perform i m₁.fetched = .error f m') : Fails n f m := by
  intro k hk
  -- the instruction at fault is the first of those that are left after `n`
  obtain ⟨d, rfl⟩ : ∃ d, k = n + (d + 1) := ⟨k - n - 1, by omega⟩
  rw [← execute_add, hrun, execute_of_running hstatus hclear, cycle_succ, step_of_error hi h]
  show Status.failed (f.atAddress m₁.pc) = .failed (f.atAddress (m.pc + n))
  rw [hpc]

/-- A machine that fails after some instructions fails after those before them too. -/
theorem Fails.after (h : Fails k f m₁) (hrun : m.execute n = m₁) (hpc : m₁.pc = m.pc + n) :
    Fails (n + k) f m := by
  intro j hj
  obtain ⟨d, rfl⟩ : ∃ d, j = n + d := ⟨j - n, by omega⟩
  rw [← execute_add, hrun, h d (by omega), hpc, Nat.add_assoc]

/-! ### The instructions of an expression -/

/-- No instruction of an expression stops the machine. -/
theorem ne_stp_of_encodes {e : Expression} (h : e.Encodes l p i) : i.op ≠ .stp := by
  cases e with
  | integer n =>
    rcases h with rfl | ⟨kind, a, rfl, -⟩
    · exact Opcode.noConfusion
    · exact Opcode.noConfusion
  | truth b => rw [h.1]; exact Opcode.noConfusion
  | globalVariable q => rw [h.1]; exact Opcode.noConfusion
  | localVariable levels q => rw [show i = _ from h]; exact Opcode.noConfusion
  | unary o e =>
    have ho : i.op = o.opcode := h
    rw [ho]
    cases o <;> exact Opcode.noConfusion
  | binary o left right =>
    rw [h.1]
    cases o with
    | compare r => cases r <;> exact Opcode.noConfusion
    | add | subtract | multiply | divide | modulo | and | or => exact Opcode.noConfusion

/-- A variable is loaded from its cell, which must have a value. -/
theorem load_variable (b : Nat) (q : Word) :
    (offset b q.toInt >>= loadFrom) m = (Action.lift (m.store.variableValue b q) >>= push) m := by
  unfold Store.variableValue
  rw [Action.bind_apply, offset]
  cases Address.offset? b q.toInt with
  | none => rfl
  | some a =>
    have hread : read a m = Action.lift (m.store.read a) m := rfl
    simp only [Action.orFault_some]
    rw [loadFrom, Action.bind_apply, load, Action.bind_apply, hread, Action.bind_apply]
    cases hc : m.store.read a with
    | error f => rfl
    | ok c => rfl

/-- The load of a variable some frames out. -/
theorem perform_lod (levels : Nat) (q : Word) : perform ⟨.lod, levels, q⟩ m =
    (Action.lift ((Expression.localVariable levels q).value m.store m.mp) >>= push) m := by
  cases hb : m.store.linked levels m.mp with
  | error f =>
    have hvalue : (Expression.localVariable levels q).value m.store m.mp = .error f := by
      rw [Expression.value_localVariable, hb]; rfl
    have hbase : base levels m = .error f m := by rw [base_eq, hb, Action.lift_error]
    have hplace : variableAt levels q m = .error f m := Action.bind_of_error hbase
    have hrun : perform ⟨.lod, levels, q⟩ m = (variableAt levels q >>= loadFrom) m := rfl
    rw [hrun, Action.bind_of_error hplace, hvalue, Action.bind_of_error (Action.lift_error f m)]
  | ok b =>
    have hvalue : (Expression.localVariable levels q).value m.store m.mp = m.store.variableValue b q := by
      rw [Expression.value_localVariable, hb]; rfl
    rw [perform_of_base (by decide) (base_eq_ok.2 hb) q, hvalue]
    exact load_variable b q

/-- The instruction of a unary operator applies it to the top cell. -/
theorem perform_unary {o : UnaryOperator} (h : i.op = o.opcode) : perform i m = unary o.apply m := by
  obtain ⟨op, x, q⟩ := i
  simp only at h
  subst h
  cases o <;> rfl

/-- The instruction of a binary operator applies it to the two top cells. -/
theorem perform_binary {o : BinaryOperator} {c d : Cell} (h : i.op = o.opcode)
    (hletter : ∀ r, o = .compare r → Instruction.comparands[i.p]? = some 'I')
    (hright : m.top? = some d) (hleft : m.popped.top? = some c) : perform i m = binary o.apply m := by
  obtain ⟨op, x, q⟩ := i
  simp only at h hletter
  subst h
  cases o with
  | add | subtract | multiply | divide | modulo | and | or => rfl
  | compare r =>
    -- only the comparison of blocks looks beyond the two cells
    have hx : x ≠ Instruction.multiple := by
      rintro rfl
      have hI := hletter r rfl
      exact absurd hI (by decide)
    have hrun : perform ⟨r.opcode, x, q⟩ m = compare r x q m := by cases r <;> rfl
    exact hrun.trans (compare_eq r hx q hright hleft)

/-! ### Stages -/

/-- A machine in front of the code of an expression, with room for what its computation needs. The
variables stand in the stack, and they are as they are in `s`. -/
structure Stage (l : Limits) (p : Program) (s : Store) (e : Expression) (m : Machine) : Prop where
  ready : m.Ready l p
  running : m.status = .running
  clear : m.interrupted = false
  code : e.StandsAt l p m.pc
  room : m.sp + e.depth < m.np
  low : ∀ a ∈ e.cells s m.mp, (a : Int) ≤ m.sp
  same : ∀ a ∈ e.cells s m.mp, m.store.cells[a]? = s.cells[a]?

/-- The code of the expression does what it is to do: it leaves the value on the stack, or it stops at
the first node without one. -/
structure Settles (s : Store) (e : Expression) (m : Machine) : Prop where
  ok : ∀ c, e.value s m.mp = .ok c → ∃ cells, Computes e.size e.depth c m cells
  error : ∀ f, e.value s m.mp = .error f → ∃ i, e.FailsFirst s m.mp i f ∧ Fails i f m

/-- A machine with a value on top is ready for the rest of the program. -/
theorem Leaves.ready {depth : Nat} {cells : Array Cell} (h : Leaves depth c m cells)
    (hm : m.Ready l p) (hroom : m.sp + depth < m.np) (hmore : m.sp + 2 < m.np) :
    (m.grown n cells).Ready l p := by
  have hheap := hm.heap
  have hbottom := hm.bottom
  refine ⟨hm.code, h.size.trans hm.size, fun a ha => ?_, ?_, ?_, hheap⟩
  · have hpool : m.store.cells[a]? = p.store.cells[a]? := hm.pools a ha
    rw [← hpool]
    exact h.spared a (Or.inr (by omega))
  · simp only [grown]; omega
  · simp only [grown]; omega

/-- What an expression leaves is on top of the stack. -/
theorem Leaves.top?_eq {depth : Nat} {cells : Array Cell} (h : Leaves depth c m cells)
    (hbottom : -1 ≤ m.sp) : (m.grown n cells).top? = some c := by
  have hlow : 0 ≤ (m.grown n cells).sp := by simp only [grown]; omega
  rw [top?, if_pos hlow]
  exact h.top

/-- A value is put on top, or in place of what was computed above the stack. -/
theorem Leaves.put (depth : Nat) {depth' : Nat} {cells : Array Cell} (hbottom : -1 ≤ m.sp)
    (hlt : m.sp + 1 < m.store.cells.size) (hdepth : 0 < depth')
    (hsize : cells.size = m.store.cells.size)
    (hspared : ∀ a : Nat, (a : Int) ≤ m.sp ∨ m.sp + depth < a → cells[a]? = m.store.cells[a]?)
    (hle : depth ≤ depth') (d : Cell) :
    Leaves depth' d m (cells.setIfInBounds (m.sp + 1).toNat d) := by
  refine ⟨by rw [Array.size_setIfInBounds, hsize], ?_, fun a ha => ?_⟩
  · exact Array.getElem?_setIfInBounds_self_of_lt (by omega)
  · rw [Array.getElem?_setIfInBounds_ne (by omega)]
    exact hspared a (by omega)

/-- If an operand has no value and what comes before it has, then the expression fails where the
operand does. -/
theorem Settles.of_operand {e operand : Expression} (before after : List Expression) (m₁ : Machine)
    (hnodes : e.nodes = before ++ operand.nodes ++ after)
    (hbefore : ∀ b ∈ before, ∃ c, b.value s m.mp = .ok c) (hrun : m.execute before.length = m₁)
    (hpc : m₁.pc = m.pc + before.length) (hmp : m₁.mp = m.mp) (h : Settles s operand m₁)
    (hv : operand.value s m.mp = .error f) (hvalue : e.value s m.mp = .error f) : Settles s e m := by
  refine ⟨fun c hc => ?_, fun g hg => ?_⟩
  · rw [hvalue] at hc
    cases hc
  · rw [hvalue] at hg
    cases hg
    obtain ⟨j, hfirst, hfails⟩ := h.error f (by rw [hmp]; exact hv)
    rw [hmp] at hfirst
    exact ⟨before.length + j, hfirst.append before after hnodes hbefore, hfails.after hrun hpc⟩

/-- If what comes before the last node has values, then the last instruction decides. -/
theorem Stage.settles_last {e : Expression} (h : Stage l p s e m) (before : List Expression) (m₁ : Machine)
    (hnodes : e.nodes = before ++ [e]) (hbefore : ∀ b ∈ before, ∃ c, b.value s m.mp = .ok c)
    (hrun : m.execute before.length = m₁) (hpc : m₁.pc = m.pc + before.length)
    (hcode : m₁.code = m.code) (hstatus : m₁.status = .running) (hclear : m₁.interrupted = false)
    (hok : ∀ i d, e.Encodes l p i → e.value s m.mp = .ok d →
      ∃ cells, perform i m₁.fetched = .ok () (m.grown e.size cells) ∧ Leaves e.depth d m cells)
    (herror : ∀ i f, e.Encodes l p i → e.value s m.mp = .error f →
      ∃ m', perform i m₁.fetched = .error f m') : Settles s e m := by
  obtain ⟨i, hi, hencodes⟩ := h.code.last before hnodes
  have hi : m₁.code[m₁.pc]? = some i := by
    rw [hcode, h.ready.code, hpc]
    exact hi
  have hsize : e.size = before.length + 1 := by
    rw [← Expression.length_nodes, hnodes, List.length_append, List.length_singleton]
  constructor
  · intro d hd
    obtain ⟨cells, hperform, hleaves⟩ := hok i d hencodes hd
    refine ⟨cells, hleaves, ?_⟩
    rw [hsize] at hperform ⊢
    exact execute_succ_of_ok hrun hstatus hclear hi (ne_stp_of_encodes hencodes) hperform
  · intro f hf
    obtain ⟨m', hperform⟩ := herror i f hencodes hf
    exact ⟨before.length, Expression.failsFirst_last before hnodes hbefore hf,
      fails_of_error hrun hpc hstatus hclear hi hperform⟩

/-! ### Nodes -/

/-- A leaf is pushed if it has a value. -/
theorem Stage.settles_leaf {e : Expression} (h : Stage l p s e m)
    (hsize : p.store.size < 0x8000000000000000) (hlimit : l.stackSize < p.store.size)
    (hnodes : e.nodes = [] ++ [e])
    (hrun : ∀ i, e.Encodes l p i →
      perform i m.fetched = (Action.lift (e.value s m.mp) >>= push) m.fetched) : Settles s e m := by
  have hbottom := h.ready.bottom
  have hroom := h.ready.room
  have hheap := h.ready.heap
  have hcells : m.store.cells.size = p.store.size := h.ready.size
  have hone : e.size = 1 := by rw [← Expression.length_nodes, hnodes]; rfl
  refine h.settles_last [] m hnodes nofun (execute_zero h.clear) rfl rfl h.running h.clear ?_ ?_
  · intro i c hencodes hc
    have hpush : push c m.fetched = .ok () (m.fetched.pushed c) :=
      push_eq (m := m.fetched) hbottom hroom (by simp only [fetched]; omega)
        (by simp only [fetched]; omega) c
    have hperform := hrun i hencodes
    rw [hc, Action.bind_of_ok (Action.lift_ok c m.fetched), hpush] at hperform
    rw [hone]
    exact ⟨_, hperform, Leaves.put 0 hbottom (by omega) e.depth_pos rfl (fun _ _ => rfl)
      (Nat.zero_le _) c⟩
  · intro i f hencodes hf
    have hperform := hrun i hencodes
    rw [hf, Action.bind_of_error (Action.lift_error f m.fetched)] at hperform
    exact ⟨m.fetched, hperform⟩

/-- An operator on one operand replaces its value on top. -/
theorem Stage.settles_unary {o : UnaryOperator} {e : Expression} (h : Stage l p s (.unary o e) m)
    (ih : ∀ {m}, Stage l p s e m → Settles s e m) : Settles s (.unary o e) m := by
  have hbottom := h.ready.bottom
  have hsettles := ih ⟨h.ready, h.running, h.clear,
    h.code.part [] [.unary o e] rfl, h.room, h.low, h.same⟩
  cases hv : e.value s m.mp with
  | error g =>
    exact .of_operand [] [.unary o e] m rfl nofun (execute_zero h.clear) rfl rfl
      hsettles hv (Expression.value_unary_of_error hv)
  | ok c =>
    obtain ⟨cells, hc⟩ := hsettles.ok c hv
    have hvalue := Expression.value_unary_of_ok (o := o) hv
    have htop : (m.grown e.size cells).fetched.top? = some c := hc.top?_eq (n := e.size) hbottom
    have hlt : (m.sp + 1).toNat < cells.size := (Array.getElem?_eq_some_iff.1 hc.top).1
    have hsize := hc.size
    refine h.settles_last e.nodes (m.grown e.size cells) rfl
      (Expression.value_of_mem_nodes hv) (by rw [e.length_nodes]; exact hc.run)
      (by rw [e.length_nodes]; rfl) rfl h.running h.clear ?_ ?_
    · intro i d hencodes hd
      rw [hvalue] at hd
      exact ⟨_, (perform_unary hencodes).trans (unary_eq htop hd),
        Leaves.put e.depth hbottom (by omega) e.depth_pos hc.size hc.spared (Nat.le_refl _) d⟩
    · intro i f hencodes hf
      rw [hvalue] at hf
      exact ⟨_, (perform_unary hencodes).trans (unary_error htop hf)⟩

/-- The right operand is computed above the value of the left one. -/
theorem Stage.right {o : BinaryOperator} {left right : Expression} {cells : Array Cell}
    (h : Stage l p s (.binary o left right) m) (hleft : Leaves left.depth c m cells) :
    Stage l p s right (m.grown left.size cells) := by
  have hroom := h.room
  have hpos := right.depth_pos
  unfold Expression.depth at hroom
  have hmem : ∀ a ∈ right.cells s m.mp, a ∈ (Expression.binary o left right).cells s m.mp :=
    fun a ha => List.mem_append_right _ ha
  -- the left operand has changed cells above the old top only, and no variable stands there
  refine ⟨hleft.ready h.ready (by omega) (by omega), h.running, h.clear, ?_, ?_, fun a ha => ?_,
    fun a ha => ?_⟩
  · have hpart := h.code.part left.nodes [.binary o left right] rfl
    rw [Expression.length_nodes] at hpart
    exact hpart
  · simp only [grown]; omega
  · have hlow := h.low a (hmem a ha)
    simp only [grown]; omega
  · have hlow := h.low a (hmem a ha)
    have hsame : cells[a]? = m.store.cells[a]? := hleft.spared a (Or.inl hlow)
    exact hsame.trans (h.same a (hmem a ha))

/-- An operator on two operands replaces their values on top. -/
theorem Stage.settles_binary {o : BinaryOperator} {left right : Expression}
    (h : Stage l p s (.binary o left right) m)
    (ihleft : ∀ {m}, Stage l p s left m → Settles s left m)
    (ihright : ∀ {m}, Stage l p s right m → Settles s right m) :
    Settles s (.binary o left right) m := by
  have hbottom := h.ready.bottom
  have hroom := h.room
  have hpos := (Expression.binary o left right).depth_pos
  have hdepth : (Expression.binary o left right).depth = max left.depth (right.depth + 1) := rfl
  have hnodes : (Expression.binary o left right).nodes =
      [] ++ left.nodes ++ (right.nodes ++ [.binary o left right]) := List.append_assoc ..
  have hsettles := ihleft ⟨h.ready, h.running, h.clear, h.code.part [] _ hnodes, by omega,
    fun a ha => h.low a (List.mem_append_left _ ha), fun a ha => h.same a (List.mem_append_left _ ha)⟩
  cases hv : left.value s m.mp with
  | error g =>
    exact .of_operand [] _ m hnodes nofun (execute_zero h.clear) rfl rfl hsettles hv
      (Expression.value_binary_of_error hv)
  | ok c =>
    obtain ⟨cells, hc⟩ := hsettles.ok c hv
    have hvalues := Expression.value_of_mem_nodes hv
    have hsettles' := ihright (h.right hc.toLeaves)
    cases hw : right.value s m.mp with
    | error g =>
      exact .of_operand left.nodes [.binary o left right] (m.grown left.size cells) rfl hvalues
        (by rw [left.length_nodes]; exact hc.run) (by rw [left.length_nodes]; rfl) rfl hsettles' hw
        (Expression.value_binary_of_right hv hw)
    | ok d =>
      have hvalue := Expression.value_binary_of_ok (o := o) hv hw
      obtain ⟨cells', hd⟩ := hsettles'.ok d hw
      have hrun : m.execute (left.size + right.size) =
          (m.grown left.size cells).grown right.size cells' := by
        rw [← execute_add, hc.run, hd.run]
      -- both values are on the stack, the left one below the right one
      have hright : ((m.grown left.size cells).grown right.size cells').fetched.top? = some d :=
        hd.top?_eq (n := right.size) (by simp only [grown]; omega)
      have hleft : ((m.grown left.size cells).grown right.size cells').fetched.popped.top? = some c := by
        have hsame : cells'[(m.sp + 1).toNat]? = cells[(m.sp + 1).toNat]? :=
          hd.spared _ (Or.inl (by simp only [grown]; omega))
        have hsp : ((m.grown left.size cells).grown right.size cells').fetched.popped.sp = m.sp + 1 := by
          simp only [popped, fetched, grown]; omega
        rw [top?, hsp, if_pos (by omega)]
        exact hsame.trans hc.top
      have hsize : cells'.size = m.store.cells.size := hd.size.trans hc.size
      have hlt : (m.sp + 1).toNat < cells.size := (Array.getElem?_eq_some_iff.1 hc.top).1
      have hsize' := hc.size
      have hspared : ∀ a : Nat, (a : Int) ≤ m.sp ∨
          m.sp + (Expression.binary o left right).depth < a → cells'[a]? = m.store.cells[a]? := by
        intro a ha
        have hone : cells'[a]? = cells[a]? := hd.spared a (by simp only [grown]; omega)
        exact hone.trans (hc.spared a (by omega))
      have hlength : (left.nodes ++ right.nodes).length = left.size + right.size := by
        rw [List.length_append, left.length_nodes, right.length_nodes]
      refine h.settles_last (left.nodes ++ right.nodes)
        ((m.grown left.size cells).grown right.size cells') rfl ?_ (by rw [hlength]; exact hrun)
        (by rw [hlength]; exact Nat.add_assoc ..) rfl h.running h.clear ?_ ?_
      · intro b hb
        rcases List.mem_append.1 hb with hb | hb
        · exact hvalues b hb
        · exact Expression.value_of_mem_nodes hw b hb
      · intro i r hencodes hr
        rw [hvalue] at hr
        have hperform := (perform_binary hencodes.1 hencodes.2 hright hleft).trans (binary_eq hright hleft hr)
        refine ⟨_, hperform.trans ?_, Leaves.put _ hbottom (by omega) hpos hsize hspared (Nat.le_refl _) r⟩
        have hpc : m.pc + left.size + right.size + 1 = m.pc + (left.size + right.size + 1) := by omega
        have hsp : m.sp + 1 + 1 - 1 = m.sp + 1 := by omega
        simp only [replaced, popped, fetched, grown, hpc, hsp]
        rfl
      · intro i f hencodes hf
        rw [hvalue] at hf
        exact ⟨_, (perform_binary hencodes.1 hencodes.2 hright hleft).trans (binary_error hright hleft hf)⟩

/-- **The code of an expression settles it.** -/
theorem Stage.settles (hsize : p.store.size < 0x8000000000000000) (hlimit : l.stackSize < p.store.size)
    {e : Expression} : ∀ {m}, Stage l p s e m → Settles s e m := by
  -- one case for each kind of node; an operand is followed from the machine that its code starts in
  induction e with
  | integer n =>
    intro m h
    refine h.settles_leaf hsize hlimit rfl fun i hencodes => ?_
    rcases hencodes with rfl | ⟨kind, a, rfl, ha, hcell⟩
    · rfl
    · have hlt : a < p.store.cells.size := (Array.getElem?_eq_some_iff.1 hcell).1
      have hstore : m.fetched.store.cells[a]? = some (.int n) := (h.ready.pools a ha).trans hcell
      exact perform_lci (hlt.trans hsize) hstore
  | truth b =>
    intro m h
    refine h.settles_leaf hsize hlimit rfl fun i hencodes => ?_
    obtain ⟨op, x, q⟩ := i
    obtain ⟨hop, hx, hb⟩ := hencodes
    simp only at hop hx hb
    subst hop hx hb
    rfl
  | globalVariable q =>
    intro m h
    refine h.settles_leaf hsize hlimit rfl fun i hencodes => ?_
    obtain ⟨op, x, q'⟩ := i
    obtain ⟨hop, hq⟩ := hencodes
    simp only at hop hq
    subst hop hq
    have hsame := Store.variableValue_congr (q := q') fun a ha => h.same a (Option.mem_toList.2 ha)
    have hrun : perform ⟨.ldo, x, q'⟩ m.fetched = (offset 0 q'.toInt >>= loadFrom) m.fetched := rfl
    rw [hrun, load_variable, show m.fetched.store = m.store from rfl, hsame]
    rfl
  | localVariable levels q =>
    intro m h
    refine h.settles_leaf hsize hlimit rfl fun i hencodes => ?_
    have hi : i = ⟨.lod, levels, q⟩ := hencodes
    subst hi
    rw [perform_lod]
    exact congrArg (fun r => (Action.lift r >>= push) m.fetched)
      (Expression.value_localVariable_congr h.same)
  | unary o e ih =>
    intro m h
    exact h.settles_unary ih
  | binary o left right ihleft ihright =>
    intro m h
    exact h.settles_binary ihleft ihright

end Machine

namespace Program

open Entry

variable {l : Limits} {text : Source} {p : Program} {rest : List UInt8}

/-- The code of an expression stands where its lines do, in a program that takes no address twice. -/
theorem standsAt_of_lines (h : load l text = .ok (p, rest)) (hd : (addresses (layout text.bytes)).Nodup)
    (hcode : min l.codeSize (mainStart + text.bytes.length) ≤ 0x8000000000000000)
    {e : Expression} {a : Nat}
    (hlines : ∀ j d, e.nodes[j]? = some d → ∃ line ∈ layout text.bytes, line.address = a + j ∧
      ∃ st, line.statement? = some st ∧
        ((∃ n, d = .integer n ∧ st = .integer n) ∨ ∃ i, st = .plain i ∧ d.Encodes l p i)) :
    e.StandsAt l p a := by
  obtain ⟨s, hs, rfl⟩ := load_induction (Assembly.survives_follows (apart_layout (meet_of_nodup hd) hcode))
    (fun _ => ⟨Assembly.follows_start l, by simp [addresses]⟩) h
  obtain ⟨hfol, -⟩ := hs List.prefix_rfl
  intro j d hnode
  obtain ⟨line, hline, haddress, st, hst, hwrites⟩ := hlines j d hnode
  obtain ⟨before, after, hsplit⟩ := List.append_of_mem hline
  have hi := hfol.code before line after st hsplit hst
  rw [haddress] at hi
  rcases hwrites with ⟨n, rfl, rfl⟩ | ⟨i, rfl, hencodes⟩
  · refine ⟨_, hi, ?_⟩
    unfold Expression.Encodes
    by_cases hn : Statement.largestInline < n.toInt.natAbs
    · -- a large integer is loaded from the pool, where it has been since its line was read
      have hcon : (Statement.integer n).constant? = some (.integer n) := by
        rw [Statement.constant?, if_pos hn]
      have hheld := hfol.store
      rw [hsplit, constants_split hst hcon] at hheld
      have hread := hheld.read_eq (i := 0) Nat.one_pos
      refine Or.inr ⟨1, (Constant.integer n).address l (constants before), ?_, ?_, ?_⟩
      · simp only [Statement.instruction, Statement.op, if_pos hn, Statement.p, Statement.q, hcon]
      · have hstart := l.stackSize_lt_poolStart .integer
        have hhigh : l.poolStart .integer ≤ (Constant.integer n).address l (constants before) :=
          Nat.le_add_right_of_le (Nat.le_add_right _ _)
        omega
      · unfold Store.read at hread
        split at hread
        · rename_i c hc
          cases hread
          exact hc
        · cases hread
    · have hcon : (Statement.integer n).constant? = none := by rw [Statement.constant?, if_neg hn]
      refine Or.inl ?_
      simp only [Statement.instruction, Statement.op, if_neg hn, Statement.p, Statement.q, hcon]
  · exact ⟨i, hi, hencodes⟩

/-- **Postfix code evaluates its expression.** The machine comes to the code with the pools as they
were loaded, with room for the cells that the computation needs at a time, and with the variables and
the links that lead to them in the stack. If the expression has a value, the machine reaches the end of
the code with this value on top of the stack, and nothing else has changed but cells above the value. If
it has none, the machine stops at the first node without one. Addresses are words of 64 bits, so the
store has less than `2 ^ 63` cells. -/
theorem code_evaluates (l : Limits) (text : Source) (p : Program) (rest : List UInt8)
    (h : load l text = .ok (p, rest)) (hstore : p.store.size < 0x8000000000000000) (e : Expression)
    (a : Nat) (hcode : e.StandsAt l p a) (m : Machine) (hm : m.Ready l p) (hrunning : m.status = .running)
    (hclear : m.interrupted = false) (hpc : m.pc = a) (hroom : m.sp + e.depth < m.np)
    (hlow : ∀ b ∈ e.cells m.store m.mp, (b : Int) ≤ m.sp) :
    (∀ c, e.value m.store m.mp = .ok c → ∃ cells,
      m.execute e.size =
        { m with pc := a + e.size, sp := m.sp + 1, store := { m.store with cells } } ∧
      cells.size = m.store.cells.size ∧ cells[(m.sp + 1).toNat]? = some c ∧
      ∀ b : Nat, (b : Int) ≤ m.sp ∨ m.sp + e.depth < b → cells[b]? = m.store.cells[b]?) ∧
    ∀ f, e.value m.store m.mp = .error f → ∃ i, e.FailsFirst m.store m.mp i f ∧
      ∀ n, i < n → (m.execute n).status = .failed (f.atAddress (a + i)) := by
  subst hpc
  have hlimit : l.stackSize < p.store.size := by
    have hstack := (fresh_of_load h).stack
    rw [limits_of_load h] at hstack
    exact hstack
  have hsettles : Machine.Settles m.store e m :=
    Machine.Stage.settles hstore hlimit ⟨hm, hrunning, hclear, hcode, hroom, hlow, fun _ _ => rfl⟩
  constructor
  · intro c hc
    obtain ⟨cells, ⟨hsize, htop, hspared⟩, hrun⟩ := hsettles.ok c hc
    exact ⟨cells, hrun, hsize, htop, hspared⟩
  · exact hsettles.error

/-- A startup part that compares the sum of an integer and a variable with another variable. -/
def sumText : List Char := "\n LDC I 600000\n LDO 2\n ADI\n LOD 0 3\n GRT I\n STP\n".toList

/-- Limits with room for the integer. -/
def sumLimits : Limits := { stackSize := 8, pools := { integer := 1 }, codeSize := 8, maxLabel := 0 }

/-- What is computed there. -/
def sumExpression : Expression :=
  .binary (.compare .greater) (.binary .add (.integer 600000) (.globalVariable 2)) (.localVariable 0 3)

/-- The program of this text. -/
def sumProgram : Program where
  code := #[⟨.lci, 1, 9⟩, ⟨.ldo, 0, 2⟩, ⟨.adi, 0, 0⟩, ⟨.lod, 0, 3⟩, ⟨.grt, 1, 0⟩, ⟨.stp, 0, 0⟩]
  store := ⟨sumLimits, Array.replicate 9 .undefined ++ #[.int 600000], { integer := 1 }⟩

/-- A machine in front of its code, with values in the two variables. -/
def sumMachine : Machine where
  pc := 0
  mp := 0
  sp := 4
  np := 9
  code := sumProgram.code
  store := { sumProgram.store with
    cells := (sumProgram.store.cells.setIfInBounds 2 (.int 5)).setIfInBounds 3 (.int 7) }
  files := default

theorem load_sumText : load sumLimits ⟨Lines.encode sumText, none⟩ = .ok (sumProgram, []) := by
  decide +kernel

theorem sumExpression_standsAt : sumExpression.StandsAt sumLimits sumProgram 0 := by
  refine standsAt_of_lines load_sumText (by decide +kernel) (by decide +kernel) fun j d hd => ?_
  rcases j with _ | _ | _ | _ | _ | j <;> cases hd
  · exact ⟨⟨2, 0, " LDC I 600000".toList⟩, by decide +kernel, rfl, .integer 600000, by decide +kernel,
      Or.inl ⟨_, rfl, rfl⟩⟩
  · exact ⟨⟨3, 1, " LDO 2".toList⟩, by decide +kernel, rfl, .plain ⟨.ldo, 0, 2⟩, by decide +kernel,
      Or.inr ⟨_, rfl, rfl, rfl⟩⟩
  · exact ⟨⟨4, 2, " ADI".toList⟩, by decide +kernel, rfl, .plain ⟨.adi, 0, 0⟩, by decide +kernel,
      Or.inr ⟨_, rfl, rfl, nofun⟩⟩
  · exact ⟨⟨5, 3, " LOD 0 3".toList⟩, by decide +kernel, rfl, .plain ⟨.lod, 0, 3⟩, by decide +kernel,
      Or.inr ⟨_, rfl, rfl⟩⟩
  · exact ⟨⟨6, 4, " GRT I".toList⟩, by decide +kernel, rfl, .plain ⟨.grt, 1, 0⟩, by decide +kernel,
      Or.inr ⟨_, rfl, rfl, fun _ _ => rfl⟩⟩

theorem code_evaluates_sumText : sumExpression.value sumMachine.store sumMachine.mp = .ok (.bool true) ∧
    (sumMachine.execute 5).pc = 5 ∧ (sumMachine.execute 5).sp = 5 ∧
    (sumMachine.execute 5).top? = some (.bool true) := by
  have hvalue : sumExpression.value sumMachine.store sumMachine.mp = .ok (.bool true) := by decide +kernel
  have hpools : ∀ a, sumLimits.stackSize < a →
      sumMachine.store.cells[a]? = sumProgram.store.cells[a]? := by
    intro a ha
    have hlow : sumLimits.stackSize = 8 := rfl
    simp only [sumMachine]
    rw [Array.getElem?_setIfInBounds_ne (by omega), Array.getElem?_setIfInBounds_ne (by omega)]
  have hready : sumMachine.Ready sumLimits sumProgram :=
    ⟨rfl, by decide +kernel, hpools, by decide +kernel, by decide +kernel, by decide +kernel⟩
  obtain ⟨hok, -⟩ := code_evaluates sumLimits ⟨Lines.encode sumText, none⟩ sumProgram [] load_sumText
    (by decide +kernel) sumExpression 0 sumExpression_standsAt sumMachine hready rfl rfl rfl
    (by decide +kernel) (by decide +kernel)
  obtain ⟨cells, hrun, -, htop, -⟩ := hok _ hvalue
  have hrun : sumMachine.execute 5 = _ := hrun
  rw [hrun]
  exact ⟨hvalue, rfl, rfl, htop⟩

end Program

end PMachine
