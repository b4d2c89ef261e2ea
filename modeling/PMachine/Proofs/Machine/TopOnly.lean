import PMachine.Proofs.Machine.Steady
import PMachine.Proofs.TextInput

/-!
# Expressions touch the top of the stack

Most instructions work out a value. They look at cells and registers as they like, take operands from the
stack and put one result there, and this they do last. So a fault finds all cells as they were, and without
one there is at most one changed cell, whose place is known beforehand. A test for the end of a file may
fetch a line, which nobody sees who reads the file afterwards.

* `Opcode.reaching`, `Opcode.shift`, `Opcode.depth`: the other instructions, by how much these ones move the
  top of the stack, and how far below it they put their result.
* `TextInput.readsAs_atEnd`: a test for the end of a file does not show.
* `Machine.TouchesOnly`: what two machines have in common.
* `Machine.Calm`, `Machine.TopOnly`: before the result is put in its place, and after.
* `Machine.step_topOnly`: what a step changes.
-/

namespace PMachine

open PMachine.Action (Keeps)

theorem Action.after_zoom {σ τ α : Type} [Inhabited τ] (part : σ → τ) (put : τ → σ → σ)
    (act : Action τ α) (s : σ) :
    (zoom part put act).after s = put (act.after (part s)) (put default s) := by
  cases hrun : act (part s) with
  | ok a t => rw [after_of_ok (zoom_of_ok hrun), after_of_ok hrun]
  | error f t => rw [after_of_error (zoom_of_error hrun), after_of_error hrun]

namespace Opcode

/-- The operations that store, call, return or run a standard procedure, and the one that stops. -/
def reaching : List Opcode := [.str, .sro, .sto, .mov, .mst, .cup, .ent, .ret, .csp, .stp]

/-- By how much an operation moves the top of the stack. -/
def shift : Opcode → Int
  | lod | ldo | lda | lao | ldc | lci | lca => 1
  | adi | adr | sbi | sbr | and | ior | dif | int | uni | inn | mod | mpi | mpr | dvi | dvr => -1
  | equ | neq | geq | grt | leq | les => -1
  | ixa | fjp | xjp => -1
  | _ => 0

/-- How far below the top an operation puts its result. -/
def depth : Opcode → Nat
  | flo => 1
  | _ => 0

end Opcode

/-! ### Files -/

namespace TextInput

/-- Unless the source fails, every sequence of calls gets the same answers from the file in two states. -/
def ReadsAs (t t' : TextInput) : Prop :=
  t.source.failure = none → ∀ calls,
    TextCall.answers TextCall.onFile calls t' = TextCall.answers TextCall.onFile calls t

theorem ReadsAs.refl (t : TextInput) : t.ReadsAs t := fun _ _ => rfl

/-- **A test for the end does not show.** A line that it fetches is there for those who read later. -/
theorem readsAs_atEnd (t : TextInput) : t.ReadsAs (atEnd.after t) := by
  intro hfailure calls
  cases hended : t.ended with
  | true =>
    -- a file that was seen to be at its end fetches nothing, whatever its state is
    have hfill : fill t = .ok () t := by
      rw [fill, hended, Bool.not_true, Bool.and_false, if_neg Bool.false_ne_true]
    have hafter : atEnd.after t = t := by
      have hpeek : peekByte t = .ok t.line.head? t := by
        rw [peekByte, Action.bind_of_ok hfill]
        rfl
      exact Action.after_of_ok (Action.bind_of_ok hpeek)
    rw [hafter]
  | false =>
    have ht : t.Steady := ⟨hfailure, fun h => by rw [hended] at h; cases h⟩
    obtain ⟨t', hpeek, ht', hview, -⟩ := peekByte_view ht
    have hafter : atEnd.after t = t' := Action.after_of_ok (Action.bind_of_ok hpeek)
    rw [hafter, TextCall.answers_view calls t' ht', hview, TextCall.answers_view calls t ht]

end TextInput

namespace Files

/-- The files are written as before, and what is read from them is the same. -/
structure ReadAs (f f' : Files) : Prop where
  input : f.input.ReadsAs f'.input
  output : f'.output = f.output
  prd : f.prd.ReadsAs f'.prd
  prr : f'.prr = f.prr

theorem ReadAs.refl (f : Files) : f.ReadAs f := ⟨.refl _, rfl, .refl _, rfl⟩

theorem readAs_atEnd (file : Nat) (f : Files) : f.ReadAs ((atEnd file).after f) := by
  cases hch : Channel.ofNumber file with
  | error fault =>
    have hafter : (atEnd file).after f = f := by
      unfold atEnd
      rw [hch]
      rfl
    rw [hafter]
    exact .refl f
  | ok ch =>
    cases ch with
    | input =>
      have hact : atEnd file = TextInput.atEnd.zoom (·.input) fun input f => { f with input } := by
        unfold atEnd reading
        rw [hch]
        rfl
      rw [hact, Action.after_zoom]
      exact ⟨TextInput.readsAs_atEnd f.input, rfl, .refl _, rfl⟩
    | prd =>
      have hact : atEnd file = TextInput.atEnd.zoom (·.prd) fun prd f => { f with prd } := by
        unfold atEnd reading
        rw [hch]
        rfl
      rw [hact, Action.after_zoom]
      exact ⟨.refl _, rfl, TextInput.readsAs_atEnd f.prd, rfl⟩
    | output | prr =>
      have hafter : (atEnd file).after f = f := by
        unfold atEnd
        rw [hch]
        rfl
      rw [hafter]
      exact .refl f

end Files

namespace Machine

variable {m m₁ : Machine}

/-- Two machines differ in the cells of `P` at most. They have one frame and one heap, and nobody sees a
difference of their files. -/
structure TouchesOnly (P : Nat → Prop) (m m' : Machine) : Prop where
  mp : m'.mp = m.mp
  np : m'.np = m.np
  size : m'.store.cells.size = m.store.cells.size
  cells : ∀ a, ¬ P a → m'.store.cells[a]? = m.store.cells[a]?
  files : m.files.ReadAs m'.files

/-- Nothing was put in a cell yet, and the top of the stack was moved by `d`. -/
structure Calm (m : Machine) (d : Int) (m₁ : Machine) : Prop where
  touches : TouchesOnly (fun _ => False) m m₁
  sp : m₁.sp = m.sp + d

/-- From `m₁` on, an action changes nothing of `m` but the cell `k` below the top, which it leaves where `m`
has it moved by `s`. If it fails it changes no cell. -/
structure TopOnly (m : Machine) (s : Int) (k : Nat) (act : Action Machine Unit) (m₁ : Machine) : Prop where
  ok : ∀ u m', act m₁ = .ok u m' → m'.sp = m.sp + s ∧ TouchesOnly (fun a => (a : Int) = m'.sp - k) m m'
  fault : ∀ f m', act m₁ = .error f m' → TouchesOnly (fun _ => False) m m'

variable {α : Type} {d s : Int} {k : Nat}

/-- A cell that is changed last. -/
theorem Calm.set (h : Calm m d m₁) {a : Nat} (ha : (a : Int) = m₁.sp - k) (c : Cell) :
    TouchesOnly (fun b => (b : Int) = m₁.sp - k) m
      { m₁ with store := { m₁.store with cells := m₁.store.cells.setIfInBounds a c } } where
  mp := h.touches.mp
  np := h.touches.np
  size := Array.size_setIfInBounds.trans h.touches.size
  cells b hb := by
    have hne : a ≠ b := by rintro rfl; exact hb ha
    exact (Array.getElem?_setIfInBounds_ne hne).trans (h.touches.cells b id)
  files := h.touches.files

/-- The next code address and the top of the stack may move before. -/
theorem Calm.moved (h : Calm m d m₁) (pc : Nat) {sp e : Int} (hsp : sp = m.sp + e) :
    Calm m e { m₁ with pc, sp } where
  touches := ⟨h.touches.mp, h.touches.np, h.touches.size, h.touches.cells, h.touches.files⟩
  sp := hsp

theorem Calm.dropped (h : Calm m d m₁) : Calm m (d - 1) { m₁ with sp := m₁.sp - (1 : Nat) } := by
  have hsp := h.sp
  exact h.moved m₁.pc (by omega)

/-! ### Small actions -/

namespace TopOnly

theorem done (h : Calm m s m₁) : TopOnly m s k (pure ()) m₁ where
  ok u m' heq := by
    cases heq
    exact ⟨h.sp, { h.touches with cells := fun a _ => h.touches.cells a id }⟩
  fault f m' heq := by cases heq

theorem of_eq {act act' : Action Machine Unit} {m₂ : Machine} (heq : act m₁ = act' m₂)
    (h : TopOnly m s k act' m₂) : TopOnly m s k act m₁ where
  ok u m' hrun := h.ok u m' (heq ▸ hrun)
  fault f m' hrun := h.fault f m' (heq ▸ hrun)

theorem of_ok {x : Action Machine α} {act : α → Action Machine Unit} {a : α} {m₂ : Machine}
    (hrun : x m₁ = .ok a m₂) (h : TopOnly m s k (act a) m₂) : TopOnly m s k (x >>= act) m₁ :=
  .of_eq (Action.bind_of_ok hrun) h

theorem of_error {act : Action Machine Unit} {f : Fault} {m₂ : Machine} (hrun : act m₁ = .error f m₂)
    (h : TouchesOnly (fun _ => False) m m₂) : TopOnly m s k act m₁ where
  ok u m' heq := by
    rw [hrun] at heq
    cases heq
  fault g m' heq := by
    rw [hrun] at heq
    cases heq
    exact h

theorem ite {c : Prop} [Decidable c] {x y : Action Machine Unit} (hx : TopOnly m s k x m₁)
    (hy : TopOnly m s k y m₁) : TopOnly m s k (if c then x else y) m₁ := by
  split
  · exact hx
  · exact hy

/-- Looking around comes first, as long as it leaves the machine as it is. -/
theorem look {x : Action Machine α} {act : α → Action Machine Unit} (hx : Keeps id x) (h : Calm m d m₁)
    (hact : ∀ a, TopOnly m s k (act a) m₁) : TopOnly m s k (x >>= act) m₁ := by
  have hsame := hx m₁
  cases hrun : x m₁ with
  | ok a m₂ =>
    rw [Action.after_of_ok hrun] at hsame
    obtain rfl : m₂ = m₁ := hsame
    exact of_ok hrun (hact a)
  | error f m₂ =>
    rw [Action.after_of_error hrun] at hsame
    obtain rfl : m₂ = m₁ := hsame
    exact of_error (Action.bind_of_error hrun) h.touches

/-- So does taking a cell from the stack. -/
theorem pop {act : Cell → Action Machine Unit} (h : Calm m d m₁)
    (hact : ∀ c m₂, Calm m (d - 1) m₂ → TopOnly m s k (act c) m₂) :
    TopOnly m s k (Machine.pop >>= act) m₁ := by
  unfold Machine.pop
  simp only [bind_assoc, pure_bind]
  exact .look (peek_keeps 0) h fun c => .of_ok (Action.modify_apply _ m₁) (hact c _ h.dropped)

theorem popInt {act : Word → Action Machine Unit} (h : Calm m d m₁)
    (hact : ∀ n m₂, Calm m (d - 1) m₂ → TopOnly m s k (act n) m₂) :
    TopOnly m s k (Machine.popInt >>= act) m₁ := by
  unfold Machine.popInt
  rw [bind_assoc]
  exact .pop h fun c m₂ h₂ => .look (.lift _) h₂ fun n => hact n m₂ h₂

/-- A write is the last that is done. -/
theorem write (h : Calm m s m₁) {a : Nat} (ha : a < m₁.store.cells.size → (a : Int) = m₁.sp - k)
    (c : Cell) : TopOnly m s k (Machine.write a c) m₁ := by
  rcases Nat.lt_or_ge a m₁.store.cells.size with hlt | hge
  · refine ⟨fun u m' heq => ?_, fun f m' heq => ?_⟩ <;> rw [write_eq hlt] at heq <;> cases heq
    exact ⟨h.sp, h.set (ha hlt) c⟩
  · exact of_error (write_error hge c) h.touches

theorem below {act : Nat → Action Machine Unit} {depth : Nat} (h : Calm m d m₁)
    (hact : ∀ a : Nat, (a : Int) = m₁.sp - depth → TopOnly m s k (act a) m₁) :
    TopOnly m s k (Machine.below depth >>= act) m₁ := by
  rcases Int.lt_or_le m₁.sp depth with hlt | hle
  · exact of_error (Action.bind_of_error (below_error hlt)) h.touches
  · exact of_ok (below_eq hle) (hact _ (by omega))

theorem setTop (h : Calm m s m₁) (c : Cell) : TopOnly m s 0 (Machine.setTop c) m₁ :=
  .below h fun _ ha => .write h (fun _ => ha) c

theorem push (hsp : Word.Fits m.sp) (hsize : m.store.cells.size ≤ 0x8000000000000000) (h : Calm m 0 m₁)
    (c : Cell) : TopOnly m 1 0 (Machine.push c) m₁ := by
  have hsame := h.sp
  have hcells := h.touches.size
  by_cases hfull : m₁.np ≤ Address.ofSigned (m₁.sp + 1)
  · have hrun : Machine.push c m₁ = .error .storeOverflow m₁ := by
      rw [Machine.push, Action.bind_of_ok (Action.get_apply m₁)]
      simp only [if_pos hfull]
      rfl
    exact of_error hrun h.touches
  · have hrun : Machine.push c m₁ =
        Machine.write (Address.ofSigned (m₁.sp + 1)) c { m₁ with sp := m₁.sp + 1 } := by
      rw [Machine.push, Action.bind_of_ok (Action.get_apply m₁)]
      simp only [if_neg hfull]
      rfl
    have hpushed : Calm m 1 { m₁ with sp := m₁.sp + 1 } := h.moved m₁.pc (by omega)
    -- a cell of the store has no address that a negative number wraps around to
    refine .of_eq hrun (.write hpushed (fun hlt => ?_) c)
    unfold Address.ofSigned at hlt ⊢
    simp only at hlt ⊢
    omega

theorem jump (h : Calm m s m₁) (q : Word) : TopOnly m s k (Machine.jump q) m₁ := by
  refine .look (offset_keeps _ _) h fun a => ?_
  exact .of_eq (Action.modify_apply _ m₁) (.done (h.moved a h.sp))

/-! ### Operators -/

theorem unary (h : Calm m 0 m₁) (f : Cell → Except Fault Cell) : TopOnly m 0 0 (Machine.unary f) m₁ :=
  .look (peek_keeps 0) h fun _ => .look (.lift _) h fun d => .setTop h d

theorem binary (h : Calm m 0 m₁) (f : Cell → Cell → Except Fault Cell) :
    TopOnly m (-1) 0 (Machine.binary f) m₁ :=
  .pop h fun _ _ h₂ => .look (peek_keeps 0) h₂ fun _ => .look (.lift _) h₂ fun c => .setTop h₂ c

theorem compare (h : Calm m 0 m₁) (r : Relation) (p : Nat) (q : Word) :
    TopOnly m (-1) 0 (Machine.compare r p q) m₁ :=
  .pop h fun _ _ h₂ => .look (peek_keeps 0) h₂ fun _ => .look (relates_keeps _ _ _ _ _) h₂ fun _ =>
    .setTop h₂ _

theorem moveTop (h : Calm m 0 m₁) (d : Word) : TopOnly m 0 0 (Machine.moveTop d) m₁ :=
  .look (peek_keeps 0) h fun _ => .look (.lift _) h fun e => .setTop h e

theorem index (h : Calm m 0 m₁) (q : Word) : TopOnly m (-1) 0 (Machine.index q) m₁ :=
  .popInt h fun _ _ h₂ => .look (peekAddress_keeps 0) h₂ fun _ => .look (.orFault _ _) h₂ fun _ =>
    .look (offset_keeps _ _) h₂ fun _ => .setTop h₂ _

theorem loadIndirect (h : Calm m 0 m₁) (q : Word) : TopOnly m 0 0 (Machine.loadIndirect q) m₁ :=
  .look (peekAddress_keeps 0) h fun _ => .look (offset_keeps _ _) h fun _ =>
    .look (load_keeps _) h fun c => .setTop h c

theorem floatBelow (h : Calm m 0 m₁) : TopOnly m 0 1 Machine.floatBelow m₁ :=
  .below h fun _ ha => .look (read_keeps _) h fun _ => .look (.lift _) h fun d => .write h (fun _ => ha) d

theorem checkBounds (h : Calm m 0 m₁) (q : Word) : TopOnly m 0 0 (Machine.checkBounds q) m₁ := by
  have hact : (Machine.checkBounds q >>= fun _ => pure ()) = Machine.checkBounds q := bind_pure _
  rw [← hact]
  exact .look (checkBounds_keeps q) h fun _ => .done h

theorem jumpIfFalse (h : Calm m 0 m₁) (q : Word) : TopOnly m (-1) 0 (Machine.jumpIfFalse q) m₁ :=
  .pop h fun _ _ h₂ => .look (.lift _) h₂ fun _ => .ite (.done h₂) (.jump h₂ q)

theorem jumpIndexed (h : Calm m 0 m₁) (q : Word) : TopOnly m (-1) 0 (Machine.jumpIndexed q) m₁ :=
  .popInt h fun _ _ h₂ => .look (.orFault _ _) h₂ fun _ => .jump h₂ _

/-- The test of a file changes what is known of the file before it puts its result in a cell. -/
theorem testEnd (h : Calm m 0 m₁) (hfiles : m₁.files = m.files) : TopOnly m 0 0 Machine.testEnd m₁ := by
  refine .look (peekAddress_keeps 0) h fun file => ?_
  have hread := Files.readAs_atEnd file m.files
  have hcalm : ∀ files, m.files.ReadAs files → Calm m 0 { m₁ with files } := fun files hread =>
    ⟨⟨h.touches.mp, h.touches.np, h.touches.size, h.touches.cells, hread⟩, h.sp⟩
  rw [← hfiles] at hread hcalm
  cases hrun : Files.atEnd file m₁.files with
  | ok b files =>
    rw [Action.after_of_ok hrun] at hread
    exact .of_ok (Action.zoom_of_ok hrun) (.setTop (hcalm files hread) _)
  | error f files =>
    rw [Action.after_of_error hrun] at hread
    exact .of_error (Action.bind_of_error (Action.zoom_of_error hrun)) (hcalm files hread).touches

end TopOnly

/-! ### Instructions -/

/-- **An instruction touches the top of the stack only**, unless it is one of those that reach further. -/
theorem perform_topOnly {i : Instruction} (hop : i.op ∉ Opcode.reaching) (hsp : Word.Fits m.sp)
    (hsize : m.store.cells.size ≤ 0x8000000000000000) (h : Calm m 0 m₁) (hfiles : m₁.files = m.files) :
    TopOnly m i.op.shift i.op.depth (perform i) m₁ := by
  obtain ⟨op, p, q⟩ := i
  cases op with
  | str | sro | sto | mov | mst | cup | ent | ret | csp | stp =>
    exact absurd (by simp [Opcode.reaching]) hop
  | lod =>
    exact .look (variableAt_keeps _ _) h fun _ => .look (load_keeps _) h fun c => .push hsp hsize h c
  | ldo => exact .look (offset_keeps _ _) h fun _ => .look (load_keeps _) h fun c => .push hsp hsize h c
  | lda => exact .look (variableAt_keeps _ _) h fun _ => .push hsp hsize h _
  | lao | lca => exact .look (offset_keeps _ _) h fun _ => .push hsp hsize h _
  | ldc => exact .look .get h fun _ => .push hsp hsize h _
  | lci => exact .look (offset_keeps _ _) h fun _ => .look (read_keeps _) h fun c => .push hsp hsize h c
  | ind => exact .loadIndirect h q
  | inc => exact .moveTop h q
  | dec => exact .look (.orFault _ _) h fun d => .moveTop h d
  | ixa => exact .index h q
  | equ | neq | geq | grt | leq | les => exact .compare h _ p q
  | ujp => exact .jump h q
  | fjp => exact .jumpIfFalse h q
  | xjp => exact .jumpIndexed h q
  | chk => exact .checkBounds h q
  | eof => exact .testEnd h hfiles
  | flo => exact .floatBelow h
  | sgs | flt | trc | ngi | ngr | sqi | sqr | abi | abr | not | odd => exact .unary h _
  | adi | adr | sbi | sbr | and | ior | dif | int | uni | inn | mod | mpi | mpr | dvi | dvr =>
    exact .binary h _

theorem calm_fetched (m : Machine) : Calm m 0 m.fetched :=
  ⟨⟨rfl, rfl, rfl, fun _ _ => rfl, .refl _⟩, (Int.add_zero _).symm⟩

/-- **A step of an expression touches the top of the stack only.** If it fails then it has changed no cell,
and if it succeeds then at most the one at the new top, or the one below that for the conversion of a left
operand. The top has moved up by one for a load, down by one for an operator with two operands, a
comparison, an index or a jump on a value, and stayed for the others. In both cases the frame and the heap
are the same, nothing was written to a file, and whatever is read from a file afterwards is the same, if its
source does not fail. -/
theorem step_topOnly (m : Machine) (i : Instruction) (hi : m.code[m.pc]? = some i)
    (hop : i.op ∉ Opcode.reaching) (hsp : Word.Fits m.sp)
    (hsize : m.store.cells.size ≤ 0x8000000000000000) :
    (∀ f m', step m = .error f m' → TouchesOnly (fun _ => False) m m') ∧
    ∀ b m', step m = .ok b m' →
      m'.sp = m.sp + i.op.shift ∧ TouchesOnly (fun a => (a : Int) = m'.sp - i.op.depth) m m' := by
  have hperform := perform_topOnly hop hsp hsize (calm_fetched m) rfl
  cases hrun : perform i m.fetched with
  | ok u m₁ =>
    rw [step_of_ok hi hrun]
    refine ⟨fun f m' heq => ?_, fun b m' heq => ?_⟩ <;> cases heq
    exact hperform.ok u m₁ hrun
  | error f m₁ =>
    rw [step_of_error hi hrun]
    refine ⟨fun g m' heq => ?_, fun b m' heq => ?_⟩ <;> cases heq
    exact hperform.fault f m₁ hrun

/-- A machine with two integers on its stack, and one instruction. -/
def lone (op : Opcode) : Machine where
  pc := 0
  mp := 0
  sp := 1
  np := 4
  code := #[⟨op, 0, 0⟩]
  store := ⟨default, #[.int 3, .int 4, .undefined, .undefined], default⟩
  files := default

theorem step_topOnly_lone :
    (∃ m', step (lone .adi) = .ok true m' ∧ m'.sp = 0 ∧ m'.store.cells[1]? = some (.int 4)) ∧
    ∃ f m', step (lone .and) = .error f m' ∧ m'.store.cells[0]? = some (.int 3) := by
  have hsum : step.outcome (lone .adi) = .ok true := by decide +kernel
  have hmixed : step.outcome (lone .and) = .error .notBool := by decide +kernel
  obtain ⟨m₁, hok⟩ := Action.outcome_eq_ok.1 hsum
  obtain ⟨m₂, herror⟩ := Action.outcome_eq_error.1 hmixed
  have hadi := step_topOnly (lone .adi) ⟨.adi, 0, 0⟩ rfl (by decide) (by decide) (by decide)
  have hand := step_topOnly (lone .and) ⟨.and, 0, 0⟩ rfl (by decide) (by decide) (by decide)
  obtain ⟨hsp, htop⟩ := hadi.2 _ _ hok
  have hkept := hand.1 _ _ herror
  have hzero : m₁.sp = 0 := hsp
  refine ⟨⟨m₁, hok, hzero, ?_⟩, _, m₂, herror, hkept.cells 0 id⟩
  exact htop.cells 1 (by rw [hzero]; decide)

end Machine

end PMachine
