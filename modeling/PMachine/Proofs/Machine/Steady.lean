import PMachine.Proofs.Machine.Stack

/-!
# What instructions leave alone

Every instruction moves the top of the stack or the next code address, reads files and writes cells.
Only some standard procedures write files, and two of them move the end of the heap. Only a call and a
return change the current frame, and nothing changes the code, the limits or the number of cells.

* `Machine.called?`: the standard procedure that the next instruction calls.
* `Machine.Still`: a view of the machine that shows nothing that most instructions change.
* `Machine.perform_still`, `Machine.step_still`: they keep such a view, if the procedure that they call does.
* `Machine.Steady`: a view that shows neither files nor the end of the heap.
* `Machine.perform_keeps`: every instruction but a call and a return keeps a steady view.
* `Machine.step_keeps`: every step keeps a view that does not show the current frame either.
-/

namespace PMachine

open PMachine.Action (Keeps)

/-- Whether a standard procedure writes to a file. -/
def Procedure.writes : Procedure → Bool
  | put | wln | wrs | wri | wrr | wrc => true
  | get | rst | rln | new | eln | rdi | rdr | rdc | sin | cos | exp | log | sqt | atn | sav => false

/-- Whether a standard procedure moves the end of the heap. -/
def Procedure.movesHeap : Procedure → Bool
  | new | rst => true
  | get | put | rln | wln | wrs | eln | wri | wrr | wrc | rdi | rdr | rdc | sin | cos | exp | log | sqt
  | atn | sav => false

namespace Files

/-- The files to write. -/
def sinks (f : Files) : Sink × Sink := (f.output, f.prr)

variable {α : Type}

theorem reading_keeps (file : Nat) (act : Action TextInput α) : Keeps sinks (reading file act) := by
  refine .bind (.lift _) fun ch f => ?_
  cases ch with
  | input =>
    cases hrun : act f.input with
    | ok a t => rw [Action.after_of_ok (Action.zoom_of_ok hrun)]; rfl
    | error e t => rw [Action.after_of_error (Action.zoom_of_error hrun)]; rfl
  | prd =>
    cases hrun : act f.prd with
    | ok a t => rw [Action.after_of_ok (Action.zoom_of_ok hrun)]; rfl
    | error e t => rw [Action.after_of_error (Action.zoom_of_error hrun)]; rfl
  | output | prr => rfl

theorem atEnd_keeps (file : Nat) : Keeps sinks (atEnd file) := by
  refine .bind (.lift _) fun ch => ?_
  cases ch with
  | input | prd => exact reading_keeps file _
  | output | prr => exact .pure true

end Files

namespace Machine

/-! ### The next instruction -/

/-- The standard procedure that the next instruction calls, if it calls one. -/
def called? (m : Machine) : Option Procedure :=
  match m.code[m.pc]? with
  | some ⟨.csp, _, q⟩ => Procedure.ofNumber? q
  | _ => none

variable {m m' : Machine} {f : Procedure}

theorem called?_eq_some_iff :
    m.called? = some f ↔ ∃ p q, m.code[m.pc]? = some ⟨.csp, p, q⟩ ∧ Procedure.ofNumber? q = some f := by
  unfold called?
  split
  · rename_i p q hi
    rw [hi]
    simp
  · rename_i hne
    simp only [reduceCtorEq, false_iff, not_exists, not_and]
    exact fun p q hi => absurd hi (hne p q)

theorem perform_called {p : Nat} {q : Word} (hf : Procedure.ofNumber? q = some f) (m : Machine) :
    perform ⟨.csp, p, q⟩ m = standard f m := by
  show callStandard q m = _
  rw [callStandard, hf, Action.bind_of_ok (Action.orFault_some f _ m)]

theorem step_called_ok (h : m.called? = some f) (hrun : standard f m.fetched = .ok () m') :
    step m = .ok true m' := by
  obtain ⟨p, q, hi, hf⟩ := called?_eq_some_iff.1 h
  exact step_of_ok hi ((perform_called hf m.fetched).trans hrun)

theorem step_called_error {e : Fault} (h : m.called? = some f)
    (hrun : standard f m.fetched = .error e m') : step m = .error e m' := by
  obtain ⟨p, q, hi, hf⟩ := called?_eq_some_iff.1 h
  exact step_of_error hi ((perform_called hf m.fetched).trans hrun)

/-- A call that succeeds is a procedure that succeeds. -/
theorem standard_of_step {b : Bool} (h : m.called? = some f) (hstep : step m = .ok b m') :
    standard f m.fetched = .ok () m' := by
  cases hrun : standard f m.fetched with
  | ok u m₁ =>
    rw [step_called_ok h hrun] at hstep
    cases hstep
    rfl
  | error e m₁ =>
    rw [step_called_error h hrun] at hstep
    cases hstep

theorem standard_of_step_error {e : Fault} (h : m.called? = some f) (hstep : step m = .error e m') :
    standard f m.fetched = .error e m' := by
  cases hrun : standard f m.fetched with
  | ok u m₁ =>
    rw [step_called_ok h hrun] at hstep
    cases hstep
  | error e' m₁ =>
    rw [step_called_error h hrun] at hstep
    cases hstep
    rfl

/-! ### Views -/

/-- A view of a machine that does not show the contents of cells, the next address or the top of the
stack, nor what was read from the files. -/
structure Still {γ : Type} (view : Machine → γ) : Prop where
  moved : ∀ (m : Machine) (pc : Nat) (sp : Int), view { m with pc := pc, sp := sp } = view m
  input : ∀ (m : Machine) (files : Files), files.sinks = m.files.sinks →
    view { m with files := files } = view m
  cells : ∀ (m : Machine) (cells : Array Cell), cells.size = m.store.cells.size →
    view { m with store := { m.store with cells := cells } } = view m

/-- A view of a machine that does not show the contents of cells or files, nor the registers other
than the current frame. -/
structure Steady {γ : Type} (view : Machine → γ) : Prop where
  registers : ∀ (m : Machine) (pc np : Nat) (sp : Int),
    view { m with pc := pc, np := np, sp := sp } = view m
  files : ∀ (m : Machine) (files : Files), view { m with files := files } = view m
  cells : ∀ (m : Machine) (cells : Array Cell), cells.size = m.store.cells.size →
    view { m with store := { m.store with cells := cells } } = view m

variable {γ : Type} {view : Machine → γ}

theorem Steady.still (hv : Steady view) : Still view where
  moved m pc sp := hv.registers m pc m.np sp
  input m files _ := hv.files m files
  cells := hv.cells

variable (hv : Still view)

/-! ### Cells and the stack -/

theorem read_keeps (a : Nat) : Keeps view (read a) := .bind .get fun _ => .lift _

theorem load_keeps (a : Nat) : Keeps view (load a) := .bind (read_keeps a) fun _ => .lift _

theorem offset_keeps (base : Nat) (d : Int) : Keeps view (offset base d) := .orFault _ _

theorem below_keeps (depth : Nat) : Keeps view (below depth) :=
  .bind .get fun _ => .ite (.pure _) (.throw _)

theorem peek_keeps (depth : Nat) : Keeps view (peek depth) :=
  .bind (below_keeps depth) fun a => read_keeps a

theorem peekInt_keeps (depth : Nat) : Keeps view (peekInt depth) :=
  .bind (peek_keeps depth) fun _ => .lift _

theorem peekAddress_keeps (depth : Nat) : Keeps view (peekAddress depth) :=
  .bind (peek_keeps depth) fun _ => .lift _

theorem follow_keeps (levels : Nat) : ∀ frame, Keeps view (follow levels frame) := by
  induction levels with
  | zero => intro frame; exact .pure frame
  | succ levels ih =>
    intro frame
    exact .bind (read_keeps _) fun _ => .bind (.lift _) fun a => ih a

theorem variableAt_keeps (levels : Nat) (q : Word) : Keeps view (variableAt levels q) :=
  .bind (.bind .get fun _ => follow_keeps levels _) fun _ => offset_keeps _ _

include hv

theorem write_keeps (a : Nat) (c : Cell) : Keeps view (write a c) := by
  intro m
  rcases Nat.lt_or_ge a m.store.cells.size with h | h
  · rw [Action.after_of_ok (write_eq h c)]
    exact hv.cells m _ Array.size_setIfInBounds
  · rw [Action.after_of_error (write_error h c)]

omit hv in
theorem onFiles_keeps (hfiles : ∀ (m : Machine) files, view { m with files := files } = view m) {α : Type}
    (act : Action Files α) : Keeps view (onFiles act) := by
  intro m
  simp only [Action.after, onFiles, Action.zoom]
  cases act m.files with
  | ok a files => exact hfiles m files
  | error f files => exact hfiles m files

/-- An action that writes nothing to the files. -/
theorem onInput_keeps {α : Type} {act : Action Files α} (hact : Keeps Files.sinks act) :
    Keeps view (onFiles act) := by
  intro m
  have hsinks := hact m.files
  simp only [Action.after, onFiles, Action.zoom] at hsinks ⊢
  cases hrun : act m.files with
  | ok a files =>
    rw [hrun] at hsinks
    exact hv.input m files hsinks
  | error f files =>
    rw [hrun] at hsinks
    exact hv.input m files hsinks

theorem jump_keeps (q : Word) : Keeps view (jump q) :=
  .bind (offset_keeps _ _) fun a => .modifyGet fun m => hv.moved m a m.sp

theorem drop_keeps (n : Nat) : Keeps view (drop n) :=
  .modifyGet fun m => hv.moved m m.pc _

theorem push_keeps (c : Cell) : Keeps view (push c) := by
  refine .bind .get fun m => ?_
  have hrest : Keeps view (do
      modify fun m => { m with sp := m.sp + 1 }
      write (Address.ofSigned (m.sp + 1)) c) :=
    .bind (.modifyGet fun m => hv.moved m m.pc _) fun _ => write_keeps hv _ _
  exact .ite (.bind (.throw _) fun _ => hrest) hrest

theorem pop_keeps : Keeps view pop :=
  .bind (peek_keeps 0) fun _ => .bind (drop_keeps hv 1) fun _ => .pure _

theorem setTop_keeps (c : Cell) : Keeps view (setTop c) :=
  .bind (below_keeps 0) fun a => write_keeps hv a c

theorem popInt_keeps : Keeps view popInt := .bind (pop_keeps hv) fun _ => .lift _

theorem popAddress_keeps : Keeps view popAddress := .bind (pop_keeps hv) fun _ => .lift _

theorem unary_keeps (f : Cell → Except Fault Cell) : Keeps view (unary f) :=
  .bind (peek_keeps 0) fun _ => .bind (.lift _) fun d => setTop_keeps hv d

theorem binary_keeps (f : Cell → Cell → Except Fault Cell) : Keeps view (binary f) :=
  .bind (pop_keeps hv) fun _ => .bind (peek_keeps 0) fun _ => .bind (.lift _) fun c => setTop_keeps hv c

/-! ### Blocks -/

theorem clear_keeps (n : Nat) : ∀ a, Keeps view (clear n a) := by
  induction n with
  | zero => intro a; exact .pure _
  | succ n ih => intro a; exact .bind (write_keeps hv a _) fun _ => ih _

theorem copy_keeps (n : Nat) : ∀ source target, Keeps view (copy n source target) := by
  induction n with
  | zero => intro source target; exact .pure _
  | succ n ih =>
    intro source target
    exact .bind (read_keeps source) fun c => .bind (write_keeps hv target c) fun _ => ih _ _

omit hv in
theorem compareBlocks_keeps (n : Nat) : ∀ left right, Keeps view (compareBlocks n left right) := by
  induction n with
  | zero => intro left right; exact .pure _
  | succ n ih =>
    intro left right
    refine .bind (read_keeps left) fun c => .bind (read_keeps right) fun d => ?_
    split
    · exact ih _ _
    · exact .lift _

omit hv in
theorem characters_keeps (n : Nat) : ∀ a, Keeps view (characters n a) := by
  induction n with
  | zero => intro a; exact .pure _
  | succ n ih =>
    intro a
    exact .bind (read_keeps a) fun _ => .bind (.lift _) fun _ => .bind (ih _) fun _ => .pure _

omit hv in
theorem relates_keeps (r : Relation) (p : Nat) (q : Word) (left right : Cell) :
    Keeps view (relates r p q left right) := by
  unfold relates
  split
  · exact .bind (.lift _) fun _ => .bind (.lift _) fun _ =>
      .bind (compareBlocks_keeps _ _ _) fun _ => .pure _
  · exact .lift _

theorem compare_keeps (r : Relation) (p : Nat) (q : Word) : Keeps view (compare r p q) :=
  .bind (pop_keeps hv) fun _ => .bind (peek_keeps 0) fun _ =>
    .bind (relates_keeps _ _ _ _ _) fun _ => setTop_keeps hv _

/-! ### Standard procedures -/

theorem getCharacter_keeps : Keeps view getCharacter :=
  .bind (popAddress_keeps hv) fun _ => .bind (onInput_keeps hv (Files.reading_keeps _ _)) fun _ =>
    write_keeps hv _ _

theorem nextLine_keeps : Keeps view nextLine :=
  .bind (popAddress_keeps hv) fun _ => .bind (onInput_keeps hv (Files.reading_keeps _ _)) fun _ =>
    write_keeps hv _ _

theorem readValue_keeps (value : Action TextInput Cell) : Keeps view (readValue value) :=
  .bind (peekAddress_keeps 0) fun _ => .bind (peekAddress_keeps 1) fun _ =>
    .bind (onInput_keeps hv (Files.reading_keeps _ _)) fun _ => .bind (write_keeps hv _ _) fun _ =>
      drop_keeps hv 2

theorem testLineEnd_keeps : Keeps view testLineEnd :=
  .bind (peekAddress_keeps 0) fun _ => .bind (onInput_keeps hv (Files.reading_keeps _ _)) fun _ =>
    setTop_keeps hv _

theorem applyMath_keeps (f : Procedure) : Keeps view (applyMath f) := by
  refine .bind (peek_keeps 0) fun c => ?_
  cases f.math c with
  | some result => exact .bind (.lift _) fun d => setTop_keeps hv d
  | none => exact .throw _

section Heap

variable (hheap : ∀ (m : Machine) np, view { m with np := np } = view m)

include hheap

theorem allocate_keeps : Keeps view allocate := by
  refine .bind (peekInt_keeps 0) fun n => .bind .get fun m => .ite ?_ (.throw _)
  exact .bind (peekAddress_keeps 1) fun _ => .bind (clear_keeps hv _ _) fun _ =>
    .bind (.modifyGet fun m => hheap m _) fun _ => .bind (write_keeps hv _ _) fun _ => drop_keeps hv 2

end Heap

section Output

variable (hfiles : ∀ (m : Machine) files, view { m with files := files } = view m)

include hfiles

theorem putCharacter_keeps : Keeps view putCharacter :=
  .bind (popAddress_keeps hv) fun _ => .bind (onFiles_keeps hfiles _) fun _ =>
    .bind (read_keeps _) fun _ => .bind (.lift _) fun _ => .bind (onFiles_keeps hfiles _) fun _ =>
      write_keeps hv _ _

theorem writeLine_keeps : Keeps view writeLine :=
  .bind (popAddress_keeps hv) fun _ => onFiles_keeps hfiles _

theorem writeString_keeps : Keeps view writeString :=
  .bind (peekAddress_keeps 0) fun _ => .bind (peek_keeps 1) fun _ => .bind (.lift _) fun _ =>
    .bind (peek_keeps 2) fun _ => .bind (.lift _) fun _ => .bind (peekAddress_keeps 3) fun _ =>
      .bind (characters_keeps _ _) fun _ => .bind (onFiles_keeps hfiles _) fun _ => drop_keeps hv 4

theorem writeValue_keeps (field : Nat → Cell → Except Fault (List UInt8)) :
    Keeps view (writeValue field) :=
  .bind (peekAddress_keeps 0) fun _ => .bind (peek_keeps 1) fun _ => .bind (.lift _) fun _ =>
    .bind (peek_keeps 2) fun _ => .bind (.lift _) fun _ => .bind (onFiles_keeps hfiles _) fun _ =>
      drop_keeps hv 3

end Output

/-- A procedure that writes keeps a view that does not show files, and one that moves the end of the heap a
view that does not show it. All others keep any still view. -/
theorem standard_keeps {f : Procedure}
    (hfiles : f.writes = true → ∀ (m : Machine) files, view { m with files := files } = view m)
    (hheap : f.movesHeap = true → ∀ (m : Machine) np, view { m with np := np } = view m) :
    Keeps view (standard f) := by
  cases f with
  | get => exact getCharacter_keeps hv
  | put => exact putCharacter_keeps hv (hfiles rfl)
  | rst => exact .bind (popAddress_keeps hv) fun a => .modifyGet fun m => hheap rfl m a
  | rln => exact nextLine_keeps hv
  | new => exact allocate_keeps hv (hheap rfl)
  | wln => exact writeLine_keeps hv (hfiles rfl)
  | wrs => exact writeString_keeps hv (hfiles rfl)
  | eln => exact testLineEnd_keeps hv
  | wri | wrr | wrc => exact writeValue_keeps hv (hfiles rfl) _
  | rdi | rdr | rdc => exact readValue_keeps hv _
  | sin | cos | exp | log | sqt | atn =>
    unfold standard
    exact applyMath_keeps hv _
  | sav => exact .bind (popAddress_keeps hv) fun _ => .bind .get fun _ => write_keeps hv _ _

omit hv in
theorem callStandard_keeps {q : Word} (h : ∀ f, Procedure.ofNumber? q = some f → Keeps view (standard f)) :
    Keeps view (callStandard q) := by
  intro m
  cases hf : Procedure.ofNumber? q with
  | none =>
    have hfault : callStandard q m = .error (.unknownProcedure q.toInt) m := by
      rw [callStandard, hf, Action.bind_of_error (Action.orFault_none _ m)]
    rw [Action.after_of_error hfault]
  | some f =>
    have hcall : callStandard q m = standard f m := perform_called (p := 0) hf m
    rw [Action.after, hcall, ← Action.after]
    exact h f hf m

/-! ### Instructions -/

theorem loadFrom_keeps (a : Nat) : Keeps view (loadFrom a) :=
  .bind (load_keeps a) fun _ => push_keeps hv _

theorem moveTop_keeps (d : Word) : Keeps view (moveTop d) :=
  .bind (peek_keeps 0) fun _ => .bind (.lift _) fun _ => setTop_keeps hv _

theorem index_keeps (q : Word) : Keeps view (index q) :=
  .bind (popInt_keeps hv) fun _ => .bind (peekAddress_keeps 0) fun _ => .bind (.orFault _ _) fun _ =>
    .bind (offset_keeps _ _) fun _ => setTop_keeps hv _

theorem markStack_keeps (p : Nat) : Keeps view (markStack p) :=
  .bind (.bind .get fun _ => follow_keeps p _) fun _ => .bind .get fun _ =>
    .bind (push_keeps hv _) fun _ => .bind (push_keeps hv _) fun _ =>
      .bind (push_keeps hv _) fun _ => push_keeps hv _

theorem reserve_keeps (q : Word) : Keeps view (reserve q) := by
  refine .bind .get fun m => .bind (offset_keeps _ _) fun top => ?_
  -- stepping over the file buffers moves nothing but the top of the stack
  have hskip : ∀ m : Machine,
      view (if m.sp < (Channel.input.number : Int) then { m with sp := Channel.prr.number } else m) =
        view m := by
    intro m
    split
    · exact hv.moved m m.pc _
    · rfl
  have hrest : Keeps view (do
      modify fun m =>
        if m.sp < (Channel.input.number : Int) then { m with sp := Channel.prr.number } else m
      let m ← get
      let first := Address.ofSigned (m.sp + 1)
      clear (top + 1 - first) first
      modify fun m => { m with sp := top }) :=
    .bind (.modifyGet hskip) fun _ => .bind .get fun _ => .bind (clear_keeps hv _ _) fun _ =>
      .modifyGet fun m => hv.moved m m.pc _
  exact .ite (.bind (.throw _) fun _ => hrest) hrest

omit hv in
theorem checkBounds_keeps (q : Word) : Keeps view (checkBounds q) :=
  .bind (peekInt_keeps 0) fun _ => .bind (offset_keeps _ _) fun _ => .bind (offset_keeps _ _) fun _ =>
    .bind (read_keeps _) fun _ => .bind (.lift _) fun _ => .bind (read_keeps _) fun _ =>
      .bind (.lift _) fun _ => .ite (.throw _) (.pure _)

/-- **Every instruction but a call and a return** keeps a still view, if the procedure that it calls does. -/
theorem perform_still {i : Instruction} (hcup : i.op ≠ .cup) (hret : i.op ≠ .ret)
    (hcsp : i.op = .csp → ∀ f, Procedure.ofNumber? i.q = some f → Keeps view (standard f)) :
    Keeps view (perform i) := by
  obtain ⟨op, p, q⟩ := i
  cases op with
  | cup => exact absurd rfl hcup
  | ret => exact absurd rfl hret
  | lod => exact .bind (variableAt_keeps _ _) fun _ => loadFrom_keeps hv _
  | ldo => exact .bind (offset_keeps _ _) fun _ => loadFrom_keeps hv _
  | str =>
    exact .bind (variableAt_keeps _ _) fun _ => .bind (pop_keeps hv) fun _ => write_keeps hv _ _
  | sro => exact .bind (pop_keeps hv) fun _ => .bind (offset_keeps _ _) fun _ => write_keeps hv _ _
  | lda => exact .bind (variableAt_keeps _ _) fun _ => push_keeps hv _
  | lao | lca => exact .bind (offset_keeps _ _) fun _ => push_keeps hv _
  | sto => exact .bind (pop_keeps hv) fun _ => .bind (popAddress_keeps hv) fun _ => write_keeps hv _ _
  | ldc => exact .bind .get fun _ => push_keeps hv _
  | lci => exact .bind (offset_keeps _ _) fun _ => .bind (read_keeps _) fun _ => push_keeps hv _
  | ind =>
    exact .bind (peekAddress_keeps 0) fun _ => .bind (offset_keeps _ _) fun _ =>
      .bind (load_keeps _) fun _ => setTop_keeps hv _
  | inc => exact moveTop_keeps hv _
  | dec => exact .bind (.orFault _ _) fun _ => moveTop_keeps hv _
  | mst => exact markStack_keeps hv _
  | ent => exact reserve_keeps hv _
  | csp => exact callStandard_keeps (hcsp rfl)
  | ixa => exact index_keeps hv _
  | equ | neq | geq | grt | leq | les => exact compare_keeps hv _ _ _
  | ujp => exact jump_keeps hv _
  | fjp =>
    exact .bind (pop_keeps hv) fun _ => .bind (.lift _) fun _ => .ite (.pure _) (jump_keeps hv _)
  | xjp => exact .bind (popInt_keeps hv) fun _ => .bind (.orFault _ _) fun _ => jump_keeps hv _
  | chk => exact checkBounds_keeps _
  | eof =>
    exact .bind (peekAddress_keeps 0) fun _ => .bind (onInput_keeps hv (Files.atEnd_keeps _)) fun _ =>
      setTop_keeps hv _
  | flo =>
    exact .bind (below_keeps 1) fun _ => .bind (read_keeps _) fun _ => .bind (.lift _) fun _ =>
      write_keeps hv _ _
  | mov =>
    exact .bind (popAddress_keeps hv) fun _ => .bind (popAddress_keeps hv) fun _ => copy_keeps hv _ _ _
  | stp => exact .pure _
  | sgs | flt | trc | ngi | ngr | sqi | sqr | abi | abr | not | odd => exact unary_keeps hv _
  | adi | adr | sbi | sbr | and | ior | dif | int | uni | inn | mod | mpi | mpr | dvi | dvr =>
    exact binary_keeps hv _

/-! ### Whole steps -/

section Frame

variable (hframe : ∀ (m : Machine) mp, view { m with mp := mp } = view m)

include hframe

theorem enterFrame_keeps (p : Nat) (q : Word) : Keeps view (enterFrame p q) := by
  refine .bind .get fun _ => .bind (.orFault _ _) fun frame => ?_
  exact .bind (.modifyGet fun m => hframe m _) fun _ =>
    .bind (write_keeps hv _ _) fun _ => jump_keeps hv q

theorem leaveFrame_keeps (p : Nat) : Keeps view (leaveFrame p) :=
  .bind .get fun _ => .bind (.modifyGet fun m => hv.moved m m.pc _) fun _ =>
    .bind (read_keeps _) fun _ => .bind (.lift _) fun pc =>
      .bind (.modifyGet fun m => hv.moved m pc m.sp) fun _ =>
        .bind (read_keeps _) fun _ => .bind (.lift _) fun mp => .modifyGet fun m => hframe m mp

/-- **A step** keeps a still view that does not show the current frame, if the procedure that it calls does. -/
theorem step_still (hcsp : ∀ f, m.called? = some f → Keeps view (standard f)) :
    view (step.after m) = view m := by
  have hfetched : view m.fetched = view m := hv.moved m (m.pc + 1) m.sp
  cases hi : m.code[m.pc]? with
  | none =>
    have hfetch : fetch m = .error .pcOutOfCode m := by
      rw [fetch, Action.bind_of_ok (Action.get_apply m), hi]
      rfl
    have hstep : step m = .error .pcOutOfCode m := Action.bind_of_error hfetch
    rw [Action.after_of_error hstep]
  | some i =>
    have hperform : Keeps view (perform i) := by
      obtain ⟨op, p, q⟩ := i
      by_cases hcup : op = .cup
      · subst hcup
        exact enterFrame_keeps hv hframe p q
      · by_cases hret : op = .ret
        · subst hret
          exact leaveFrame_keeps hv hframe p
        · refine perform_still hv hcup hret fun hop f => ?_
          obtain rfl : op = .csp := hop
          exact fun hf => hcsp f (called?_eq_some_iff.2 ⟨p, q, hi, hf⟩)
    rw [← hfetched, ← hperform m.fetched]
    cases hrun : perform i m.fetched with
    | ok u m₁ => rw [Action.after_of_ok (step_of_ok hi hrun), Action.after_of_ok hrun]
    | error f m₁ => rw [Action.after_of_error (step_of_error hi hrun), Action.after_of_error hrun]

end Frame

omit hv

/-! ### Steady views -/

/-- **Every instruction but a call and a return** keeps a steady view. -/
theorem perform_keeps (hv : Steady view) {i : Instruction} (hcup : i.op ≠ .cup) (hret : i.op ≠ .ret) :
    Keeps view (perform i) :=
  perform_still hv.still hcup hret fun _ _ _ =>
    standard_keeps hv.still (fun _ => hv.files) fun _ m np => hv.registers m m.pc np m.sp

/-- A steady view that does not show the current frame either. -/
structure Fixed {γ : Type} (view : Machine → γ) : Prop extends Steady view where
  frame : ∀ (m : Machine) (mp : Nat), view { m with mp := mp } = view m

/-- **A step** keeps a view of what no instruction changes, whether it succeeds or fails. -/
theorem step_keeps (hf : Fixed view) : Keeps view step := fun _ =>
  step_still hf.still hf.frame fun _ _ =>
    standard_keeps hf.still (fun _ => hf.files) fun _ m np => hf.registers m m.pc np m.sp

end Machine

end PMachine
