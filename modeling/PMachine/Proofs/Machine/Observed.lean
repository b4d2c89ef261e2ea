import PMachine.Proofs.Machine.Steady

/-!
# The machine observed

The same machine, with a record of what the registers do not show: every number that it computes or
converts without a check, and every cell that it writes, with the reason why. Without the record it
is the machine itself.

A number that is computed without a check has a type that it has to fit. The machine computes with
unbounded numbers, so the record holds the exact result; where it does not fit, a machine of 64 bits
would compute something else.

The record of an action is put together from those of its parts, which are found by the way in which the
action is made. So only the actions that compute a number without a check, change a register or write a
cell for a reason of their own have records that are written out.

* `Effect`: an entry of the record.
* `Observed`: the record of an action, which lists every cell that the action changes.
* `Observed.bind`, `Observed.ite`: the records of larger actions.
* `Observed.perform`, `Observed.step`: the records of instructions and of steps.
-/

namespace PMachine

open PMachine.Action (Keeps)

/-- The types of numbers that are computed without a check. -/
inductive Range where
  /-- Signed numbers of 64 bits. -/
  | word
  /-- Unsigned numbers of 64 bits. -/
  | address
  /-- Field widths, which the formatting of numbers keeps in 16 bits. -/
  | width
deriving DecidableEq, Repr

/-- Whether a number is one of the type. -/
def Range.Admits : Range → Int → Prop
  | word, n => Word.Fits n
  | address, n => 0 ≤ n ∧ n < 0x10000000000000000
  | width, n => n ≤ 65535

/-- Why a cell is written. -/
inductive Origin where
  /-- A push. -/
  | push
  /-- The top of the stack is replaced. -/
  | top
  /-- The cell below the top is converted. -/
  | float
  /-- The variables of a frame are cleared. -/
  | frame
  /-- The return link of a call. -/
  | link
  /-- A block from the heap is cleared. -/
  | heap
  /-- A store through an address that the program gives. -/
  | store
deriving DecidableEq, Repr

/-- An entry of the record. -/
inductive Effect where
  /-- A number was computed or converted without a check. -/
  | result (r : Range) (n : Int)
  /-- A cell was written, unless there is none with this address. -/
  | write (o : Origin) (a : Nat)
deriving DecidableEq, Repr

/-- Whether a machine of 64 bits comes to the same number. -/
def Effect.Exact : Effect → Prop
  | result r n => r.Admits n
  | write _ _ => True

/-- A record of the effects of an action. A cell that is not recorded as written is as it was before, also
after a fault. -/
class Observed {α : Type} (x : Action Machine α) where
  effects : Machine → List Effect
  frame : ∀ m a, (∀ o, .write o a ∉ effects m) → (x.after m).store.cells[a]? = m.store.cells[a]?

namespace Observed

variable {α β : Type} {x y : Action Machine α}

/-- The action of which this is the record. -/
def act (_ : Observed x) : Action Machine α := x

/-! ### Small actions -/

/-- An action that leaves the cells alone has nothing to record. -/
@[reducible]
def silent (h : Keeps (·.store.cells) x) : Observed x where
  effects _ := []
  frame m a _ := by rw [show (x.after m).store.cells = m.store.cells from h m]

instance pure (a : α) : Observed (Pure.pure a : Action Machine α) := silent (.pure a)

instance look : Observed (get : Action Machine Machine) := silent .get

instance fail (f : Fault) : Observed (throw f : Action Machine α) := silent (.throw f)

/-- What stands behind a fault is not done. -/
instance (priority := high) failed (f : Fault) (k : α → Action Machine β) : Observed (throw f >>= k) :=
  silent fun _ => rfl

instance lift (x : Except Fault α) : Observed (Action.lift x : Action Machine α) := silent (.lift x)

instance orFault (x : Option α) (f : Fault) : Observed (Action.orFault x f : Action Machine α) :=
  silent (.orFault x f)

/-- A change of registers. -/
@[reducible]
def change {f : Machine → Machine} (h : ∀ m, (f m).store.cells = m.store.cells) :
    Observed (modify f : Action Machine Unit) :=
  silent (.modifyGet h)

instance onFiles (act : Action Files α) : Observed (Machine.onFiles act) := silent <| by
  intro m
  simp only [Action.after, Machine.onFiles, Action.zoom]
  cases act m.files <;> rfl

instance read (a : Nat) : Observed (Machine.read a) := silent (Machine.read_keeps a)

/-- A cell is written for a reason of its own. -/
@[irreducible]
def write (o : Origin) (a : Nat) (c : Cell) : Observed (Machine.write a c) where
  effects _ := [.write o a]
  frame m b hnot := by
    have hne : a ≠ b := by
      rintro rfl
      exact hnot o List.mem_cons_self
    rcases Nat.lt_or_ge a m.store.cells.size with h | h
    · rw [Action.after_of_ok (Machine.write_eq h c)]
      exact Array.getElem?_setIfInBounds_ne hne
    · rw [Action.after_of_error (Machine.write_error h c)]

/-- Without another reason, the program gives the address. -/
instance store (a : Nat) (c : Cell) : Observed (Machine.write a c) := write .store a c

/-- Before the action, a number is computed or converted without a check. -/
@[irreducible]
def computes (r : Range) (n : Int) (rest : Observed x) : Observed x where
  effects m := .result r n :: rest.effects m
  frame m a hnot := rest.frame m a fun o ho => hnot o (List.mem_cons_of_mem _ ho)

/-! ### Larger actions -/

/-- The second action starts where the first one succeeded. -/
@[irreducible]
def andThen {k : α → Action Machine β} (first : Observed x) (next : ∀ a, Observed (k a)) :
    Observed (x >>= k) where
  effects m := first.effects m ++ match x m with
    | .ok a m' => (next a).effects m'
    | .error _ _ => []
  frame m a hnot := by
    have hx := first.frame m a fun o ho => hnot o (List.mem_append_left _ ho)
    cases hrun : x m with
    | ok b m' =>
      have hk := (next b).frame m' a fun o ho => hnot o (List.mem_append_right _ (by rwa [hrun]))
      rw [Action.after_of_ok hrun] at hx
      rw [Action.after, Action.bind_of_ok hrun, ← Action.after, hk, hx]
    | error f m' =>
      rw [Action.after_of_error hrun] at hx
      rw [Action.after_of_error (Action.bind_of_error hrun), hx]

instance bind {k : α → Action Machine β} [first : Observed x] [next : ∀ a, Observed (k a)] :
    Observed (x >>= k) :=
  andThen first next

/-- One of two actions. -/
@[irreducible]
def choose {c : Prop} [Decidable c] (yes : Observed x) (no : Observed y) :
    Observed (if c then x else y) where
  effects m := if c then yes.effects m else no.effects m
  frame m a hnot := by
    by_cases hc : c
    · rw [if_pos hc] at hnot ⊢
      exact yes.frame m a hnot
    · rw [if_neg hc] at hnot ⊢
      exact no.frame m a hnot

instance ite {c : Prop} [Decidable c] [yes : Observed x] [no : Observed y] :
    Observed (if c then x else y) :=
  choose yes no

section Effects

variable {m m' : Machine} {f : Fault}

theorem effects_write (o : Origin) (a : Nat) (c : Cell) : (write o a c).effects m = [.write o a] := by
  unfold write
  rfl

theorem effects_computes (r : Range) (n : Int) (rest : Observed x) :
    (computes r n rest).effects m = .result r n :: rest.effects m := by
  unfold computes
  rfl

/-- What follows an action that succeeds is recorded behind it. -/
theorem effects_andThen_of_ok {k : α → Action Machine β} {a : α} (hx : x m = .ok a m') (first : Observed x)
    (next : ∀ a, Observed (k a)) :
    (andThen first next).effects m = first.effects m ++ (next a).effects m' := by
  unfold andThen
  simp only [hx]

/-- What follows an action that fails is not done, so it is not recorded. -/
theorem effects_andThen_of_error {k : α → Action Machine β} (hx : x m = .error f m') (first : Observed x)
    (next : ∀ a, Observed (k a)) : (andThen first next).effects m = first.effects m := by
  unfold andThen
  simp only [hx, List.append_nil]

theorem effects_choose {c : Prop} [Decidable c] (yes : Observed x) (no : Observed y) :
    (choose (c := c) yes no).effects m = if c then yes.effects m else no.effects m := by
  unfold choose
  rfl

end Effects

/-! ### Cells and the stack -/

instance load (a) : Observed (Machine.load a) := by delta Machine.load; infer_instance

/-- An offset is added to a signed number. -/
instance offset (base : Nat) (d : Int) : Observed (Machine.offset base d) :=
  computes .word base (orFault _ _)

instance operand (q : Word) : Observed (Machine.operand q) := offset 0 q.toInt

instance jump (q : Word) : Observed (Machine.jump q) := andThen (operand q) fun _ => change fun _ => rfl

/-- A depth is subtracted from the top of the stack, before it is compared with the bottom. -/
instance below (depth : Nat) : Observed (Machine.below depth) :=
  andThen look fun m => computes .word (m.sp - depth) inferInstance

instance peek (depth) : Observed (Machine.peek depth) := by delta Machine.peek; infer_instance

instance drop (n : Nat) : Observed (Machine.drop n) where
  effects m := [.result .word (m.sp - n)]
  frame _ _ _ := rfl

/-- The place above the stack is computed, and converted to an address. -/
instance push (c : Cell) : Observed (Machine.push c) :=
  andThen look fun m => computes .word (m.sp + 1) <| computes .address (m.sp + 1) <|
    choose inferInstance <| andThen (change fun _ => rfl) fun _ => write .push _ c

instance pop : Observed Machine.pop := by delta Machine.pop; infer_instance

/-- What is written is the top of the stack. -/
instance setTop (c : Cell) : Observed (Machine.setTop c) := andThen (below 0) fun a => write .top a c

instance peekInt (depth) : Observed (Machine.peekInt depth) := by delta Machine.peekInt; infer_instance
instance peekAddress (depth) : Observed (Machine.peekAddress depth) :=
  by delta Machine.peekAddress; infer_instance
instance popInt : Observed Machine.popInt := by delta Machine.popInt; infer_instance
instance popAddress : Observed Machine.popAddress := by delta Machine.popAddress; infer_instance
instance unary (f) : Observed (Machine.unary f) := by delta Machine.unary; infer_instance
instance binary (f) : Observed (Machine.binary f) := by delta Machine.binary; infer_instance

/-- The place of each link is computed. -/
instance follow : ∀ levels frame, Observed (Machine.follow levels frame)
  | 0, frame => pure frame
  | levels + 1, frame => computes .address (frame + Machine.staticLink : Nat) <|
      andThen (read _) fun c => andThen (lift c.asAddress) fun a => follow levels a

instance base (levels) : Observed (Machine.base levels) := by delta Machine.base; infer_instance
instance variableAt (levels q) : Observed (Machine.variableAt levels q) :=
  by delta Machine.variableAt; infer_instance

/-! ### Blocks -/

/-- The cells are written for the reason why the block is cleared. -/
@[reducible]
def clear (o : Origin) : ∀ n a, Observed (Machine.clear n a)
  | 0, _ => pure ()
  | n + 1, a => andThen (write o a .undefined) fun _ => clear o n (a + 1)

/-- The places of both cells are computed. -/
instance copy : ∀ n source target, Observed (Machine.copy n source target)
  | 0, _, _ => pure ()
  | n + 1, source, target => computes .address source <| andThen (read source) fun c =>
      computes .address target <| andThen (store target c) fun _ => copy n (source + 1) (target + 1)

instance compareBlocks : ∀ n left right, Observed (Machine.compareBlocks n left right)
  | 0, _, _ => pure _
  | n + 1, left, right => computes .address left <| andThen (read left) fun c =>
      computes .address right <| andThen (read right) fun d =>
        choose (compareBlocks n (left + 1) (right + 1)) (lift (c.order d))

instance relates (r p q left right) : Observed (Machine.relates r p q left right) :=
  by delta Machine.relates; infer_instance
instance compare (r p q) : Observed (Machine.compare r p q) := by delta Machine.compare; infer_instance

instance characters : ∀ n a, Observed (Machine.characters n a)
  | 0, _ => pure []
  | n + 1, a => computes .address a <| andThen (read a) fun c => andThen (lift c.asCharacter) fun b =>
      andThen (characters n (a + 1)) fun more => pure (b :: more)

/-! ### Standard procedures -/

instance getCharacter : Observed Machine.getCharacter := by delta Machine.getCharacter; infer_instance
instance putCharacter : Observed Machine.putCharacter := by delta Machine.putCharacter; infer_instance
instance nextLine : Observed Machine.nextLine := by delta Machine.nextLine; infer_instance

/-- A block larger than the heap is refused before its address is converted. -/
instance allocate : Observed Machine.allocate :=
  andThen (peekInt 0) fun n => andThen look fun m => computes .word (m.np - n.count : Nat) <|
    choose (andThen (peekAddress 1) fun _ => andThen (clear .heap _ _) fun _ =>
      andThen (change fun _ => rfl) fun _ => inferInstance) inferInstance

instance writeLine : Observed Machine.writeLine := by delta Machine.writeLine; infer_instance
instance writeString : Observed Machine.writeString := by delta Machine.writeString; infer_instance

/-- The width of a field is converted for formatting. -/
instance writeValue (field) : Observed (Machine.writeValue field) :=
  andThen (peekAddress 0) fun _ => andThen (peek 1) fun c => andThen (lift c.asWidth) fun width =>
    andThen (peek 2) fun _ => computes .width width inferInstance

instance readValue (value) : Observed (Machine.readValue value) :=
  by delta Machine.readValue; infer_instance
instance testLineEnd : Observed Machine.testLineEnd := by delta Machine.testLineEnd; infer_instance

instance applyMath (f : Procedure) : Observed (Machine.applyMath f) :=
  andThen (peek 0) fun c =>
    match f.math c with
    | some result => andThen (lift result) fun d => setTop d
    | none => fail .noFunction

/-- The end of the heap is set to an address that the program gives. -/
instance restore : Observed (Machine.standard .rst) := andThen popAddress fun _ => change fun _ => rfl

instance standard (f : Procedure) : Observed (Machine.standard f) := by
  apply @Procedure.casesOn (fun f => Observed (Machine.standard f)) f
  case rst => exact restore
  all_goals
    delta Machine.standard
    infer_instance

instance callStandard (q) : Observed (Machine.callStandard q) :=
  by delta Machine.callStandard; infer_instance

/-! ### Instructions -/

instance fetch : Observed Machine.fetch :=
  andThen look fun m => andThen (orFault _ _) fun i => computes .address (m.pc + 1 : Nat) <|
    andThen (change fun _ => rfl) fun _ => pure i

instance loadFrom (a) : Observed (Machine.loadFrom a) := by delta Machine.loadFrom; infer_instance
instance storeIndirect : Observed Machine.storeIndirect := by delta Machine.storeIndirect; infer_instance
instance loadIndirect (q) : Observed (Machine.loadIndirect q) :=
  by delta Machine.loadIndirect; infer_instance

/-- Moving an address converts it. -/
instance moveTop (d : Word) : Observed (Machine.moveTop d) :=
  andThen (peek 0) fun c =>
    match c with
    | .address a | .mark a => computes .word a inferInstance
    | .undefined | .int _ | .real _ | .bool _ | .set _ => inferInstance

instance moveTopDown (q) : Observed (Machine.moveTopDown q) := by delta Machine.moveTopDown; infer_instance
instance index (q) : Observed (Machine.index q) := by delta Machine.index; infer_instance
instance moveBlock (q) : Observed (Machine.moveBlock q) := by delta Machine.moveBlock; infer_instance
instance markStack (p) : Observed (Machine.markStack p) := by delta Machine.markStack; infer_instance

/-- The number of parameters is converted and the frame is computed from it, then the place of its link. -/
instance enterFrame (p : Nat) (q : Word) : Observed (Machine.enterFrame p q) :=
  andThen look fun m => computes .word p <| computes .word (Address.signed p + 3) <|
    computes .word (m.sp - (Address.signed p + 3)) <| andThen (orFault _ _) fun frame =>
      andThen (change fun _ => rfl) fun _ => computes .address (frame + Machine.returnLink : Nat) <|
        andThen (write .link _ _) fun _ => jump q

/-- The frame is cleared from the cell above the stack on, and its end is converted to the new top. -/
instance reserve (q : Word) : Observed (Machine.reserve q) :=
  andThen look fun m => andThen (offset m.mp q.toInt) fun top => choose inferInstance <|
    andThen (change fun _ => by split <;> rfl) fun _ => andThen look fun m =>
      computes .word (m.sp + 1) <| computes .address (m.sp + 1) <|
        andThen (clear .frame _ _) fun _ => computes .word top <| change fun _ => rfl

/-- The frame is converted to the new top, and the places of its links are computed. -/
instance leaveFrame (p : Nat) : Observed (Machine.leaveFrame p) :=
  andThen look fun m => computes .word m.mp <|
    computes .word (if p = 0 then Address.signed m.mp - 1 else Address.signed m.mp) <|
      andThen (change fun _ => rfl) fun _ => computes .address (m.mp + Machine.returnLink : Nat) <|
        andThen (read _) fun c => andThen (lift c.asAddress) fun _ => andThen (change fun _ => rfl) fun _ =>
          computes .address (m.mp + Machine.dynamicLink : Nat) <|
            andThen (read _) fun d => andThen (lift d.asAddress) fun _ => change fun _ => rfl

instance jumpIfFalse (q) : Observed (Machine.jumpIfFalse q) := by delta Machine.jumpIfFalse; infer_instance
instance jumpIndexed (q) : Observed (Machine.jumpIndexed q) := by delta Machine.jumpIndexed; infer_instance
instance checkBounds (q) : Observed (Machine.checkBounds q) := by delta Machine.checkBounds; infer_instance
instance testEnd : Observed Machine.testEnd := by delta Machine.testEnd; infer_instance

/-- What is written is the cell below the top. -/
instance floatBelow : Observed Machine.floatBelow :=
  andThen (below 1) fun a => andThen (read a) fun c => andThen (lift c.float) fun d => write .float a d

/-- An instruction is recorded as its operation is. -/
instance perform (i : Instruction) : Observed (Machine.perform i) := by
  obtain ⟨op, p, q⟩ := i
  apply @Opcode.casesOn (fun op => Observed (Machine.perform ⟨op, p, q⟩)) op
  all_goals
    delta Machine.perform
    infer_instance

instance step : Observed Machine.step := by delta Machine.step; infer_instance

/-- **What is observed** in a step is the step itself. -/
theorem step_act : step.act = Machine.step := rfl

end Observed

end PMachine
