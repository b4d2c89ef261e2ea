import PMachine.Files
import PMachine.Program

/-!
# The machine

A program with its registers and its files. The stack grows up from the bottom of the store, the
heap grows down toward it, and the registers hold nothing but addresses.

* `Machine.boot`: a machine at the start of a program.
* `Machine.push`, `Machine.pop`, `Machine.setTop`: the stack.
* `Machine.base`: the frame that lies a number of static links away.
-/

namespace PMachine

/-- The registers. -/
structure Registers where
  /-- The code address of the next instruction. -/
  pc : Nat
  /-- The first cell of the current frame. -/
  mp : Nat
  /-- The top of the stack; -1 when it is empty. -/
  sp : Int
  /-- The lowest cell of the heap. -/
  np : Nat
deriving DecidableEq, Repr

/-- Whether a machine runs, and how it came to a stop. -/
inductive Status where
  | running
  | stopped
  | failed (f : Fault)
deriving DecidableEq, Repr

/-- A machine in the course of a run. -/
structure Machine extends Registers where
  code : Array Instruction
  store : Store
  files : Files
  status : Status := .running
  /-- The run is to stop before its next instruction. -/
  interrupted : Bool := false
deriving DecidableEq, Repr

namespace Machine

variable {α : Type}

/-- Runs an action on the store. -/
def onStore (act : Action Store α) : Action Machine α :=
  act.zoom (·.store) fun store m => { m with store }

/-- Runs an action on the files. -/
def onFiles (act : Action Files α) : Action Machine α :=
  act.zoom (·.files) fun files m => { m with files }

/-! ### Start -/

/-- The buffers of the files before a run: nothing read yet, and nothing to write. -/
def resetBuffers : Action Store Unit := do
  Store.write Channel.input.number (.int 0)
  Store.write Channel.output.number .undefined
  Store.write Channel.prd.number (.int 0)
  Store.write Channel.prr.number .undefined

/-- A machine at the start of a program. The store of the program is prepared for the run, also if
that ends in a fault. -/
def boot (files : Files) : Action Program Machine := do
  Action.zoom (·.store) (fun store (p : Program) => { p with store }) resetBuffers
  let p ← get
  return {
    pc := 0, mp := 0, sp := -1, np := p.store.limits.stackSize + 1
    code := p.code, store := p.store, files }

/-! ### Cells -/

/-- The cell at an address. -/
def read (a : Nat) : Action Machine Cell := do
  let m ← get
  Action.lift (m.store.read a)

/-- Replaces the cell at an address. -/
def write (a : Nat) (c : Cell) : Action Machine Unit := onStore (Store.write a c)

/-- The cell at an address, which must hold a value. -/
def load (a : Nat) : Action Machine Cell := do
  let c ← read a
  Action.lift c.defined

/-- The address `d` cells after `base`. -/
def offset (base : Nat) (d : Int) : Action Machine Nat :=
  Action.orFault (Address.offset? base d) .addressOutOfStore

/-- The address that an operand holds. -/
def operand (q : Word) : Action Machine Nat := offset 0 q.toInt

/-- Goes on with the instruction at the address that an operand holds. -/
def jump (q : Word) : Action Machine Unit := do
  let a ← operand q
  modify fun m => { m with pc := a }

/-! ### The stack -/

/-- The address of the cell `depth` below the top. -/
def below (depth : Nat) : Action Machine Nat := do
  let m ← get
  let a := m.sp - depth
  if 0 ≤ a then return a.toNat else throw .stackUnderflow

/-- The cell `depth` below the top. -/
def peek (depth : Nat) : Action Machine Cell := do
  let a ← below depth
  read a

/-- Moves the top of the stack down. -/
def drop (n : Nat) : Action Machine Unit := modify fun m => { m with sp := m.sp - n }

/-- Puts a cell on the stack, unless the heap is there. -/
def push (c : Cell) : Action Machine Unit := do
  let m ← get
  let a := Address.ofSigned (m.sp + 1)
  if m.np ≤ a then throw .storeOverflow
  modify fun m => { m with sp := m.sp + 1 }
  write a c

/-- Takes the top cell from the stack. -/
def pop : Action Machine Cell := do
  let c ← peek 0
  drop 1
  return c

/-- Replaces the top cell. -/
def setTop (c : Cell) : Action Machine Unit := do
  let a ← below 0
  write a c

/-- The integer in the cell `depth` below the top. -/
def peekInt (depth : Nat) : Action Machine Word := do
  let c ← peek depth
  Action.lift c.asInt

/-- The address in the cell `depth` below the top. -/
def peekAddress (depth : Nat) : Action Machine Nat := do
  let c ← peek depth
  Action.lift c.asAddress

/-- Takes an integer from the stack. -/
def popInt : Action Machine Word := do
  let c ← pop
  Action.lift c.asInt

/-- Takes an address from the stack. -/
def popAddress : Action Machine Nat := do
  let c ← pop
  Action.lift c.asAddress

/-- Applies an operator to the top cell. -/
def unary (f : Cell → Except Fault Cell) : Action Machine Unit := do
  let c ← peek 0
  let d ← Action.lift (f c)
  setTop d

/-- Applies an operator to the two top cells, the right operand on top. -/
def binary (f : Cell → Cell → Except Fault Cell) : Action Machine Unit := do
  let right ← pop
  let left ← peek 0
  let c ← Action.lift (f left right)
  setTop c

/-! ### Frames -/

/-- The places of the links in a frame, counted from its base. -/
def staticLink : Nat := 1
def dynamicLink : Nat := 2
def returnLink : Nat := 3

/-- Follows static links, a number of them, from a frame on. -/
def follow : (levels : Nat) → (frame : Nat) → Action Machine Nat
  | 0, frame => return frame
  | levels + 1, frame => do
    let c ← read (frame + staticLink)
    let a ← Action.lift c.asAddress
    follow levels a

/-- The frame that lies `levels` static links away from the current one. -/
def base (levels : Nat) : Action Machine Nat := do
  let m ← get
  follow levels m.mp

/-- The address of the variable at an offset in the frame `levels` links away. -/
def variableAt (levels : Nat) (q : Word) : Action Machine Nat := do
  let a ← base levels
  offset a q.toInt

end Machine

end PMachine
