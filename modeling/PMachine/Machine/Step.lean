import PMachine.Cell.Operator
import PMachine.Machine.Procedure

/-!
# One instruction

An instruction is fetched, the program counter moves past it, and its operation is performed. A
fault leaves the machine as the operation had changed it so far.

* `Machine.perform`: what each operation does.
* `Machine.step`: one instruction; tells whether the machine goes on.
-/

namespace PMachine.Machine

/-- Takes the next instruction from the code. -/
def fetch : Action Machine Instruction := do
  let m ← get
  let i ← Action.orFault m.code[m.pc]? .pcOutOfCode
  modify fun m => { m with pc := m.pc + 1 }
  return i

/-! ### Loads and stores -/

/-- Loads the value at an address onto the stack. -/
def loadFrom (a : Nat) : Action Machine Unit := do
  let c ← load a
  push c

/-- Stores the top cell through the address below it. -/
def storeIndirect : Action Machine Unit := do
  let c ← pop
  let target ← popAddress
  write target c

/-- The constant in an instruction: an integer, a truth value or the pointer to nothing. -/
def constant (m : Machine) (p : Nat) (q : Word) : Cell :=
  match p with
  | 1 => .int q
  | 3 => .bool (q = 1)
  | _ => .address m.store.nil

/-- Replaces the address on top by the value at an offset from it. -/
def loadIndirect (q : Word) : Action Machine Unit := do
  let a ← peekAddress 0
  let source ← offset a q.toInt
  let c ← load source
  setTop c

/-- Moves the top cell by a distance. -/
def moveTop (d : Word) : Action Machine Unit := do
  let c ← peek 0
  let e ← Action.lift (c.increment d)
  setTop e

/-- Moves the top cell down; the distance must have a negative. -/
def moveTopDown (q : Word) : Action Machine Unit := do
  let d ← Action.orFault (Word.ofInt? (-q.toInt)) .overflow
  moveTop d

/-- Replaces an index and the array address below it by the address of the element. -/
def index (q : Word) : Action Machine Unit := do
  let i ← popInt
  let a ← peekAddress 0
  let n ← Action.orFault (Word.ofInt? (i.toInt * q.toInt)) .overflow
  let target ← offset a n.toInt
  setTop (.address target)

/-- Copies a block: the source on top, the target below it. -/
def moveBlock (q : Word) : Action Machine Unit := do
  let source ← popAddress
  let target ← popAddress
  copy q.count source target

/-! ### Calls -/

/-- Puts the linkage of a new frame on the stack: room for a result, the static link, the dynamic
link and room for the return address. -/
def markStack (p : Nat) : Action Machine Unit := do
  let link ← base p
  let m ← get
  let mp := m.mp
  push .undefined
  push (.mark link)
  push (.mark mp)
  push .undefined

/-- Where the frame below `p` parameter cells and the links starts, if there is such an address. The
difference is one of signed 64-bit numbers: no stack is below `-1`, and a difference from `2 ^ 63` on
wraps around to a negative number. -/
def frameStart? (m : Machine) (p : Nat) : Option Nat :=
  let n := m.sp - Word.wrap (Address.signed p + 3)
  if 0 ≤ n ∧ n < 0x8000000000000000 then some n.toNat else none

theorem frameStart?_eq_some {m : Machine} {p frame : Nat} : m.frameStart? p = some frame ↔
    (frame : Int) = m.sp - Word.wrap (Address.signed p + 3) ∧ frame < 0x8000000000000000 := by
  simp only [frameStart?]
  split <;> simp <;> omega

/-- A size that leaves room for the links is counted as it is. -/
theorem frameStart?_of_lt {m : Machine} {p frame : Nat} (hp : p + 3 < 0x8000000000000000) :
    m.frameStart? p = some frame ↔
      (frame : Int) = m.sp - (p + 3) ∧ frame < 0x8000000000000000 := by
  rw [frameStart?_eq_some, Address.wrap_signed_add, Word.wrap_of_fits (by constructor <;> omega)]

/-- Makes the marked frame current, with `p` parameter cells on top of it, and goes to the
procedure. -/
def enterFrame (p : Nat) (q : Word) : Action Machine Unit := do
  let m ← get
  let link := m.pc
  let frame ← Action.orFault (m.frameStart? p) .stackUnderflow
  modify fun m => { m with mp := frame }
  write (frame + returnLink) (.mark link)
  jump q

/-- Extends the stack to the size of a frame and clears what is new. A stack that does not reach the
buffers of the files starts above them. -/
def reserve (q : Word) : Action Machine Unit := do
  let m ← get
  let np := m.np
  let top ← offset m.mp q.toInt
  if np ≤ top then throw .storeOverflow
  modify fun m =>
    if m.sp < (Channel.input.number : Int) then { m with sp := Channel.prr.number } else m
  let m ← get
  let first := Address.ofSigned (m.sp + 1)
  clear (top + 1 - first) first
  modify fun m => { m with sp := top }

/-- Leaves the current frame; a function leaves its result on the stack. -/
def leaveFrame (p : Nat) : Action Machine Unit := do
  let m ← get
  let mp := m.mp
  let top := Address.signed mp
  modify fun m => { m with sp := if p = 0 then top - 1 else top }
  let c ← read (mp + returnLink)
  let pc ← Action.lift c.asAddress
  modify fun m => { m with pc }
  let c ← read (mp + dynamicLink)
  let mp ← Action.lift c.asAddress
  modify fun m => { m with mp }

/-! ### Jumps and checks -/

/-- Jumps if the top cell, which is taken from the stack, is false. -/
def jumpIfFalse (q : Word) : Action Machine Unit := do
  let c ← pop
  let b ← Action.lift c.asBool
  if b then return else jump q

/-- Jumps to the entry that an integer from the stack selects in a table of jumps. -/
def jumpIndexed (q : Word) : Action Machine Unit := do
  let n ← popInt
  let target ← Action.orFault (Word.ofInt? (n.toInt + q.toInt)) .overflow
  jump target

/-- Checks the integer on top against a pair of bounds in the store. -/
def checkBounds (q : Word) : Action Machine Unit := do
  let value ← peekInt 0
  let upperAt ← operand q
  let lowerAt ← offset upperAt (-1)
  let c ← read lowerAt
  let lower ← Action.lift c.asInt
  let d ← read upperAt
  let upper ← Action.lift d.asInt
  if value < lower ∨ upper < value then
    throw (.notInRange value.toInt lower.toInt upper.toInt)

/-- Tests the file on top of the stack for its end. -/
def testEnd : Action Machine Unit := do
  let file ← peekAddress 0
  let b ← onFiles (Files.atEnd file)
  setTop (.bool b)

/-- Converts the cell below the top to a real. -/
def floatBelow : Action Machine Unit := do
  let a ← below 1
  let c ← read a
  let d ← Action.lift c.float
  write a d

/-! ### All operations -/

/-- What the operation of an instruction does. -/
def perform (i : Instruction) : Action Machine Unit := do
  let p := i.p
  let q := i.q
  match i.op with
  | .lod =>
    let a ← variableAt p q
    loadFrom a
  | .ldo =>
    let a ← operand q
    loadFrom a
  | .str =>
    let a ← variableAt p q
    let c ← pop
    write a c
  | .sro =>
    let c ← pop
    let a ← operand q
    write a c
  | .lda =>
    let a ← variableAt p q
    push (.address a)
  | .lao | .lca =>
    let a ← operand q
    push (.address a)
  | .sto => storeIndirect
  | .ldc =>
    let m ← get
    let c := m.constant p q
    push c
  | .lci =>
    let a ← operand q
    let c ← read a
    push c
  | .ind => loadIndirect q
  | .inc => moveTop q
  | .dec => moveTopDown q
  | .mst => markStack p
  | .cup => enterFrame p q
  | .ent => reserve q
  | .ret => leaveFrame p
  | .csp => callStandard q
  | .ixa => index q
  | .equ => compare .equal p q
  | .neq => compare .notEqual p q
  | .geq => compare .greaterEqual p q
  | .grt => compare .greater p q
  | .leq => compare .lessEqual p q
  | .les => compare .less p q
  | .ujp => jump q
  | .fjp => jumpIfFalse q
  | .xjp => jumpIndexed q
  | .chk => checkBounds q
  | .eof => testEnd
  | .adi => binary Cell.addInt
  | .adr => binary Cell.addReal
  | .sbi => binary Cell.subInt
  | .sbr => binary Cell.subReal
  | .sgs => unary Cell.singleton
  | .flt => unary Cell.float
  | .flo => floatBelow
  | .trc => unary Cell.truncate
  | .ngi => unary Cell.negInt
  | .ngr => unary Cell.negReal
  | .sqi => unary Cell.squareInt
  | .sqr => unary Cell.squareReal
  | .abi => unary Cell.absInt
  | .abr => unary Cell.absReal
  | .not => unary Cell.not
  | .and => binary Cell.and
  | .ior => binary Cell.or
  | .dif => binary Cell.difference
  | .int => binary Cell.intersection
  | .uni => binary Cell.union
  | .inn => binary Cell.member
  | .mod => binary Cell.modInt
  | .odd => unary Cell.odd
  | .mpi => binary Cell.mulInt
  | .mpr => binary Cell.mulReal
  | .dvi => binary Cell.divInt
  | .dvr => binary Cell.divReal
  | .mov => moveBlock q
  | .stp => return

/-- Executes one instruction; false if it was the one that stops the machine. -/
def step : Action Machine Bool := do
  let i ← fetch
  perform i
  return i.op ≠ .stp

end PMachine.Machine
