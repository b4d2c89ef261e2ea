import PMachine.Machine.Block
import PMachine.Machine.Field

/-!
# Standard procedures

What each standard procedure does with the operands on the stack. Operands that are only looked at
stay on the stack if the procedure fails.

* `Machine.callStandard`: the procedure that an operand selects.
-/

namespace PMachine.Machine

/-- Reads the next character of a file into its buffer. -/
def getCharacter : Action Machine Unit := do
  let file ← popAddress
  let c ← onFiles (Files.reading file TextInput.read)
  write file (.int c)

/-- Writes the buffer of a file and empties it. -/
def putCharacter : Action Machine Unit := do
  let file ← popAddress
  onFiles (Files.writing file (pure ()))
  let c ← read file
  let b ← Action.lift c.asCharacter
  onFiles (Files.write file [b])
  write file .undefined

/-- Goes to the next line of a file and reads its first character into the buffer. -/
def nextLine : Action Machine Unit := do
  let file ← popAddress
  let c ← onFiles (Files.reading file do
    TextInput.readLine
    TextInput.read)
  write file (.int c)

/-- Takes a block from the heap and stores its address through a pointer: the size on top, the
address of the pointer below it. -/
def allocate : Action Machine Unit := do
  let n ← peekInt 0
  let size := n.count
  let m ← get
  let np := m.np
  if size ≤ np ∧ m.sp < Address.signed (np - size) then
    let heap := np - size
    let pointer ← peekAddress 1
    clear size heap
    modify fun m => { m with np := heap }
    write pointer (.address heap)
    drop 2
  else throw .storeOverflow

/-- Ends a line of a file. -/
def writeLine : Action Machine Unit := do
  let file ← popAddress
  onFiles (Files.write file [newline])

/-- Writes character data: file, length, field width and address, from the top down. -/
def writeString : Action Machine Unit := do
  let file ← peekAddress 0
  let c ← peek 1
  let length ← Action.lift c.asWidth
  let d ← peek 2
  let width ← Action.lift d.asWidth
  let start ← peekAddress 3
  let bytes ← characters (min length width) start
  onFiles (Files.write file (Field.string width length bytes))
  drop 4

/-- Writes a value: file, field width and value, from the top down. -/
def writeValue (field : Nat → Cell → Except Fault (List UInt8)) : Action Machine Unit := do
  let file ← peekAddress 0
  let c ← peek 1
  let width ← Action.lift c.asWidth
  let value ← peek 2
  let bytes ← Action.lift (field width value)
  onFiles (Files.write file bytes)
  drop 3

/-- Reads a value: the file on top, the address to store it at below. -/
def readValue (value : Action TextInput Cell) : Action Machine Unit := do
  let file ← peekAddress 0
  let target ← peekAddress 1
  let c ← onFiles (Files.reading file value)
  write target c
  drop 2

/-- Tests the file on top of the stack for the end of a line. -/
def testLineEnd : Action Machine Unit := do
  let file ← peekAddress 0
  let b ← onFiles (Files.atLineEnd file)
  setTop (.bool b)

/-- Applies a function of one real argument to the top cell. -/
def applyMath (f : Procedure) : Action Machine Unit := do
  let c ← peek 0
  match f.math c with
  | some result =>
    let d ← Action.lift result
    setTop d
  | none => throw .noFunction

/-- What a standard procedure does. -/
def standard (f : Procedure) : Action Machine Unit :=
  match f with
  | .get => getCharacter
  | .put => putCharacter
  | .rst => do
    let a ← popAddress
    modify fun m => { m with np := a }
  | .rln => nextLine
  | .new => allocate
  | .wln => writeLine
  | .wrs => writeString
  | .eln => testLineEnd
  | .wri => writeValue fun width c => do
    let n ← c.asInt
    return Field.integer width n
  | .wrr => writeValue fun width c => do
    let x ← c.asReal
    return Field.real width x
  | .wrc => writeValue fun width c => do
    let b ← c.asCharacter
    return Field.character width b
  | .rdi => readValue (.int <$> TextInput.readInteger)
  | .rdr => readValue (.real <$> TextInput.readReal)
  | .rdc => readValue (.int <$> TextInput.read)
  | .sin | .cos | .exp | .log | .sqt | .atn => applyMath f
  | .sav => do
    let target ← popAddress
    let m ← get
    let heap := m.np
    write target (.address heap)

/-- Calls the standard procedure that an operand selects. -/
def callStandard (q : Word) : Action Machine Unit := do
  let f ← Action.orFault (Procedure.ofNumber? q) (.unknownProcedure q.toInt)
  standard f

end PMachine.Machine
