import PMachine.Cursor
import PMachine.Files.Source

/-!
# Text input

A file open for reading. A line is fetched when a byte of it is asked for, so that the end of a line
is known without the next one. A carriage return before the end of a line is dropped. A file that
was seen to be at its end stays there, whatever its source delivers later.

* `TextInput.read`: the code of the next character; 13 for the end of a line, 0 at the end.
* `TextInput.atEnd`, `TextInput.atLineEnd`: the two tests, which consume nothing.
* `TextInput.readInteger`, `TextInput.readReal`: a number, after white space.
-/

namespace PMachine

/-- A file open for reading. -/
structure TextInput where
  /-- The rest of the line that was fetched last. -/
  line : List UInt8
  /-- Where further lines come from. -/
  source : Source
  /-- Whether a fetch has found nothing. -/
  ended : Bool := false
deriving DecidableEq, Repr

namespace TextInput

instance : Inhabited TextInput := ⟨{ line := [], source := default }⟩

/-- A file at its start. -/
def ofSource (source : Source) : TextInput := { line := [], source }

/-- Drops a carriage return that stands right before the end of a line. -/
def dropReturn : List UInt8 → List UInt8
  | [] => []
  | b :: l => if b = 13 ∧ l = [newline] then l else b :: dropReturn l

/-- Fetches a line if nothing is left of the last one. A fetch that fails leaves what it delivered
for later reads. -/
def fill : Action TextInput Unit := fun t =>
  if t.line.isEmpty && !t.ended then
    let (f, source) := t.source.fetch
    match f.failure with
    | some reason => .error (.disk reason) { t with line := f.bytes, source }
    | none => .ok () ⟨dropReturn f.bytes, source, f.bytes.isEmpty⟩
  else .ok () t

/-- The next byte, or `none` at the end of the file. -/
def peekByte : Action TextInput (Option UInt8) := do
  fill
  let t ← get
  return t.line.head?

instance : Cursor TextInput where
  peek := do
    let b ← peekByte
    return b.map fun b => Char.ofNat b.toNat
  advance := fun t => { t with line := t.line.tail }
  left := fun t => t.line.length + t.source.bytes.length

/-- Whether nothing is left to read. -/
def atEnd : Action TextInput Bool := do
  let b ← peekByte
  return b.isNone

/-- Whether the line, or the file, is at its end. -/
def atLineEnd : Action TextInput Bool := do
  let b ← peekByte
  return b.all (· = newline)

/-- The code that stands for the end of a line. -/
def carriageReturn : Word := 13

/-- The code of the next character, which is consumed. -/
def read : Action TextInput Word := do
  match ← peekByte with
  | none => return 0
  | some b =>
    modify Cursor.advance
    return if b = newline then carriageReturn else Int64.ofNat b.toNat

/-- Goes to the start of the next line. -/
def readLine : Action TextInput Unit := do
  let _ ← Cursor.takeWhile (· ≠ '\n')
  let _ ← Cursor.accept (· = '\n')

/-- White space between numbers: blank, tab, form feed and the ends of lines. -/
def isSpace (c : Char) : Bool := c = ' ' || c = '\t' || c = '\n' || c = '\x0c' || c = '\r'

/-- Steps over white space, also across lines. -/
def skipSpace : Action TextInput Unit := do
  let _ ← Cursor.takeWhile isSpace

/-- An integer that fits a word. -/
def readInteger : Action TextInput Word := do
  skipSpace
  let n ← Cursor.integer
  Action.orFault (Word.ofInt? n) .integerInput

/-- A real number. -/
def readReal : Action TextInput Binary64 := do
  skipSpace
  let d ← Cursor.decimal
  return d.toBinary64

end TextInput

end PMachine
