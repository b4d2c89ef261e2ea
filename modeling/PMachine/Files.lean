import PMachine.Files.Sink
import PMachine.Files.TextInput

/-!
# Files

The machine knows four files by number: the input and output of the terminal, and a second pair,
`prd` to read and `prr` to write. The number of a file is also the address of its buffer.

* `Channel.ofNumber`: the file with a number.
* `Files.reading`, `Files.writing`: work on a file, refused against its direction.
-/

namespace PMachine

/-- The files of the machine. -/
inductive Channel where
  | input
  | output
  | prd
  | prr
deriving DecidableEq, Repr

namespace Channel

/-- The number of a file. -/
def number : Channel → Nat
  | input => 4
  | output => 5
  | prd => 6
  | prr => 7

/-- The file with a number. -/
def ofNumber : Nat → Except Fault Channel
  | 4 => .ok input
  | 5 => .ok output
  | 6 => .ok prd
  | 7 => .ok prr
  | _ => .error .badFileNumber

end Channel

/-- The four files, open. -/
structure Files where
  input : TextInput := default
  output : Sink := {}
  prd : TextInput := default
  prr : Sink := {}
deriving DecidableEq, Repr

namespace Files

instance : Inhabited Files := ⟨{}⟩

variable {α : Type}

/-- Works on the file with the given number, which must be one to read. -/
def reading (file : Nat) (act : Action TextInput α) : Action Files α := do
  match ← Action.lift (Channel.ofNumber file) with
  | .input => act.zoom (·.input) fun input f => { f with input }
  | .prd => act.zoom (·.prd) fun prd f => { f with prd }
  | .output | .prr => throw .readsOutput

/-- Works on the file with the given number, which must be one to write. -/
def writing (file : Nat) (act : Action Sink α) : Action Files α := do
  match ← Action.lift (Channel.ofNumber file) with
  | .output => act.zoom (·.output) fun output f => { f with output }
  | .prr => act.zoom (·.prr) fun prr f => { f with prr }
  | .input | .prd => throw .writesInput

/-- Whether a file is at its end; a file to write always is. -/
def atEnd (file : Nat) : Action Files Bool := do
  match ← Action.lift (Channel.ofNumber file) with
  | .input | .prd => reading file TextInput.atEnd
  | .output | .prr => return true

/-- Whether a file to read is at the end of a line. -/
def atLineEnd (file : Nat) : Action Files Bool := reading file TextInput.atLineEnd

/-- Writes bytes to a file. -/
def write (file : Nat) (bytes : List UInt8) : Action Files Unit := writing file (Sink.write bytes)

/-- Flushes the files to write, `output` first. -/
def flush (f : Files) : Except Fault Unit := do
  f.output.flush
  f.prr.flush

end Files

end PMachine
