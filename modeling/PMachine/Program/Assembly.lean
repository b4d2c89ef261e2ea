import PMachine.Program
import PMachine.Program.Lines
import PMachine.Statement

/-!
# Assembling a program

A program text has two parts, each ended by a blank line. The first is the main code and starts at
address 3; the second is the startup code and starts at address 0. The first character of a line
tells what it is: `I` a comment, `L` the declaration of a label, a blank an instruction. What
follows the second blank line is left unread.

A fault in a line bears the number of the line; a fault of the text as a stream does not.

* `Assembly.part`: one part of the text.
* `Program.load`: the program of a text, and what was left unread.
-/

namespace PMachine

/-- What there is to report while a program is assembled. -/
inductive Notice where
  /-- A part starts at a code address and with a line. -/
  | part (start line : Nat)
  /-- A second declaration of a label was ignored. -/
  | duplicateLabel (label line : Nat)
  /-- The program is complete. -/
  | loaded (instructions lines : Nat)
deriving DecidableEq, Repr

/-- A program under construction. -/
structure Assembly where
  code : Array Instruction
  store : Store
  labels : Labels
  /-- The code address of the next instruction. -/
  pc : Nat
  /-- The number of lines read so far. -/
  lines : Nat
  /-- The reports so far. -/
  notices : Array Notice
deriving DecidableEq, Repr

namespace Assembly

/-- Nothing assembled yet; the startup code has its place. -/
def new (l : Limits) : Assembly where
  code := Array.replicate Program.mainStart default
  store := .new l
  labels := .new l.maxLabel
  pc := 0
  lines := 0
  notices := #[]

/-- Adds a report. -/
def report (n : Notice) : Action Assembly Unit :=
  modify fun s => { s with notices := s.notices.push n }

/-- Runs an action on the tables that constants and labels go to. -/
def onTables {α : Type} (act : Action Statement.Tables α) : Action Assembly α :=
  act.zoom (fun s => ⟨s.store, s.labels⟩) fun t s => { s with store := t.store, labels := t.labels }

/-- Runs an action on the code and its labels. -/
def onLinking {α : Type} (act : Action Linking α) : Action Assembly α :=
  act.zoom (fun s => ⟨s.labels, s.code⟩) fun t s => { s with labels := t.labels, code := t.code }

/-- Puts an instruction at an address of the code or right behind its end. -/
def place (pc : Nat) (i : Instruction) (code : Array Instruction) : Array Instruction :=
  if pc < code.size then code.setIfInBounds pc i else code.push i

/-- An instruction line. -/
def instruction (text : LineText) : Action Assembly Unit := do
  let s ← get
  let pc := s.pc
  if s.store.limits.codeSize ≤ pc then throw (.tableFull "CODE")
  let i ← onTables (Statement.assembleText text pc)
  modify fun s => { s with code := place pc i s.code, pc := pc + 1 }

/-- A label and the value that its declaration gives to it, if any. -/
def labelLine : Action LineText (Nat × Option Nat) := do
  let label ← Lexeme.unsigned
  match ← Lexeme.peekNonBlank with
  | some '=' =>
    modify List.tail
    let n ← Lexeme.integer
    let a ← Action.orFault n.toAddress? .negativeLabelValue
    return (label, some a)
  | _ => return (label, none)

/-- A label declaration. A label without a value gets the address of the next instruction. -/
def declaration (text : LineText) : Action Assembly Unit := do
  let (label, value) ← Action.lift (labelLine.outcome text)
  let s ← get
  let line := s.lines
  let address := value.getD s.pc
  let declare := onLinking (Linking.declare label address)
  declare.recover fun f =>
    if f.isFatal then throw f else report (.duplicateLabel label line)

/-- A line that is not blank. -/
def line : LineText → Action Assembly Unit
  | 'I' :: _ => return
  | 'L' :: text => declaration text
  | ' ' :: text => instruction text
  | _ => throw .badLineMarker

/-- Whether a source that fails after its bytes does so within this line. -/
def isCut (failure : Option String) (line : List UInt8) : Bool :=
  failure.isSome && line.getLast? ≠ some newline

/-- Reads lines up to a blank one or to the end of the text, and returns those after it. -/
def readLines (failure : Option String) :
    List (List UInt8) → Action Assembly (List (List UInt8))
  | [] => match failure with
    | some reason => throw (.disk reason)
    | none => return []
  | bytes :: rest => do
    if isCut failure bytes then throw (.disk (failure.getD ""))
    let chars ← Action.orFault (Lines.decode? bytes) .notUtf8
    let text := Lines.strip chars
    modify fun s => { s with lines := s.lines + 1 }
    if Lines.isBlank text then return rest
    let s ← get
    let number := s.lines
    (line text).mapFault (·.inLine number)
    readLines failure rest

/-- One part of the text, from a code address on. -/
def part (failure : Option String) (start : Nat) (lines : List (List UInt8)) :
    Action Assembly (List (List UInt8)) := do
  let s ← get
  report (.part start (s.lines + 1))
  modify fun s => { s with pc := start }
  readLines failure lines

/-- The program, if every label that is referenced is declared. -/
def finish : Action Assembly Program := do
  let s ← get
  match s.labels.unresolved? with
  | some label => throw (.undefinedLabel label)
  | none =>
    report (.loaded s.code.size s.lines)
    return ⟨s.code, s.store⟩

/-- Assembles a whole text; returns the program and what was left unread. -/
def run (text : Source) : Action Assembly (Program × List UInt8) := do
  let lines := Lines.split text.bytes
  let lines ← part text.failure Program.mainStart lines
  let lines ← part text.failure 0 lines
  let program ← finish
  return (program, lines.flatten)

end Assembly

/-- Loads a program under the given limits; returns it with what was left unread of the text. -/
def Program.load (l : Limits) (text : Source) : Except Fault (Program × List UInt8) :=
  (Assembly.run text).outcome (Assembly.new l)

end PMachine
