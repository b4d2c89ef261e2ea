import PMachine.Instruction
import PMachine.Label
import PMachine.Lexeme
import PMachine.Store

/-!
# Statements

A statement is the text of one instruction before its constants have a place in the store and its
label an address. Reading a statement depends on its text alone; what follows its operands is
ignored. Assembling it enters constants into the pools and references into the labels.

* `Statement.parse`: the statement that a text stands for.
* `Statement.assemble`: its instruction, at a code address.
-/

namespace PMachine

/-- An instruction as it is written. -/
inductive Statement where
  /-- An instruction complete in itself. -/
  | plain (i : Instruction)
  /-- An instruction with a label for its second operand. -/
  | labelled (op : Opcode) (p : Nat) (label : Nat)
  /-- The load of an integer. -/
  | integer (n : Word)
  /-- The load of a real. -/
  | real (x : Binary64)
  /-- The load of a set. -/
  | set (s : IntSet)
  /-- A check against bounds. -/
  | bounds (lower upper : Word)
  /-- The load of the address of character data. -/
  | bytes (l : List UInt8)
deriving DecidableEq, Repr

namespace Statement

/-! ### Reading -/

/-- A letter of a table, by its place in it. -/
def letter (table : List Char) : Action LineText Nat := do
  let c ← Lexeme.nonBlank
  Action.orFault (c.bind fun c => table.idxOf? c.toUpper) .badTypeLetter

/-- The integers of a set up to the closing parenthesis. Each round but the last consumes a character,
so that more rounds than the length of the text are never used up. -/
def members : (rounds : Nat) → Action LineText (List Word)
  | 0 => throw .endless
  | rounds + 1 => do
    match ← Lexeme.peekNonBlank with
    | none => throw .unterminatedSet
    | some ')' => return []
    | some ',' =>
      modify List.tail
      members rounds
    | some _ =>
      let n ← Lexeme.integer
      let more ← members rounds
      return n :: more

/-- The operand of a load: an integer, a real, nothing, a truth value or a set. -/
def constant : Action LineText Statement := do
  match ← Lexeme.nonBlank with
  | some 'I' | some 'i' =>
    let n ← Lexeme.integer
    return integer n
  | some 'R' | some 'r' =>
    let x ← Lexeme.real
    return real x
  | some 'N' | some 'n' => return plain ⟨.ldc, 0, 0⟩
  | some 'B' | some 'b' =>
    let n ← Lexeme.integer
    return plain ⟨.ldc, 3, n⟩
  | some '(' =>
    let text ← get
    let l ← members (text.length + 1)
    return set (.ofList l)
  | _ => throw .badConstantType

/-- The operands of an operation. -/
def operands (op : Opcode) : Action LineText Statement := do
  match op with
  | .equ | .neq | .geq | .grt | .leq | .les =>
    let p ← letter Instruction.comparands
    if p = Instruction.multiple then
      let q ← Lexeme.integer
      return plain ⟨op, p, q⟩
    else return plain ⟨op, p, 0⟩
  | .lod | .str | .lda =>
    let p ← Lexeme.unsigned
    let q ← Lexeme.integer
    return plain ⟨op, p, q⟩
  | .cup =>
    let p ← Lexeme.unsigned
    let l ← Lexeme.label
    return labelled op p l
  | .mst =>
    let p ← Lexeme.unsigned
    return plain ⟨op, p, 0⟩
  | .ret =>
    let p ← letter Instruction.returns
    return plain ⟨op, p, 0⟩
  | .ldo | .sro | .lao | .ind | .inc | .ixa | .mov | .dec =>
    let q ← Lexeme.integer
    return plain ⟨op, 0, q⟩
  | .ent | .ujp | .fjp | .xjp =>
    let l ← Lexeme.label
    return labelled op 0 l
  | .csp =>
    let name ← Lexeme.name
    let f ← Action.orFault (Procedure.ofName? name) (.unknownName name)
    return plain ⟨op, 0, Int64.ofNat f.number⟩
  | .ldc => constant
  | .chk =>
    let c ← Lexeme.peekNonBlank
    if c.any Char.isAlpha then modify List.tail
    let lower ← Lexeme.integer
    let upper ← Lexeme.integer
    return bounds lower upper
  | .lca =>
    let c ← Lexeme.nonBlank
    if c ≠ some '\'' then throw .quoteExpected
    let text ← Lexeme.upTo '\''
    return bytes (text.flatMap String.utf8EncodeChar)
  | _ => return plain ⟨op, 0, 0⟩

/-- Reads a mnemonic and the operands that it asks for. -/
def read : Action LineText Statement := do
  let name ← Lexeme.name
  let op ← Action.orFault (Opcode.ofMnemonic? name) (.unknownName name)
  operands op

/-- The statement that a text stands for. -/
def parse (text : LineText) : Except Fault Statement := read.outcome text

/-! ### Assembling -/

/-- The tables that assembling fills. -/
structure Tables where
  store : Store
  labels : Labels
deriving DecidableEq, Repr

instance : Inhabited Tables := ⟨⟨default, default⟩⟩

/-- Integers up to this size stand in the instruction itself; larger ones go to the pool. -/
def largestInline : Nat := 524288

/-- Runs an action on the store of the tables. -/
def onStore {α : Type} (act : Action Store α) : Action Tables α :=
  act.zoom (·.store) fun store t => { t with store }

/-- Runs an action on the labels of the tables. -/
def onLabels {α : Type} (act : Action Labels α) : Action Tables α :=
  act.zoom (·.labels) fun labels t => { t with labels }

/-- The load of a pooled constant; `kind` tells integers, reals and sets apart. -/
def pooled (kind : Nat) (p : Pool) (c : Cell) : Action Tables Instruction := do
  let a ← onStore (Store.intern p c)
  return ⟨.lci, kind, Address.toWord a⟩

/-- The instruction of a statement that stands at the code address `pc`. -/
def assemble (pc : Nat) : Statement → Action Tables Instruction
  | plain i => return i
  | labelled op p label => do
    let q ← onLabels (Labels.reference label pc)
    return ⟨op, p, q⟩
  | integer n =>
    if largestInline < n.toInt.natAbs then pooled 1 .integer (.int n)
    else return ⟨.ldc, 1, n⟩
  | real x => pooled 2 .real (.real x)
  | set s => pooled 4 .set (.set s)
  | bounds lower upper => do
    let a ← onStore (Store.internBounds lower upper)
    return ⟨.chk, 0, Address.toWord a⟩
  | bytes l => do
    let a ← onStore (Store.appendBytes l)
    return ⟨.lca, 0, Address.toWord a⟩

/-- Reads the text of an instruction and assembles it at the code address `pc`. -/
def assembleText (text : LineText) (pc : Nat) : Action Tables Instruction := do
  let s ← Action.lift (parse text)
  s.assemble pc

end Statement

end PMachine
