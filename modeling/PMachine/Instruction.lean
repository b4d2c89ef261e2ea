import PMachine.Instruction.Opcode
import PMachine.Instruction.Procedure

/-!
# Instructions

An instruction is an operation with two operands: `p` is a level, a size or a letter's place in a
table, `q` an offset, a constant or an address.

* `Instruction.text`: an instruction as program text, with the operands that its operation uses.
-/

namespace PMachine

/-- One machine instruction. -/
structure Instruction where
  op : Opcode
  p : Nat
  q : Word
deriving DecidableEq, Repr

namespace Instruction

/-- What stands at code addresses to which nothing was assembled. -/
instance : Inhabited Instruction := ⟨⟨.lod, 0, 0⟩⟩

/-- The letters after a comparison: addresses, integers, reals, truth values, sets, blocks. -/
def comparands : List Char := ['A', 'I', 'R', 'B', 'S', 'M']

/-- The place among `comparands` of the comparison of blocks. -/
def multiple : Nat := 5

/-- The letters after a return: none for a procedure, else the kind of the result. -/
def returns : List Char := ['P', 'I', 'R', 'C', 'B', 'A']

/-- The letter at a place of a table. -/
def letter (table : List Char) (p : Nat) : String := String.singleton ((table[p]?).getD '?')

/-- The operands of an instruction, each after a blank. -/
def operands (i : Instruction) : String :=
  let p := i.p
  let q := i.q.toInt
  match i.op with
  | .lod | .str | .lda | .cup | .lci => s!" {p} {q}"
  | .mst => s!" {p}"
  | .ret => " " ++ letter returns p
  | .equ | .neq | .geq | .grt | .leq | .les =>
    " " ++ letter comparands p ++ (if p = multiple then s!" {q}" else "")
  | .csp => match Procedure.ofNumber? i.q with
    | some f => " " ++ f.name
    | none => s!" ?{q}"
  | .ldc => match p with
    | 1 => s!" I {q}"
    | 3 => s!" B {q}"
    | _ => " N"
  | .ldo | .sro | .lao | .ind | .inc | .ixa | .mov | .dec | .ent | .ujp | .fjp | .xjp | .chk
  | .lca => s!" {q}"
  | _ => ""

/-- The written form of an instruction. -/
def text (i : Instruction) : String := i.op.mnemonic ++ i.operands

end Instruction

end PMachine
