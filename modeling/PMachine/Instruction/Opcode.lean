/-!
# Operation codes

The operations of the machine in the order of their numbers, and their three-letter mnemonics.

* `Opcode.ofMnemonic?`: the operation that a mnemonic in program text stands for.
-/

namespace PMachine

/-- The operations of the machine. -/
inductive Opcode where
  /-- Load a variable: level difference, offset. -/
  | lod
  /-- Load a global variable. -/
  | ldo
  /-- Store into a variable: level difference, offset. -/
  | str
  /-- Store into a global variable. -/
  | sro
  /-- Load the address of a variable. -/
  | lda
  /-- Load the address of a global variable. -/
  | lao
  /-- Store through an address: the value on top, the address below it. -/
  | sto
  /-- Load a constant held in the instruction. -/
  | ldc
  /-- Load a constant from a pool. Only the assembler makes this one. -/
  | lci
  /-- Load through an address on top of the stack. -/
  | ind
  /-- Move the top of the stack up by a constant. -/
  | inc
  /-- Mark the stack for a call. -/
  | mst
  /-- Call a procedure: number of parameter cells, entry. -/
  | cup
  /-- Enter a procedure: size of its frame. -/
  | ent
  /-- Return from a procedure or function. -/
  | ret
  /-- Call a standard procedure. -/
  | csp
  /-- Index into an array: size of an element. -/
  | ixa
  /-- Compare for equality. -/
  | equ
  /-- Compare for inequality. -/
  | neq
  /-- Compare for at least. -/
  | geq
  /-- Compare for greater. -/
  | grt
  /-- Compare for at most. -/
  | leq
  /-- Compare for less. -/
  | les
  /-- Jump. -/
  | ujp
  /-- Jump if the top of the stack is false. -/
  | fjp
  /-- Jump by an index into a table of jumps. -/
  | xjp
  /-- Check the top of the stack against bounds. -/
  | chk
  /-- Test a file for its end. -/
  | eof
  /-- Add integers. -/
  | adi
  /-- Add reals. -/
  | adr
  /-- Subtract integers. -/
  | sbi
  /-- Subtract reals. -/
  | sbr
  /-- Make a set of one integer. -/
  | sgs
  /-- Convert the top of the stack to a real. -/
  | flt
  /-- Convert the cell below the top to a real. -/
  | flo
  /-- Truncate a real. -/
  | trc
  /-- Negate an integer. -/
  | ngi
  /-- Negate a real. -/
  | ngr
  /-- Square an integer. -/
  | sqi
  /-- Square a real. -/
  | sqr
  /-- Absolute value of an integer. -/
  | abi
  /-- Absolute value of a real. -/
  | abr
  /-- Negate a truth value. -/
  | not
  /-- Conjunction. -/
  | and
  /-- Disjunction. -/
  | ior
  /-- Difference of sets. -/
  | dif
  /-- Intersection of sets. -/
  | int
  /-- Union of sets. -/
  | uni
  /-- Membership in a set. -/
  | inn
  /-- Remainder of integers. -/
  | mod
  /-- Test an integer for oddness. -/
  | odd
  /-- Multiply integers. -/
  | mpi
  /-- Multiply reals. -/
  | mpr
  /-- Divide integers. -/
  | dvi
  /-- Divide reals. -/
  | dvr
  /-- Copy a block of cells. -/
  | mov
  /-- Load the address of character data. -/
  | lca
  /-- Move the top of the stack down by a constant. -/
  | dec
  /-- Stop. -/
  | stp
deriving DecidableEq, Repr

namespace Opcode

/-- All operations, in the order of their numbers. -/
def all : List Opcode :=
  [lod, ldo, str, sro, lda, lao, sto, ldc, lci, ind, inc, mst, cup, ent, ret, csp, ixa, equ,
   neq, geq, grt, leq, les, ujp, fjp, xjp, chk, eof, adi, adr, sbi, sbr, sgs, flt, flo, trc,
   ngi, ngr, sqi, sqr, abi, abr, not, and, ior, dif, int, uni, inn, mod, odd, mpi, mpr, dvi,
   dvr, mov, lca, dec, stp]

/-- The number of an operation: its place in the order. -/
def number (op : Opcode) : Nat := all.idxOf op

/-- The three letters that stand for an operation. -/
def mnemonic : Opcode → String
  | lod => "LOD"
  | ldo => "LDO"
  | str => "STR"
  | sro => "SRO"
  | lda => "LDA"
  | lao => "LAO"
  | sto => "STO"
  | ldc => "LDC"
  | lci => "LCI"
  | ind => "IND"
  | inc => "INC"
  | mst => "MST"
  | cup => "CUP"
  | ent => "ENT"
  | ret => "RET"
  | csp => "CSP"
  | ixa => "IXA"
  | equ => "EQU"
  | neq => "NEQ"
  | geq => "GEQ"
  | grt => "GRT"
  | leq => "LEQ"
  | les => "LES"
  | ujp => "UJP"
  | fjp => "FJP"
  | xjp => "XJP"
  | chk => "CHK"
  | eof => "EOF"
  | adi => "ADI"
  | adr => "ADR"
  | sbi => "SBI"
  | sbr => "SBR"
  | sgs => "SGS"
  | flt => "FLT"
  | flo => "FLO"
  | trc => "TRC"
  | ngi => "NGI"
  | ngr => "NGR"
  | sqi => "SQI"
  | sqr => "SQR"
  | abi => "ABI"
  | abr => "ABR"
  | not => "NOT"
  | and => "AND"
  | ior => "IOR"
  | dif => "DIF"
  | int => "INT"
  | uni => "UNI"
  | inn => "INN"
  | mod => "MOD"
  | odd => "ODD"
  | mpi => "MPI"
  | mpr => "MPR"
  | dvi => "DVI"
  | dvr => "DVR"
  | mov => "MOV"
  | lca => "LCA"
  | dec => "DEC"
  | stp => "STP"

/-- The operation with a mnemonic. The load of a pooled constant cannot be written. -/
def ofMnemonic? (name : String) : Option Opcode :=
  all.find? fun op => op.mnemonic = name ∧ op ≠ lci

end Opcode

end PMachine
