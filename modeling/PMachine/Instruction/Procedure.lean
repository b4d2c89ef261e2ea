import PMachine.Cell

/-!
# Standard procedures

The procedures that the machine provides itself, in the order of their numbers.

* `Procedure.ofName?`, `Procedure.ofNumber?`: a procedure by its name in program text and by the
  operand that selects it.
* `Procedure.math`: the functions of one real argument.
-/

namespace PMachine

/-- The standard procedures. -/
inductive Procedure where
  /-- Read the next character of a file into its buffer. -/
  | get
  /-- Write the buffer of a file. -/
  | put
  /-- Reset the heap. -/
  | rst
  /-- Go to the next line of a file. -/
  | rln
  /-- Allocate a block on the heap. -/
  | new
  /-- End a line of a file. -/
  | wln
  /-- Write character data. -/
  | wrs
  /-- Test a file for the end of a line. -/
  | eln
  /-- Write an integer. -/
  | wri
  /-- Write a real. -/
  | wrr
  /-- Write a character. -/
  | wrc
  /-- Read an integer. -/
  | rdi
  /-- Read a real. -/
  | rdr
  /-- Read a character. -/
  | rdc
  /-- Sine. -/
  | sin
  /-- Cosine. -/
  | cos
  /-- Exponential. -/
  | exp
  /-- Natural logarithm. -/
  | log
  /-- Square root. -/
  | sqt
  /-- Arc tangent. -/
  | atn
  /-- Save the bound of the heap. -/
  | sav
deriving DecidableEq, Repr

namespace Procedure

/-- All procedures, in the order of their numbers. -/
def all : List Procedure :=
  [get, put, rst, rln, new, wln, wrs, eln, wri, wrr, wrc, rdi, rdr, rdc, sin, cos, exp, log,
   sqt, atn, sav]

/-- The number of a procedure: its place in the order. -/
def number (f : Procedure) : Nat := all.idxOf f

/-- The three letters that stand for a procedure. -/
def name : Procedure → String
  | get => "GET"
  | put => "PUT"
  | rst => "RST"
  | rln => "RLN"
  | new => "NEW"
  | wln => "WLN"
  | wrs => "WRS"
  | eln => "ELN"
  | wri => "WRI"
  | wrr => "WRR"
  | wrc => "WRC"
  | rdi => "RDI"
  | rdr => "RDR"
  | rdc => "RDC"
  | sin => "SIN"
  | cos => "COS"
  | exp => "EXP"
  | log => "LOG"
  | sqt => "SQT"
  | atn => "ATN"
  | sav => "SAV"

/-- The procedure with a name. -/
def ofName? (s : String) : Option Procedure := all.find? fun f => f.name = s

/-- The procedure that an operand selects. -/
def ofNumber? (n : Word) : Option Procedure := n.toAddress?.bind (all[·]?)

/-- The function of reals that a procedure computes, if it is one. -/
def realFunction? : Procedure → Option (Float → Float)
  | sin => some Float.sin
  | cos => some Float.cos
  | exp => some Float.exp
  | log => some Float.log
  | sqt => some Float.sqrt
  | atn => some Float.atan
  | _ => none

/-- The value of a function at the number in a cell; `none` if the procedure is no function. -/
def math (f : Procedure) (c : Cell) : Option (Except Fault Cell) :=
  f.realFunction?.map fun g => c.asReal.map fun x => .real (x.map g)

end Procedure

end PMachine
