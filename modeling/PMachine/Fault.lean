/-!
# Faults

Everything that can stop the loader or the machine is a `Fault`: a kind, an optional detail, and
the place where it arose (a line of the program text, a code address, or both).

* `Fault.Kind.number`, `Fault.Kind.text`: the code and the wording of each kind.
* `Fault.text`: the full message, kind and place first, the detail after a semicolon.
* One named fault per cause, so that no message is worded outside this file; only what a stream
  gives as its reason is its own.
* `Fault.endless`: what stands for an outcome where there is none.
-/

namespace PMachine

/-- The kinds of fault. -/
inductive Fault.Kind where
  /-- The program text or the input does not have the expected form. -/
  | parse
  /-- A result does not fit a machine integer. -/
  | overflow
  /-- Stack and heap would meet. -/
  | storeOverflow
  /-- A label is referenced and never declared. -/
  | undefinedLabel
  /-- A value lies outside its range. -/
  | valueOutOfRange
  /-- A label is declared a second time. -/
  | duplicateLabel
  /-- A divisor is zero. -/
  | divisionByZero
  /-- A cell has another kind than its use demands. -/
  | typeMismatch
  /-- A cell without a value is used. -/
  | valueUndefined
  /-- A constant pool or the code table is full. -/
  | tableOverflow
  /-- No instruction or standard procedure has this name. -/
  | unknownInstruction
  /-- The run was interrupted from outside. -/
  | interrupted
  /-- The program left the bounds of the machine. -/
  | internal
  /-- No file has this number. -/
  | badFileNumber
  /-- A file is used against its direction. -/
  | badFileMode
  /-- A stream failed. -/
  | disk
deriving DecidableEq, Repr

namespace Fault.Kind

/-- The code of a kind. -/
def number : Kind → Nat
  | parse => 2
  | overflow => 6
  | storeOverflow => 7
  | undefinedLabel => 8
  | valueOutOfRange => 9
  | duplicateLabel => 10
  | divisionByZero => 11
  | typeMismatch => 13
  | valueUndefined => 14
  | tableOverflow => 16
  | unknownInstruction => 18
  | interrupted => 21
  | internal => 51
  | badFileNumber => 52
  | badFileMode => 54
  | disk => 57

/-- The wording of a kind. -/
def text : Kind → String
  | parse => "PARSE FAULT"
  | overflow => "OVERFLOW"
  | storeOverflow => "STORE OVERFLOW"
  | undefinedLabel => "UNDEFINED LABEL"
  | valueOutOfRange => "VALUE OUT OF RANGE"
  | duplicateLabel => "DUPLICATED LABEL"
  | divisionByZero => "DIVISION BY ZERO"
  | typeMismatch => "TYPE MISMATCH"
  | valueUndefined => "VALUE UNDEFINED"
  | tableOverflow => "TABLE OVERFLOW"
  | unknownInstruction => "UNKNOWN INSTRUCTION"
  | interrupted => "BREAK"
  | internal => "INTERNAL ERROR"
  | badFileNumber => "BAD FILE NUMBER"
  | badFileMode => "BAD FILE MODE"
  | disk => "DISK I/O ERROR"

end Fault.Kind

/-- A fault: its kind, a detail (empty if there is none), and the place where it arose. -/
structure Fault where
  kind : Fault.Kind
  detail : String := ""
  /-- Line of the program text, counted from 1. -/
  line : Option Nat := none
  /-- Code address of the instruction at fault. -/
  address : Option Nat := none
deriving DecidableEq, Repr

namespace Fault

/-- The same fault, placed in a line of the program text. -/
def inLine (f : Fault) (line : Nat) : Fault := { f with line := some line }

/-- The same fault, placed at a code address. -/
def atAddress (f : Fault) (address : Nat) : Fault := { f with address := some address }

/-- Loading goes on after a duplicate label and after no other fault. -/
def isFatal (f : Fault) : Bool := f.kind ≠ .duplicateLabel

/-- The place as it stands in a message, empty if none is known. -/
def place (f : Fault) : String :=
  (f.line.elim "" fun n => s!" LINE {n}") ++ (f.address.elim "" fun a => s!" ADDRESS {a}")

/-- The message: kind, place and detail. -/
def text (f : Fault) : String :=
  f.kind.text ++ (if f.place.isEmpty then "" else " IN" ++ f.place)
    ++ (if f.detail.isEmpty then "" else "; " ++ f.detail)

/-- The message inside braces, as diagnostics show it. -/
def inspect (f : Fault) : String := "Error \x7b " ++ f.text ++ " \x7d"

/-! ### Causes in program text -/

def nameExpected : Fault := ⟨.parse, "NAME EXPECTED", none, none⟩
def integerExpected : Fault := ⟨.parse, "INTEGER EXPECTED", none, none⟩
def integerTooLarge : Fault := ⟨.parse, "INTEGER TOO LARGE", none, none⟩
def realExpected : Fault := ⟨.parse, "REAL EXPECTED", none, none⟩
def exponentExpected : Fault := ⟨.parse, "EXPONENT EXPECTED", none, none⟩
def labelExpected : Fault := ⟨.parse, "LABEL EXPECTED", none, none⟩
def quoteExpected : Fault := ⟨.parse, "QUOTE EXPECTED", none, none⟩
def unterminatedString : Fault := ⟨.parse, "UNTERMINATED STRING", none, none⟩
def unterminatedSet : Fault := ⟨.parse, "UNTERMINATED SET", none, none⟩
def badTypeLetter : Fault := ⟨.parse, "BAD TYPE LETTER", none, none⟩
def badConstantType : Fault := ⟨.parse, "BAD CONSTANT TYPE", none, none⟩
def badLineMarker : Fault := ⟨.parse, "BAD LINE MARKER", none, none⟩
def labelOutOfRange : Fault := ⟨.parse, "LABEL OUT OF RANGE", none, none⟩
def negativeLabelValue : Fault := ⟨.parse, "NEGATIVE LABEL VALUE", none, none⟩
def duplicateLabel : Fault := ⟨.duplicateLabel, "", none, none⟩

/-- The label is referenced and never declared. -/
def undefinedLabel (label : Nat) : Fault := ⟨.undefinedLabel, s!"L{label}", none, none⟩

/-- No instruction or procedure is called `name`. -/
def unknownName (name : String) : Fault := ⟨.unknownInstruction, name, none, none⟩

/-- The named table has no room left. -/
def tableFull (table : String) : Fault := ⟨.tableOverflow, table, none, none⟩

/-- The references to a label do not lead back to the first one. -/
def brokenLabelChain : Fault := ⟨.internal, "BROKEN LABEL CHAIN", none, none⟩

/-- There is no outcome: what was to be done goes on for ever. No program is told so. -/
def endless : Fault := ⟨.internal, "ENDLESS", none, none⟩

/-- Whether there is no outcome, wherever the end was waited for. -/
def isEndless (f : Fault) : Bool := f.kind = endless.kind && f.detail = endless.detail

/-! ### Causes in values -/

def valueUndefined : Fault := ⟨.valueUndefined, "", none, none⟩
def typeMismatch : Fault := ⟨.typeMismatch, "", none, none⟩
def notInteger : Fault := ⟨.typeMismatch, "INTEGER EXPECTED", none, none⟩
def notReal : Fault := ⟨.typeMismatch, "REAL EXPECTED", none, none⟩
def notBool : Fault := ⟨.typeMismatch, "BOOLEAN EXPECTED", none, none⟩
def notSet : Fault := ⟨.typeMismatch, "SET EXPECTED", none, none⟩
def notAddress : Fault := ⟨.typeMismatch, "ADDRESS EXPECTED", none, none⟩
def negativeAddress : Fault := ⟨.typeMismatch, "NEGATIVE ADDRESS", none, none⟩
def unorderedReal : Fault := ⟨.typeMismatch, "UNORDERED REAL", none, none⟩
def overflow : Fault := ⟨.overflow, "", none, none⟩
def divisionByZero : Fault := ⟨.divisionByZero, "", none, none⟩
def valueOutOfRange : Fault := ⟨.valueOutOfRange, "", none, none⟩
def addressBelowZero : Fault := ⟨.valueOutOfRange, "NEGATIVE ADDRESS", none, none⟩
def characterCode : Fault := ⟨.valueOutOfRange, "CHARACTER CODE", none, none⟩

/-- The value lies outside the bounds that a range check allows. -/
def notInRange (value lower upper : Int) : Fault :=
  ⟨.valueOutOfRange, s!"{value} NOT IN {lower}..{upper}", none, none⟩

/-! ### Causes in a run -/

def addressOutOfStore : Fault := ⟨.internal, "ADDRESS OUT OF STORE", none, none⟩
def stackUnderflow : Fault := ⟨.internal, "STACK UNDERFLOW", none, none⟩
def pcOutOfCode : Fault := ⟨.internal, "PC OUT OF CODE", none, none⟩
def storeOverflow : Fault := ⟨.storeOverflow, "", none, none⟩
def interrupted : Fault := ⟨.interrupted, "", none, none⟩
def noFunction : Fault := ⟨.internal, "", none, none⟩

/-- No standard procedure has this number. -/
def unknownProcedure (number : Int) : Fault :=
  ⟨.unknownInstruction, s!"CSP {number}", none, none⟩

/-! ### Causes in files -/

def badFileNumber : Fault := ⟨.badFileNumber, "", none, none⟩
def readsOutput : Fault := ⟨.badFileMode, "OUTPUT FILE", none, none⟩
def writesInput : Fault := ⟨.badFileMode, "INPUT FILE", none, none⟩
def integerInput : Fault := ⟨.overflow, "INTEGER INPUT", none, none⟩

/-- A stream failed for the given reason. -/
def disk (reason : String) : Fault := ⟨.disk, reason, none, none⟩

/-- The file at a path cannot be opened. -/
def cannotOpen (path reason : String) : Fault := disk (path ++ ": " ++ reason)

/-- A line of program text is not UTF-8. -/
def notUtf8 : Fault := disk "stream did not contain valid UTF-8"

end Fault

end PMachine
