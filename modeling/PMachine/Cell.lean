import PMachine.Fault
import PMachine.IntSet
import PMachine.Decimal.Layout

/-!
# Cells

Every location of the store holds one cell: a typed value, or no value at all. A cell without a
value is not zero, and to compute with it is a fault.

* `Cell.asInt`, `Cell.asReal`, `Cell.asBool`, `Cell.asSet`, `Cell.asAddress`: the value of a cell
  where a kind of value is demanded.
* `Cell.same`: equality of contents, reals by value.
-/

namespace PMachine

/-- The content of a store location. -/
inductive Cell where
  /-- No value. -/
  | undefined
  | int (n : Word)
  | real (x : Binary64)
  | bool (b : Bool)
  | set (s : IntSet)
  /-- A pointer into the store. -/
  | address (a : Nat)
  /-- Frame linkage: a static link, a dynamic link or a return address. -/
  | mark (a : Nat)
deriving DecidableEq, Repr

namespace Cell

instance : Inhabited Cell := ⟨undefined⟩

/-- Whether the cell has no value. -/
def isUndefined : Cell → Bool
  | undefined => true
  | _ => false

/-- The cell itself, if it has a value. -/
def defined : Cell → Except Fault Cell
  | undefined => .error .valueUndefined
  | c => .ok c

/-- The integer in a cell. -/
def asInt : Cell → Except Fault Word
  | int n => .ok n
  | undefined => .error .valueUndefined
  | _ => .error .notInteger

/-- The real in a cell; an integer is converted. -/
def asReal : Cell → Except Fault Binary64
  | real x => .ok x
  | int n => .ok (.ofWord n)
  | undefined => .error .valueUndefined
  | _ => .error .notReal

/-- The truth value in a cell. -/
def asBool : Cell → Except Fault Bool
  | bool b => .ok b
  | undefined => .error .valueUndefined
  | _ => .error .notBool

/-- The set in a cell. -/
def asSet : Cell → Except Fault IntSet
  | set s => .ok s
  | undefined => .error .valueUndefined
  | _ => .error .notSet

/-- The location that a cell names: an address, a mark, or an integer that is not negative. -/
def asAddress : Cell → Except Fault Nat
  | address a => .ok a
  | mark a => .ok a
  | int n => match n.toAddress? with
    | some a => .ok a
    | none => .error .negativeAddress
  | undefined => .error .valueUndefined
  | _ => .error .notAddress

/-- Equality of contents: cells of one kind with equal values, reals by value and not by bits. -/
def same : Cell → Cell → Bool
  | undefined, undefined => true
  | int m, int n => m = n
  | real x, real y => x.sameValue y
  | bool a, bool b => a = b
  | set s, set t => s = t
  | address a, address b => a = b
  | mark a, mark b => a = b
  | _, _ => false

/-- The name of the kind of a cell. -/
def tag : Cell → String
  | undefined => "UNDEF"
  | int _ => "INT"
  | real _ => "REAL"
  | bool _ => "BOOL"
  | set _ => "SET"
  | address _ => "ADR"
  | mark _ => "MARK"

/-- Reals in listings: plain exponents, as short as they are. -/
def realLayout : Decimal.Layout where
  nan := "NaN"
  signedExponent := false
  exponentWidth := 1

/-- The written form of a cell. -/
def text : Cell → String
  | undefined => "UNDEF"
  | int n => toString n.toInt
  | real x => String.ofList (x.chars realLayout)
  | bool b => if b then "true" else "false"
  | set s => s.text
  | address a => s!"@{a}"
  | mark a => s!"#{a}"

end Cell

end PMachine
