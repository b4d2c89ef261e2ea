/-!
# Limits

The sizes of the regions of the store and of the tables of the loader.

* `Pool`: the constant pools, in the order in which they stand above the stack.
* `Limits.poolStart`: the first address of a pool.
-/

namespace PMachine

/-- The constant pools, in address order. -/
inductive Pool where
  | integer
  | real
  | set
  /-- Pairs of bounds, two cells each. -/
  | boundary
  /-- Character data. -/
  | multiple
deriving DecidableEq, Repr

namespace Pool

/-- All pools, in address order. -/
def all : List Pool := [integer, real, set, boundary, multiple]

/-- The name of a pool in messages. -/
def name : Pool → String
  | integer => "INTEGER"
  | real => "REAL"
  | set => "SET"
  | boundary => "BOUNDARY"
  | multiple => "MULTIPLE"

end Pool

/-- One natural number for each pool. -/
structure Pool.Tally where
  integer : Nat := 0
  real : Nat := 0
  set : Nat := 0
  boundary : Nat := 0
  multiple : Nat := 0
deriving DecidableEq, Repr

namespace Pool.Tally

instance : Inhabited Tally := ⟨{}⟩

/-- The number of a pool. -/
def get (t : Tally) : Pool → Nat
  | .integer => t.integer
  | .real => t.real
  | .set => t.set
  | .boundary => t.boundary
  | .multiple => t.multiple

/-- The tally with `n` added to the number of a pool. -/
def add (t : Tally) (n : Nat) : Pool → Tally
  | .integer => { t with integer := t.integer + n }
  | .real => { t with real := t.real + n }
  | .set => { t with set := t.set + n }
  | .boundary => { t with boundary := t.boundary + n }
  | .multiple => { t with multiple := t.multiple + n }

/-- The sum of the numbers of the pools before a pool. -/
def before (t : Tally) : Pool → Nat
  | .integer => 0
  | .real => t.integer
  | .set => t.integer + t.real
  | .boundary => t.integer + t.real + t.set
  | .multiple => t.integer + t.real + t.set + t.boundary

end Pool.Tally

/-- The limits of a machine. -/
structure Limits where
  /-- The highest address of the stack. -/
  stackSize : Nat := 13650
  /-- The number of cells of each pool. -/
  pools : Pool.Tally := { integer := 5, real := 5, set := 70, boundary := 4, multiple := 1300 }
  /-- The number of instructions for which there is room. -/
  codeSize : Nat := 15000
  /-- The highest label. -/
  maxLabel : Nat := 1550
deriving DecidableEq, Repr

namespace Limits

instance : Inhabited Limits := ⟨{}⟩

/-- The first address of a pool. -/
def poolStart (l : Limits) (p : Pool) : Nat := l.stackSize + 1 + l.pools.before p

/-- The first address after a pool. -/
def poolEnd (l : Limits) (p : Pool) : Nat := l.poolStart p + l.pools.get p

end Limits

end PMachine
