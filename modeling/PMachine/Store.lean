import PMachine.Action
import PMachine.Cell
import PMachine.Limits

/-!
# The store

One array of cells: the stack from address 0 to the stack size, and above it the constant pools.
The first address past the last pool serves as the pointer to nothing.

A pool hands out its cells in order. Integers, reals, sets and pairs of bounds are entered once and
shared by all their uses; character data is never shared.

* `Store.contents`: the constants entered into a pool so far.
* `Store.intern`: the address of a constant, entered if it is new.
* `Store.read`, `Store.write`: a cell by its address.
-/

namespace PMachine

/-- The memory of the machine. -/
structure Store where
  /-- The sizes of the regions. -/
  limits : Limits
  /-- All cells, by address. -/
  cells : Array Cell
  /-- The number of cells that each pool has handed out. -/
  used : Pool.Tally
deriving DecidableEq, Repr

namespace Store

instance : Inhabited Store := ⟨⟨default, #[], default⟩⟩

/-- What a pool holds before anything is entered. -/
def blank : Pool → Cell
  | .real => .real .zero
  | .set => .set ∅
  | .integer | .boundary | .multiple => .int 0

/-- A store of the given sizes: nothing on the stack, and the pools empty. -/
def new (l : Limits) : Store where
  limits := l
  cells := Pool.all.foldl (fun cells p => cells ++ Array.replicate (l.pools.get p) (blank p))
    (Array.replicate (l.stackSize + 1) .undefined)
  used := {}

/-- The number of cells. -/
def size (s : Store) : Nat := s.cells.size

/-- The pointer to nothing; no cell has this address. -/
def nil (s : Store) : Nat := s.cells.size

/-- The first address of a pool. -/
def start (s : Store) (p : Pool) : Nat := s.limits.poolStart p

/-- The number of cells that a pool can still hand out. -/
def room (s : Store) (p : Pool) : Nat := s.limits.pools.get p - s.used.get p

/-- The address of the next cell that a pool hands out. -/
def free (s : Store) (p : Pool) : Nat := s.start p + s.used.get p

/-- The cells that a pool has handed out, in order. -/
def contents (s : Store) (p : Pool) : List Cell := (s.cells.extract (s.start p) (s.free p)).toList

/-- The cell at an address. -/
def read (s : Store) (a : Nat) : Except Fault Cell :=
  match s.cells[a]? with
  | some c => .ok c
  | none => .error .addressOutOfStore

/-- Replaces the cell at an address. -/
def write (a : Nat) (c : Cell) : Action Store Unit := fun s =>
  if h : a < s.cells.size then .ok () { s with cells := s.cells.set a c }
  else .error .addressOutOfStore s

/-- Replaces consecutive cells from an address on. -/
def overwrite (cells : Array Cell) (a : Nat) : List Cell → Array Cell
  | [] => cells
  | c :: more => overwrite (cells.setIfInBounds a c) (a + 1) more

/-- Enters cells into a pool and returns the address of the first one; refused if they do not all
fit. -/
def append (p : Pool) (new : List Cell) : Action Store Nat := fun s =>
  if new.length ≤ s.room p then
    let a := s.free p
    .ok a { s with cells := overwrite s.cells a new, used := s.used.add new.length p }
  else .error (.tableFull p.name) s

/-- The address of a constant in a pool, entered if it is not there. Reals are told apart by their
bits. -/
def intern (p : Pool) (c : Cell) : Action Store Nat := fun s =>
  match (s.contents p).idxOf? c with
  | some i => .ok (s.start p + i) s
  | none => append p [c] s

/-- The place of two neighbouring cells in a list of pairs. -/
def pairIdx? (c d : Cell) : List Cell → Option Nat
  | c₁ :: d₁ :: more =>
    if c₁ = c ∧ d₁ = d then some 0 else (pairIdx? c d more).map (· + 2)
  | _ => none

/-- The address of the upper of two bounds, entered if the pair is not there. The lower one stands
below it. -/
def internBounds (lower upper : Word) : Action Store Nat := do
  let s ← get
  match pairIdx? (.int lower) (.int upper) (s.contents .boundary) with
  | some i => return s.start .boundary + i + 1
  | none =>
    let a ← append .boundary [.int lower, .int upper]
    return a + 1

/-- Enters character data and returns the address of its first cell. -/
def appendBytes (bytes : List UInt8) : Action Store Nat :=
  append .multiple (bytes.map fun b => .int (Int64.ofNat b.toNat))

end Store

end PMachine
