import PMachine.Cell.Relation
import PMachine.Machine

/-!
# Blocks of cells

Work on a number of consecutive cells, one after the other and up to the first fault.

* `Machine.clear`: takes the values out of a block.
* `Machine.copy`: copies a block upward from its first cell.
* `Machine.compareBlocks`: orders two blocks by their first pair of different cells.
-/

namespace PMachine.Machine

/-- Takes the values out of `n` cells. -/
def clear : (n : Nat) → (a : Nat) → Action Machine Unit
  | 0, _ => return
  | n + 1, a => do
    write a .undefined
    clear n (a + 1)

/-- Copies `n` cells, from the first to the last. -/
def copy : (n : Nat) → (source target : Nat) → Action Machine Unit
  | 0, _, _ => return
  | n + 1, source, target => do
    let c ← read source
    write target c
    copy n (source + 1) (target + 1)

/-- The order of two blocks of `n` cells, which is that of their first pair of different cells. -/
def compareBlocks : (n : Nat) → (left right : Nat) → Action Machine Ordering
  | 0, _, _ => return .eq
  | n + 1, left, right => do
    let c ← read left
    let d ← read right
    if c.same d then compareBlocks n (left + 1) (right + 1)
    else Action.lift (c.order d)

/-- Whether a relation holds between two cells or, for the letter `M`, between the blocks of `q`
cells that they point to. -/
def relates (r : Relation) (p : Nat) (q : Word) (left right : Cell) : Action Machine Bool := do
  if p = Instruction.multiple then
    let a ← Action.lift left.asAddress
    let b ← Action.lift right.asAddress
    let o ← compareBlocks q.count a b
    return r.holds o
  else Action.lift (Cell.relates r left right)

/-- Replaces the two top cells by the truth value of a relation between them. -/
def compare (r : Relation) (p : Nat) (q : Word) : Action Machine Unit := do
  let right ← pop
  let left ← peek 0
  let b ← relates r p q left right
  setTop (.bool b)

end PMachine.Machine
