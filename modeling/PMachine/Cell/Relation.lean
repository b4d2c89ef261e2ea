import PMachine.Cell

/-!
# Comparing cells

Scalars of one kind are ordered; sets are compared by inclusion. Addresses and marks count as one
kind.

* `Relation.holds`: which relations an ordering satisfies.
* `Cell.order`: the order of two scalars.
* `Cell.relates`: whether a relation holds between two cells.
-/

namespace PMachine

/-- The six comparisons. -/
inductive Relation where
  | equal
  | notEqual
  | greaterEqual
  | greater
  | lessEqual
  | less
deriving DecidableEq, Repr

namespace Relation

/-- Whether a relation holds between two values of the given order. -/
def holds : Relation → Ordering → Bool
  | equal, o => o = .eq
  | notEqual, o => o ≠ .eq
  | greaterEqual, o => o ≠ .lt
  | greater, o => o = .gt
  | lessEqual, o => o ≠ .gt
  | less, o => o = .lt

/-- Whether a relation holds between two sets, by inclusion. -/
def holdsOfSets : Relation → IntSet → IntSet → Bool
  | equal, s, t => s = t
  | notEqual, s, t => s ≠ t
  | lessEqual, s, t => s ⊆ t
  | greaterEqual, s, t => t ⊆ s
  | less, s, t => s ⊆ t ∧ s ≠ t
  | greater, s, t => t ⊆ s ∧ s ≠ t

end Relation

namespace Cell

/-- The order of two scalar cells of one kind. -/
def order : Cell → Cell → Except Fault Ordering
  | undefined, _ => .error .valueUndefined
  | _, undefined => .error .valueUndefined
  | int m, int n => .ok (compare m.toInt n.toInt)
  | real x, real y => match x.order? y with
    | some o => .ok o
    | none => .error .unorderedReal
  | bool a, bool b => .ok (compare a.toNat b.toNat)
  | address a, address b => .ok (compare a b)
  | address a, mark b => .ok (compare a b)
  | mark a, address b => .ok (compare a b)
  | mark a, mark b => .ok (compare a b)
  | _, _ => .error .typeMismatch

/-- Whether a relation holds between two cells. -/
def relates (r : Relation) : Cell → Cell → Except Fault Bool
  | set s, set t => .ok (r.holdsOfSets s t)
  | c, d => (c.order d).map r.holds

end Cell

end PMachine
