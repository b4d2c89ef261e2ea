import PMachine.Proofs.Expression
import PMachine.Proofs.Machine.Blocks

/-!
# The order of blocks of integers

Texts are blocks of character codes, and blocks of integers in general are ordered like words in a
dictionary: the first place where they differ decides. A comparison of two such blocks finds exactly
this order, wherever the blocks lie and whether or not they overlap.

* `Relation.Between`: what the six relations say of two members of an order.
* `Store.Block`: the integers in a block of cells.
* `Machine.compareBlocks_integers`: the order that a comparison finds is that of the integers.
* `Machine.Reports`: a comparison reports that a relation holds between two blocks.
* `Machine.blocks_ordered`: the six comparisons follow one order of the blocks, and it is total.
-/

namespace PMachine

namespace Relation

/-- What a relation says of two members of an order. -/
def Between {α : Type} [LinearOrder α] : Relation → α → α → Prop
  | equal, x, y => x = y
  | notEqual, x, y => x ≠ y
  | greaterEqual, x, y => y ≤ x
  | greater, x, y => y < x
  | lessEqual, x, y => x ≤ y
  | less, x, y => x < y

instance {α : Type} [LinearOrder α] (r : Relation) (x y : α) : Decidable (r.Between x y) :=
  match r with
  | equal => inferInstanceAs (Decidable (x = y))
  | notEqual => inferInstanceAs (Decidable (x ≠ y))
  | greaterEqual => inferInstanceAs (Decidable (y ≤ x))
  | greater => inferInstanceAs (Decidable (y < x))
  | lessEqual => inferInstanceAs (Decidable (x ≤ y))
  | less => inferInstanceAs (Decidable (x < y))

/-- A relation that is judged by an order is the relation of the order. -/
theorem holds_iff_between {α : Type} [LinearOrder α] {x y : α} {o : Ordering} (h : o.Compares x y)
    (r : Relation) : r.holds o = true ↔ r.Between x y := by
  cases r with
  | equal => exact decide_eq_true_iff.trans h.eq_eq
  | notEqual => exact decide_eq_true_iff.trans (not_congr h.eq_eq)
  | greaterEqual => exact decide_eq_true_iff.trans h.ne_lt
  | greater => exact decide_eq_true_iff.trans h.eq_gt
  | lessEqual => exact decide_eq_true_iff.trans h.ne_gt
  | less => exact decide_eq_true_iff.trans h.eq_lt

end Relation

/-- The integers that words stand for. -/
def Word.values (ns : List Word) : List Int := ns.map (·.toInt)

open Word (values)

/-- Words are determined by their values. -/
theorem Word.values_inj {xs ys : List Word} (h : values xs = values ys) : xs = ys :=
  List.map_injective_iff.2 (fun _ _ hxy => Int64.toInt_inj.1 hxy) h

theorem Word.values_cons (n : Word) (ns : List Word) : values (n :: ns) = n.toInt :: values ns := rfl

/-- One more pair in front of two lists decides their order, if its integers differ. -/
theorem Word.compares_cons_of_ne {x y : Word} (h : x ≠ y) (xs ys : List Word) :
    (compare x.toInt y.toInt).Compares (values (x :: xs)) (values (y :: ys)) := by
  have hne : x.toInt ≠ y.toInt := fun heq => h (Int64.toInt_inj.1 heq)
  rw [values_cons, values_cons]
  rcases Int.lt_or_gt_of_ne hne with hlt | hgt
  · rw [Int.compare_eq_lt.2 hlt]
    exact List.cons_lt_cons_iff.2 (Or.inl hlt)
  · rw [Int.compare_eq_gt.2 hgt]
    exact List.cons_lt_cons_iff.2 (Or.inl hgt)

/-- A pair of the same integers in front leaves the order as it is. -/
theorem Word.compares_cons_self (x : Word) {xs ys : List Word} {o : Ordering}
    (h : o.Compares (values xs) (values ys)) : o.Compares (values (x :: xs)) (values (x :: ys)) := by
  rw [values_cons, values_cons]
  cases o with
  | lt => exact List.cons_lt_cons_iff.2 (Or.inr ⟨rfl, h⟩)
  | eq => exact congrArg _ h
  | gt => exact List.cons_lt_cons_iff.2 (Or.inr ⟨rfl, h⟩)

/-- The `n` cells from `a` on hold these integers, one each. -/
def Store.Block (s : Store) (n a : Nat) (ns : List Word) : Prop :=
  ns.length = n ∧ ∀ i, (h : i < ns.length) → s.cells[a + i]? = some (.int ns[i])

namespace Store

variable {s : Store} {n a : Nat} {x : Word} {xs : List Word}

/-- A block begins with its first integer. -/
theorem Block.first (h : s.Block n a (x :: xs)) : s.cells[a]? = some (.int x) :=
  h.2 0 (Nat.succ_pos _)

/-- What follows the first cell of a block is a block. -/
theorem Block.rest (h : s.Block (n + 1) a (x :: xs)) : s.Block n (a + 1) xs := by
  have hlength : xs.length + 1 = n + 1 := h.1
  refine ⟨by omega, fun i hi => ?_⟩
  have hcell := h.2 (i + 1) (Nat.succ_lt_succ hi)
  have hplace : a + 1 + i = a + (i + 1) := by omega
  rw [hplace, hcell, List.getElem_cons_succ]

end Store

namespace Machine

variable {m : Machine} {a b : Nat} {xs ys : List Word}

/-- Blocks of integers have the order of their integers. -/
theorem compareBlocks_integers {n : Nat} : ∀ {a b : Nat} {xs ys : List Word},
    m.store.Block n a xs → m.store.Block n b ys →
      ∃ o, compareBlocks n a b m = .ok o m ∧ o.Compares (values xs) (values ys) := by
  -- each round looks at the first pair and leaves the rest of both blocks to the next one
  induction n with
  | zero =>
    intro a b xs ys hx hy
    obtain rfl := List.length_eq_zero_iff.1 hx.1
    obtain rfl := List.length_eq_zero_iff.1 hy.1
    exact ⟨.eq, rfl, rfl⟩
  | succ n ih =>
    intro a b xs ys hx hy
    obtain ⟨x, xs, rfl⟩ := List.exists_cons_of_length_eq_add_one hx.1
    obtain ⟨y, ys, rfl⟩ := List.exists_cons_of_length_eq_add_one hy.1
    rw [compareBlocks, Action.bind_of_ok (read_eq hx.first), Action.bind_of_ok (read_eq hy.first)]
    by_cases hxy : x = y
    · subst hxy
      obtain ⟨o, hrun, ho⟩ := ih hx.rest hy.rest
      have hsame : Cell.same (.int x) (.int x) = true := decide_eq_true rfl
      exact ⟨o, by rw [if_pos hsame, hrun], Word.compares_cons_self x ho⟩
    · have hother : ¬ Cell.same (.int x) (.int y) = true := fun h => hxy (of_decide_eq_true h)
      refine ⟨Ord.compare x.toInt y.toInt, ?_, Word.compares_cons_of_ne hxy xs ys⟩
      rw [if_neg hother]
      rfl

/-- A comparison of the blocks at `a` and at `b` reports that the relation holds between them. -/
def Reports (m : Machine) (r : Relation) (len : Word) (a b : Nat) : Prop :=
  relates r Instruction.multiple len (.address a) (.address b) m = .ok true m

/-- A relation between blocks is reported as it holds between the lists of their integers. -/
theorem reports_iff {len : Word} (hx : m.store.Block len.count a xs) (hy : m.store.Block len.count b ys)
    (r : Relation) : m.Reports r len a b ↔ r.Between (values xs) (values ys) := by
  obtain ⟨o, hrun, ho⟩ := compareBlocks_integers hx hy
  have hrelates : relates r Instruction.multiple len (.address a) (.address b) m =
      .ok (r.holds o) m := by
    rw [relates_blocks r len rfl rfl, Action.bind_of_ok hrun]
    rfl
  rw [Reports, hrelates, ← Relation.holds_iff_between ho r]
  constructor
  · intro h
    exact (EStateM.Result.ok.inj h).1
  · intro h
    rw [h]

/-- **The order of blocks.** On two blocks of integers of one length, which may overlap, each of the six
comparisons of blocks takes the two addresses from the stack and puts the truth value of its relation
there, in the lexicographic order of the integers; no other cell changes. Blocks without cells, as those
of a negative length, are equal. What the comparisons report of the blocks in a store is a total order: it is
reflexive, transitive and total, and two blocks that are at most each other hold the same integers. -/
theorem blocks_ordered (m : Machine) (len : Word) :
    (∀ (left right : Cell) (a b : Nat) (xs ys : List Word), m.Operands left right →
      left.asAddress = .ok a → right.asAddress = .ok b →
      m.store.Block len.count a xs → m.store.Block len.count b ys →
      ∀ r : Relation, ∃ result : Bool,
        Gives ⟨r.opcode, Instruction.multiple, len⟩ m (.bool result) ∧
        (result = true ↔ r.Between (values xs) (values ys))) ∧
    ∀ (a b c : Nat) (xs ys zs : List Word), m.store.Block len.count a xs →
      m.store.Block len.count b ys → m.store.Block len.count c zs →
      m.Reports .lessEqual len a a ∧
      (m.Reports .lessEqual len a b ∨ m.Reports .lessEqual len b a) ∧
      (m.Reports .lessEqual len a b → m.Reports .lessEqual len b a → xs = ys) ∧
      (m.Reports .lessEqual len a b → m.Reports .lessEqual len b c → m.Reports .lessEqual len a c) := by
  constructor
  · intro left right a b xs ys hops ha hb hx hy r
    have hrun : perform ⟨r.opcode, Instruction.multiple, len⟩ m =
        compare r Instruction.multiple len m := by cases r <;> rfl
    obtain ⟨o, ho, hcompares⟩ := compareBlocks_integers (m := m.popped) hx hy
    refine ⟨r.holds o, ?_, Relation.holds_iff_between hcompares r⟩
    rw [Gives, hrun, compare_blocks r hops ha hb, Action.bind_of_ok ho, setTop_eq hops.2]
  · intro a b c xs ys zs hx hy hz
    rw [reports_iff hx hx, reports_iff hx hy, reports_iff hy hx, reports_iff hy hz, reports_iff hx hz]
    exact ⟨le_refl _, le_total _ _, fun hle hge => Word.values_inj (le_antisymm hle hge), le_trans⟩

/-- A machine with the addresses of two blocks of three cells on its stack, which share a cell: 1, 2, 1
from address 0 on and 1, 2, 5 from address 2 on. -/
def overlapping : Machine where
  pc := 0
  mp := 0
  sp := 6
  np := 8
  code := #[]
  store :=
    ⟨default, #[.int 1, .int 2, .int 1, .int 2, .int 5, .address 0, .address 2, .undefined], default⟩
  files := default

theorem blocks_ordered_overlapping :
    (∃ result, Gives ⟨.les, Instruction.multiple, 3⟩ overlapping (.bool result) ∧ result = true) ∧
    (∃ result, Gives ⟨.equ, Instruction.multiple, -1⟩ overlapping (.bool result) ∧ result = true) ∧
    overlapping.Reports .lessEqual 3 0 0 := by
  have hleft : overlapping.store.Block 3 0 [1, 2, 1] := ⟨rfl, by decide⟩
  have hright : overlapping.store.Block 3 2 [1, 2, 5] := ⟨rfl, by decide⟩
  have hnone : ∀ a, overlapping.store.Block 0 a [] := fun a => ⟨rfl, fun i hi => absurd hi (by simp)⟩
  obtain ⟨less, hless, hlessiff⟩ := (blocks_ordered overlapping 3).1 (.address 0) (.address 2) 0 2
    [1, 2, 1] [1, 2, 5] ⟨rfl, rfl⟩ rfl rfl hleft hright .less
  obtain ⟨equal, hequal, hequaliff⟩ := (blocks_ordered overlapping (-1)).1 (.address 0) (.address 2) 0 2
    [] [] ⟨rfl, rfl⟩ rfl rfl (hnone 0) (hnone 2) .equal
  have horder := (blocks_ordered overlapping 3).2 0 0 0 _ _ _ hleft hleft hleft
  exact ⟨⟨less, hless, hlessiff.2 (by decide)⟩, ⟨equal, hequal, hequaliff.2 rfl⟩, horder.1⟩

end Machine

end PMachine
