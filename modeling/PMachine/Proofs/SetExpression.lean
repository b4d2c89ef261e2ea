import PMachine.Proofs.Expression
import PMachine.Proofs.IntSet
import PMachine.Proofs.Machine.Operands

/-!
# Expressions over sets

Sets are computed from constants and from sets of one integer, with union, intersection and difference.
The value of an expression is the mathematical set that it stands for. There is one cell for each set, so
the shape of the expression does not show: neither in the written form nor in a membership or a
comparison.

* `SetExpression.value`, `SetExpression.denotation`: the value on cells, and the set of integers.
* `SetOperator.apply_set`, `Relation.holdsOfSets_iff`: the operators and the comparisons on sets.
* `SetExpression.value_denotes`: the value of an expression is the set that it stands for.
* `SetExpression.sets_computed`: what is written, tested and compared is that set.
-/

namespace PMachine

/-- The operators on two sets. -/
inductive SetOperator where
  | union
  | intersection
  | difference
deriving DecidableEq, Repr

namespace SetOperator

/-- The operation of the machine. -/
def opcode : SetOperator → Opcode
  | union => .uni
  | intersection => .int
  | difference => .dif

/-- What it computes. -/
def apply : SetOperator → Cell → Cell → Except Fault Cell
  | union => Cell.union
  | intersection => Cell.intersection
  | difference => Cell.difference

/-- What it stands for. -/
def combine : SetOperator → Set ℤ → Set ℤ → Set ℤ
  | union, A, B => A ∪ B
  | intersection, A, B => A ∩ B
  | difference, A, B => A \ B

end SetOperator

/-- An expression over sets. -/
inductive SetExpression where
  | constant (s : IntSet)
  /-- The set of one integer. -/
  | singleton (n : Word)
  | combine (o : SetOperator) (left right : SetExpression)
deriving DecidableEq, Repr

namespace SetExpression

/-- The value of an expression, from the leaves up and the left operand before the right one. -/
def value : SetExpression → Except Fault Cell
  | constant s => .ok (.set s)
  | singleton n => Cell.singleton (.int n)
  | combine o left right => do
    let c ← left.value
    let d ← right.value
    o.apply c d

/-- The set of integers that an expression stands for. -/
def denotation : SetExpression → Set ℤ
  | constant s => s.integers
  | singleton n => {n.toInt}
  | combine o left right => o.combine left.denotation right.denotation

end SetExpression

/-- What a relation says of two sets. -/
def Relation.OfSets : Relation → Set ℤ → Set ℤ → Prop
  | .equal, A, B => A = B
  | .notEqual, A, B => A ≠ B
  | .greaterEqual, A, B => B ⊆ A
  | .greater, A, B => B ⊂ A
  | .lessEqual, A, B => A ⊆ B
  | .less, A, B => A ⊂ B

/-! ### Operators -/

/-- An operator on two sets computes the set that it stands for. -/
theorem SetOperator.apply_set (o : SetOperator) (s t : IntSet) :
    ∃ u, o.apply (.set s) (.set t) = .ok (.set u) ∧ u.integers = o.combine s.integers t.integers := by
  cases o with
  | union => exact ⟨s.union t, rfl, IntSet.integers_union s t⟩
  | intersection => exact ⟨s.inter t, rfl, IntSet.integers_inter s t⟩
  | difference => exact ⟨s.diff t, rfl, IntSet.integers_diff s t⟩

/-- Sets are compared as the sets of integers that they stand for. -/
theorem Relation.holdsOfSets_iff (r : Relation) (s t : IntSet) :
    r.holdsOfSets s t = true ↔ r.OfSets s.integers t.integers := by
  cases r with
  | equal => exact decide_eq_true_iff.trans IntSet.integers_inj.symm
  | notEqual => exact decide_eq_true_iff.trans (not_congr IntSet.integers_inj.symm)
  | greaterEqual => exact decide_eq_true_iff.trans IntSet.integers_subset_integers.symm
  | lessEqual => exact decide_eq_true_iff.trans IntSet.integers_subset_integers.symm
  | greater =>
    rw [OfSets, ssubset_iff_subset_ne, IntSet.integers_subset_integers, Ne, IntSet.integers_inj]
    exact decide_eq_true_iff.trans (and_congr_right fun _ => not_congr eq_comm)
  | less =>
    rw [OfSets, ssubset_iff_subset_ne, IntSet.integers_subset_integers, Ne, IntSet.integers_inj]
    exact decide_eq_true_iff

namespace IntSet

/-- The written form lists the integers of a set, each one once and in ascending order. -/
theorem exists_listing (s : IntSet) : ∃ l : List ℤ, s.text = "(" ++ ",".intercalate (l.map toString) ++ ")" ∧
    l.Pairwise (· < ·) ∧ ∀ k, k ∈ l ↔ k ∈ s.integers := by
  refine ⟨s.elements.map (·.toInt), ?_, ?_, fun k => ?_⟩
  · rw [text, List.map_map]
    rfl
  · rw [List.pairwise_map]
    exact s.ascending.imp Int64.lt_iff_toInt_lt.1
  · exact List.mem_map

end IntSet

namespace SetExpression

open Machine (Gives perform binary compare binary_eq compare_eq)

variable {left right : SetExpression} {c d : Cell}

theorem value_combine {o : SetOperator} (hleft : left.value = .ok c) (hright : right.value = .ok d) :
    (combine o left right).value = o.apply c d := by
  rw [value, hleft, hright]
  rfl

/-- **An expression computes the set that it stands for.** -/
theorem value_denotes (e : SetExpression) : ∃ s, e.value = .ok (.set s) ∧ s.integers = e.denotation := by
  induction e with
  | constant s => exact ⟨s, rfl, rfl⟩
  | singleton n => exact ⟨.singleton n, rfl, IntSet.integers_singleton n⟩
  | combine o left right ihleft ihright =>
    obtain ⟨s, hleft, hs⟩ := ihleft
    obtain ⟨t, hright, ht⟩ := ihright
    obtain ⟨u, happly, hu⟩ := o.apply_set s t
    refine ⟨u, (value_combine hleft hright).trans happly, ?_⟩
    rw [hu, hs, ht, denotation]

theorem denotes_of_value {e : SetExpression} {s : IntSet} (h : e.value = .ok (.set s)) :
    s.integers = e.denotation := by
  obtain ⟨t, ht, hdenotes⟩ := e.value_denotes
  rw [ht] at h
  cases h
  exact hdenotes

/-- **Sets are computed as in mathematics.** The value of an expression is a set cell, and its members are
those of the set that the expression stands for; the written form lists them in ascending order and each
one once. To be a member of the value is to be a member of that set, and the values of any two expressions
compare as the two sets do. The instructions do the same with the two cells on top of the stack, the right
operand above the left one. -/
theorem sets_computed (e : SetExpression) :
    ∃ s, e.value = .ok (.set s) ∧ (∀ n, n ∈ s ↔ n.toInt ∈ e.denotation) ∧
      (∃ l : List ℤ, (Cell.set s).text = "(" ++ ",".intercalate (l.map toString) ++ ")" ∧
        l.Pairwise (· < ·) ∧ ∀ k, k ∈ l ↔ k ∈ e.denotation) ∧
      (∀ v : Word, ∃ b, Cell.member (.int v) (.set s) = .ok (.bool b) ∧
        (b = true ↔ v.toInt ∈ e.denotation) ∧
        ∀ m p q, m.Operands (.int v) (.set s) → Gives ⟨.inn, p, q⟩ m (.bool b)) ∧
      ∀ (e' : SetExpression) (s' : IntSet), e'.value = .ok (.set s') →
        (∀ r, ∃ b, Cell.relates r (.set s) (.set s') = .ok b ∧
          (b = true ↔ r.OfSets e.denotation e'.denotation) ∧
          ∀ m p q, p ≠ Instruction.multiple → m.Operands (.set s) (.set s') →
            Gives ⟨r.opcode, p, q⟩ m (.bool b)) ∧
        ∀ o, ∃ u, (combine o e e').value = .ok (.set u) ∧
          ∀ m p q, m.Operands (.set s) (.set s') → Gives ⟨o.opcode, p, q⟩ m (.set u) := by
  obtain ⟨s, hvalue, hs⟩ := e.value_denotes
  have hmem : ∀ n, n ∈ s ↔ n.toInt ∈ e.denotation := fun n => by rw [← hs, IntSet.toInt_mem_integers]
  refine ⟨s, hvalue, hmem, hs ▸ s.exists_listing, fun v => ?_, fun e' s' hvalue' => ⟨fun r => ?_, fun o => ?_⟩⟩
  · exact ⟨_, rfl, decide_eq_true_iff.trans (hmem v), fun m p q h => binary_eq h.1 h.2 rfl⟩
  · refine ⟨_, rfl, ?_, fun m p q hp h => ?_⟩
    · rw [r.holdsOfSets_iff, hs, denotes_of_value hvalue']
    · have hrun : perform ⟨r.opcode, p, q⟩ m = compare r p q m := by cases r <;> rfl
      exact hrun.trans ((compare_eq r hp q h.1 h.2).trans (binary_eq h.1 h.2 rfl))
  · obtain ⟨u, happly, -⟩ := o.apply_set s s'
    refine ⟨u, (value_combine hvalue hvalue').trans happly, fun m p q h => ?_⟩
    have hrun : perform ⟨o.opcode, p, q⟩ m = binary o.apply m := by cases o <;> rfl
    exact hrun.trans (binary_eq h.1 h.2 happly)

/-- The integers 1 and 3 together with 2. -/
def oneToThree : SetExpression := combine .union (constant (.ofList [3, 1])) (singleton 2)

theorem sets_computed_oneToThree :
    oneToThree.value = .ok (.set (.ofList [1, 2, 3])) ∧
    Gives ⟨.inn, 0, 0⟩ (Machine.holding (.int 4) (.set (.ofList [1, 2, 3]))) (.bool false) ∧
    Gives ⟨.grt, 4, 0⟩ (Machine.holding (.set (.ofList [1, 2, 3])) (.set (.singleton 2))) (.bool true) := by
  obtain ⟨s, hvalue, -, -, hmember, hpair⟩ := sets_computed oneToThree
  obtain rfl : s = .ofList [1, 2, 3] := by
    have hthree : oneToThree.value = .ok (.set (.ofList [1, 2, 3])) := by rfl
    rw [hthree] at hvalue
    cases hvalue
    rfl
  obtain ⟨b, hb, -, hinn⟩ := hmember 4
  obtain rfl : b = false := by cases hb; decide
  obtain ⟨b', hb', -, hgreater⟩ := (hpair (singleton 2) (.singleton 2) rfl).1 .greater
  obtain rfl : b' = true := by cases hb'; decide
  exact ⟨hvalue, hinn _ 0 0 (Machine.holding_operands _ _),
    hgreater _ 4 0 (by decide) (Machine.holding_operands _ _)⟩

end SetExpression

end PMachine
