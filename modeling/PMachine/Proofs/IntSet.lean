import Mathlib
import PMachine.IntSet

/-!
# Sets of words as sets of integers

A set of words is known by its members, since there is one ascending list of them. So it can be read as a
set of integers, and the operations on sets of words are those on sets of integers.

* `IntSet.ext`: sets with the same members are equal.
* `IntSet.integers`: the integers that a set of words stands for.
* `IntSet.integers_inj`, `IntSet.integers_subset_integers`: no two sets stand for the same integers, and
  inclusion is inclusion of the integers.
-/

namespace PMachine.IntSet

variable {s t u : IntSet} {n : Word}

/-- **Sets with the same members are equal**, whichever way they were built. -/
@[ext] theorem ext (h : ∀ n, n ∈ s ↔ n ∈ t) : s = t := by
  have : Std.Irrefl (α := Word) (· < ·) := ⟨fun _ => Int64.lt_irrefl⟩
  have : Std.Antisymm (α := Word) (· < ·) := ⟨fun _ _ h h' => absurd h (Int64.lt_asymm h')⟩
  have helements : s.elements = t.elements := List.Pairwise.eq_of_mem_iff s.ascending t.ascending h
  cases s
  cases t
  cases helements
  rfl

/-- A set is the one of a list if it has the same members. -/
theorem eq_ofList {l : List Word} (h : ∀ n, n ∈ s ↔ n ∈ l) : s = ofList l := by
  ext n
  rw [mem_ofList, h]

/-! ### Inclusion -/

theorem subset_refl (s : IntSet) : s ⊆ s := fun _ h => h

theorem subset_trans (h : s ⊆ t) (h' : t ⊆ u) : s ⊆ u := fun n hn => h' n (h n hn)

/-- Sets that include each other are equal. -/
theorem eq_iff_subset : s = t ↔ s ⊆ t ∧ t ⊆ s := by
  refine ⟨fun h => h ▸ ⟨subset_refl s, subset_refl s⟩, fun h => ?_⟩
  ext n
  exact ⟨h.1 n, h.2 n⟩

/-! ### Integers -/

/-- The integers that a set of words stands for. -/
def integers (s : IntSet) : Set ℤ := {k | ∃ n ∈ s, n.toInt = k}

/-- A word is a member if its number is one of the integers of the set. -/
theorem toInt_mem_integers : n.toInt ∈ s.integers ↔ n ∈ s := by
  refine ⟨?_, fun h => ⟨n, h, rfl⟩⟩
  rintro ⟨m, hm, heq⟩
  rwa [← Int64.toInt_inj.1 heq]

/-- Sets include each other as their integers do. -/
theorem integers_subset_integers : s.integers ⊆ t.integers ↔ s ⊆ t := by
  constructor
  · intro h n hn
    exact toInt_mem_integers.1 (h (toInt_mem_integers.2 hn))
  · rintro h _ ⟨n, hn, rfl⟩
    exact ⟨n, h n hn, rfl⟩

/-- A set is determined by its integers. -/
theorem integers_inj : s.integers = t.integers ↔ s = t := by
  rw [Set.Subset.antisymm_iff, integers_subset_integers, integers_subset_integers, eq_iff_subset]

theorem integers_singleton (n : Word) : (singleton n).integers = {n.toInt} := by
  ext k
  simp [integers, eq_comm]

/-- The union has the integers of both sets. -/
theorem integers_union (s t : IntSet) : (s.union t).integers = s.integers ∪ t.integers := by
  ext k
  constructor
  · rintro ⟨n, hn, rfl⟩
    exact (mem_union.1 hn).imp toInt_mem_integers.2 toInt_mem_integers.2
  · rintro (⟨n, hs, rfl⟩ | ⟨n, ht, rfl⟩)
    · exact toInt_mem_integers.2 (mem_union.2 (Or.inl hs))
    · exact toInt_mem_integers.2 (mem_union.2 (Or.inr ht))

/-- The intersection has the integers that both sets have. -/
theorem integers_inter (s t : IntSet) : (s.inter t).integers = s.integers ∩ t.integers := by
  ext k
  constructor
  · rintro ⟨n, hn, rfl⟩
    obtain ⟨hs, ht⟩ := mem_inter.1 hn
    exact ⟨⟨n, hs, rfl⟩, ⟨n, ht, rfl⟩⟩
  · rintro ⟨⟨n, hs, rfl⟩, ht⟩
    exact ⟨n, mem_inter.2 ⟨hs, toInt_mem_integers.1 ht⟩, rfl⟩

/-- The difference has the integers of the first set that the second one lacks. -/
theorem integers_diff (s t : IntSet) : (s.diff t).integers = s.integers \ t.integers := by
  ext k
  constructor
  · rintro ⟨n, hn, rfl⟩
    obtain ⟨hs, ht⟩ := mem_diff.1 hn
    exact ⟨⟨n, hs, rfl⟩, fun h => ht (toInt_mem_integers.1 h)⟩
  · rintro ⟨⟨n, hs, rfl⟩, ht⟩
    exact ⟨n, mem_diff.2 ⟨hs, fun h => ht (toInt_mem_integers.2 h)⟩, rfl⟩

end PMachine.IntSet
