import PMachine.Proofs.Action
import PMachine.Store

/-!
# The regions of the store

The stack and the five pools lie side by side: a pool starts where the one before it ends, and the
last one ends with the store. Cells entered into a pool stay inside it.

* `Limits.poolEnd_le_poolStart`, `Limits.poolEnd_le`: the pools are disjoint and inside the store.
* `Store.getElem?_overwrite`: what replacing consecutive cells does to each cell.
* `Store.append_eq`, `Store.append_full`: entering cells into a pool, with room for them and without.
* `Store.write_of_lt`, `Store.write_of_le`: a write inside the store, and one outside.
-/

namespace PMachine

namespace Pool

/-- The place of a pool in address order. -/
def rank : Pool → Nat
  | integer => 0
  | real => 1
  | set => 2
  | boundary => 3
  | multiple => 4

/-- Pools are told apart by their rank. -/
theorem rank_inj {p q : Pool} (h : p.rank = q.rank) : p = q := by
  cases p <;> cases q <;> first | rfl | simp [rank] at h

theorem Tally.get_add (t : Tally) (n : Nat) (p q : Pool) :
    (t.add n p).get q = if q = p then t.get q + n else t.get q := by
  cases p <;> cases q <;> rfl

end Pool

namespace Limits

variable (l : Limits)

/-- Pools lie above the stack. -/
theorem stackSize_lt_poolStart (p : Pool) : l.stackSize < l.poolStart p := by
  unfold poolStart
  omega

/-- A pool ends before a later one starts. -/
theorem poolEnd_le_poolStart {p q : Pool} (h : p.rank < q.rank) : l.poolEnd p ≤ l.poolStart q := by
  cases p <;> cases q <;> simp [Pool.rank] at h <;>
    simp only [poolEnd, poolStart, Pool.Tally.before, Pool.Tally.get] <;> omega

/-- Every pool ends where the last one ends or before. -/
theorem poolEnd_le (p : Pool) : l.poolEnd p ≤ l.poolEnd .multiple := by
  cases p <;> simp only [poolEnd, poolStart, Pool.Tally.before, Pool.Tally.get] <;> omega

/-- **Pools are disjoint**: one of two different pools ends before the other starts. -/
theorem pools_disjoint {p q : Pool} (h : p ≠ q) :
    l.poolEnd p ≤ l.poolStart q ∨ l.poolEnd q ≤ l.poolStart p := by
  rcases Nat.lt_trichotomy p.rank q.rank with hr | hr | hr
  · exact Or.inl (l.poolEnd_le_poolStart hr)
  · exact absurd (Pool.rank_inj hr) h
  · exact Or.inr (l.poolEnd_le_poolStart hr)

end Limits

namespace Store

/-- A new store ends with its last pool. -/
theorem size_new (l : Limits) : (new l).cells.size = l.poolEnd .multiple := by
  simp only [new, Pool.all, List.foldl_cons, List.foldl_nil, Array.size_append,
    Array.size_replicate, Limits.poolEnd, Limits.poolStart, Pool.Tally.before, Pool.Tally.get]
  omega

theorem used_new (l : Limits) (p : Pool) : (new l).used.get p = 0 := by
  cases p <;> rfl

theorem size_overwrite (cs : List Cell) : ∀ (cells : Array Cell) (a : Nat),
    (overwrite cells a cs).size = cells.size := by
  induction cs with
  | nil => intro cells a; rfl
  | cons c cs ih => intro cells a; rw [overwrite, ih, Array.size_setIfInBounds]

/-- Replacing consecutive cells changes those cells and no other. -/
theorem getElem?_overwrite (cs : List Cell) : ∀ (cells : Array Cell) (a i : Nat),
    a + cs.length ≤ cells.size →
      (overwrite cells a cs)[i]? =
        if a ≤ i ∧ i < a + cs.length then cs[i - a]? else cells[i]? := by
  induction cs with
  | nil =>
    intro cells a i _
    have : ¬ (a ≤ i ∧ i < a + ([] : List Cell).length) := by simp only [List.length_nil]; omega
    rw [if_neg this, overwrite]
  | cons c cs ih =>
    intro cells a i h
    rw [List.length_cons] at h
    rw [overwrite, ih _ _ _ (by rw [Array.size_setIfInBounds]; omega), List.length_cons]
    rcases Nat.lt_trichotomy i a with hi | hi | hi
    · rw [if_neg (by omega), if_neg (by omega), Array.getElem?_setIfInBounds_ne (by omega)]
    · subst hi
      rw [if_neg (by omega), if_pos (by omega), Nat.sub_self, List.getElem?_cons_zero,
        Array.getElem?_setIfInBounds_self_of_lt (by omega)]
    · obtain ⟨j, rfl⟩ : ∃ j, i = a + 1 + j := ⟨i - (a + 1), by omega⟩
      have hj : a + 1 + j - a = j + 1 := by omega
      rw [hj, List.getElem?_cons_succ, Nat.add_sub_cancel_left,
        Array.getElem?_setIfInBounds_ne (by omega)]
      by_cases hlt : j < cs.length
      · rw [if_pos (by omega), if_pos (by omega)]
      · rw [if_neg (by omega), if_neg (by omega)]

variable {s : Store} {p : Pool} {cs : List Cell}

/-- Cells for which there is room are appended at the next free cell. -/
theorem append_eq (h : cs.length ≤ s.room p) :
    append p cs s = .ok (s.free p)
      { s with cells := overwrite s.cells (s.free p) cs, used := s.used.add cs.length p } := by
  simp only [append, if_pos h]

/-- Cells for which there is none change nothing. -/
theorem append_full (h : ¬ cs.length ≤ s.room p) : append p cs s = .error (.tableFull p.name) s := by
  simp only [append, if_neg h]

/-! ### One cell -/

variable {a : Nat}

theorem write_of_lt (h : a < s.cells.size) (c : Cell) :
    write a c s = .ok () { s with cells := s.cells.setIfInBounds a c } := by
  unfold write
  rw [dif_pos h, Array.setIfInBounds, dif_pos h]

theorem write_of_le (h : s.cells.size ≤ a) (c : Cell) : write a c s = .error .addressOutOfStore s := by
  unfold write
  rw [dif_neg (by omega)]

end Store

end PMachine
