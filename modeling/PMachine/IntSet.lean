import PMachine.Word

/-!
# Sets of words

A set value is the ascending list of its members, so that equal sets are equal values and the
written form lists each member once, in order.

* `IntSet.mem_insert`, `IntSet.mem_union`, `IntSet.mem_inter`, `IntSet.mem_diff`: the operations
  through membership.
-/

namespace PMachine

/-- A finite set of words. -/
structure IntSet where
  /-- The members, in ascending order. -/
  elements : List Word
  /-- Each member is less than every later one. -/
  ascending : elements.Pairwise (· < ·)
deriving DecidableEq, Repr

namespace IntSet

instance : Membership Word IntSet where
  mem s n := n ∈ s.elements

instance (n : Word) (s : IntSet) : Decidable (n ∈ s) :=
  inferInstanceAs (Decidable (n ∈ s.elements))

/-- The set without members. -/
def empty : IntSet := ⟨[], .nil⟩

instance : EmptyCollection IntSet := ⟨empty⟩

instance : Inhabited IntSet := ⟨empty⟩

/-- Puts `n` before the first greater word of an ascending list, unless it is there. -/
def insertOrdered (n : Word) : List Word → List Word
  | [] => [n]
  | m :: l => if n < m then n :: m :: l else if n = m then m :: l else m :: insertOrdered n l

theorem mem_insertOrdered {n k : Word} {l : List Word} :
    k ∈ insertOrdered n l ↔ k = n ∨ k ∈ l := by
  induction l with
  | nil => simp [insertOrdered]
  | cons m l ih =>
    simp only [insertOrdered]
    split
    · simp
    · split
      · rename_i h
        subst h
        simp
      · simp only [List.mem_cons, ih]
        grind

theorem pairwise_insertOrdered (n : Word) {l : List Word} (h : l.Pairwise (· < ·)) :
    (insertOrdered n l).Pairwise (· < ·) := by
  induction l with
  | nil => simp [insertOrdered]
  | cons m l ih =>
    obtain ⟨hm, hl⟩ := List.pairwise_cons.1 h
    simp only [insertOrdered]
    split
    · rename_i hn
      refine List.pairwise_cons.2 ⟨fun k hk => ?_, h⟩
      rcases List.mem_cons.1 hk with rfl | hk
      · exact hn
      · exact Int64.lt_trans hn (hm k hk)
    · rename_i hn
      split
      · exact h
      · rename_i hne
        refine List.pairwise_cons.2 ⟨fun k hk => ?_, ih hl⟩
        rcases mem_insertOrdered.1 hk with rfl | hk
        · exact Int64.lt_of_le_of_ne (Int64.not_lt.1 hn) (fun e => hne e.symm)
        · exact hm k hk

/-- The set with `n` added. -/
def insert (n : Word) (s : IntSet) : IntSet :=
  ⟨insertOrdered n s.elements, pairwise_insertOrdered n s.ascending⟩

/-- The set of the words of a list, in any order and with any repetitions. -/
def ofList (l : List Word) : IntSet := l.foldr insert ∅

/-- The set with the one member `n`. -/
def singleton (n : Word) : IntSet := ⟨[n], by simp⟩

/-- The words in `s` or in `t`. -/
def union (s t : IntSet) : IntSet := s.elements.foldr insert t

/-- The words in both `s` and `t`. -/
def inter (s t : IntSet) : IntSet :=
  ⟨s.elements.filter (· ∈ t), s.ascending.filter _⟩

/-- The words in `s` and not in `t`. -/
def diff (s t : IntSet) : IntSet :=
  ⟨s.elements.filter (· ∉ t), s.ascending.filter _⟩

/-- Inclusion: every member of `s` is one of `t`. -/
instance : HasSubset IntSet where
  Subset s t := ∀ n ∈ s.elements, n ∈ t

instance (s t : IntSet) : Decidable (s ⊆ t) :=
  List.decidableBAll (· ∈ t) s.elements

/-- The written form: the members in ascending order, in parentheses. -/
def text (s : IntSet) : String :=
  "(" ++ ",".intercalate (s.elements.map fun n => toString n.toInt) ++ ")"

variable {n k : Word} {s t : IntSet} {l : List Word}

theorem mem_iff : k ∈ s ↔ k ∈ s.elements := Iff.rfl

@[simp] theorem not_mem_empty : n ∉ (∅ : IntSet) := List.not_mem_nil

@[simp] theorem mem_insert : k ∈ insert n s ↔ k = n ∨ k ∈ s := mem_insertOrdered

@[simp] theorem mem_singleton : k ∈ singleton n ↔ k = n := List.mem_singleton

theorem mem_foldr_insert : k ∈ l.foldr insert s ↔ k ∈ l ∨ k ∈ s := by
  induction l with
  | nil => simp
  | cons m l ih => simp [ih, or_assoc]

@[simp] theorem mem_ofList : k ∈ ofList l ↔ k ∈ l := by
  simp [ofList, mem_foldr_insert]

@[simp] theorem mem_union : k ∈ union s t ↔ k ∈ s ∨ k ∈ t := mem_foldr_insert

@[simp] theorem mem_inter : k ∈ inter s t ↔ k ∈ s ∧ k ∈ t := by
  simp [inter, mem_iff]

@[simp] theorem mem_diff : k ∈ diff s t ↔ k ∈ s ∧ k ∉ t := by
  simp [diff, mem_iff]

end IntSet

end PMachine
