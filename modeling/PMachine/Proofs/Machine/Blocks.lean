import PMachine.Proofs.Machine.Call
import PMachine.Proofs.Machine.Stack

/-!
# Equal blocks

Two blocks are compared pair by pair. Pairs of the same content are passed over, and the first other
pair is ordered and settles the matter. An address and a mark with one number are not the same content,
but neither comes before the other: such a pair ends the comparison as if the blocks were equal.

* `Cell.Equal`, `Cell.Twins`: equal cells, which have the same content or are such a pair.
* `Store.Paired`: the cells at one place of two blocks are in a relation.
* `Machine.compareBlocks_ok`: what the order of two blocks says of their pairs.
* `Machine.compare_blocks`: what a comparison of blocks does with it.
* `Machine.equal_blocks_iff`: when blocks are found equal, and when that is right.
-/

namespace PMachine

/-- Reals that are ordered as equal have the same value. -/
theorem Binary64.sameValue_of_order? {x y : Binary64} (h : x.order? y = some .eq) :
    x.sameValue y = true := by
  unfold order? at h
  split at h
  · cases h
  · split at h
    · cases h
    · split at h
      · assumption
      · cases h

namespace Cell

/-- Two cells have the same content. -/
def Same (c d : Cell) : Prop := c.same d = true

/-- An address and a mark, in either order, with one number. -/
def Twins (c d : Cell) : Prop :=
  ∃ n, (c = .address n ∧ d = .mark n) ∨ (c = .mark n ∧ d = .address n)

/-- Two cells are equal: they have the same content, or neither comes before the other. -/
def Equal (c d : Cell) : Prop := c.Same d ∨ c.order d = .ok .eq

variable {c d : Cell}

/-- Two cells with one address, of different kinds, are ordered as equal. -/
theorem Twins.order (h : Twins c d) : c.order d = .ok .eq := by
  have hself : ∀ n : Nat, compare n n = .eq := fun n => Nat.compare_eq_eq.2 rfl
  obtain ⟨n, ⟨rfl, rfl⟩ | ⟨rfl, rfl⟩⟩ := h
  · exact congrArg Except.ok (hself n)
  · exact congrArg Except.ok (hself n)

/-- Two cells of different kinds are not the same. -/
theorem Twins.not_same (h : Twins c d) : ¬ c.Same d := by
  obtain ⟨n, ⟨rfl, rfl⟩ | ⟨rfl, rfl⟩⟩ := h
  · exact Bool.false_ne_true
  · exact Bool.false_ne_true

/-- Between two cells of the same content there is no order but equality, and so between twins. -/
theorem same_or_twins (h : c.order d = .ok .eq) : c.Same d ∨ Twins c d := by
  have hnat : ∀ {m n : Nat}, Except.ok (ε := Fault) (compare m n) = .ok .eq → m = n :=
    fun h => Nat.compare_eq_eq.1 (Except.ok.inj h)
  cases c with
  | undefined => cases h
  | int m =>
    cases d with
    | int n =>
      have hcompare : compare m.toInt n.toInt = .eq := Except.ok.inj h
      have hmn : m = n := Int64.toInt_inj.1 (Int.compare_eq_eq.1 hcompare)
      exact Or.inl (decide_eq_true hmn)
    | undefined | real _ | bool _ | set _ | address _ | mark _ => cases h
  | real x =>
    cases d with
    | real y =>
      dsimp only [order] at h
      cases horder : x.order? y with
      | some o =>
        rw [horder] at h
        cases h
        exact Or.inl (Binary64.sameValue_of_order? horder)
      | none =>
        rw [horder] at h
        cases h
    | undefined | int _ | bool _ | set _ | address _ | mark _ => cases h
  | bool a =>
    cases d with
    | bool b =>
      have hinj : ∀ a b : Bool, a.toNat = b.toNat → a = b := by decide
      exact Or.inl (decide_eq_true (hinj a b (hnat h)))
    | undefined | int _ | real _ | set _ | address _ | mark _ => cases h
  | set s => cases d <;> cases h
  | address m =>
    cases d with
    | address n => exact Or.inl (decide_eq_true (hnat h))
    | mark n =>
      obtain rfl := hnat h
      exact Or.inr ⟨m, Or.inl ⟨rfl, rfl⟩⟩
    | undefined | int _ | real _ | bool _ | set _ => cases h
  | mark m =>
    cases d with
    | mark n => exact Or.inl (decide_eq_true (hnat h))
    | address n =>
      obtain rfl := hnat h
      exact Or.inr ⟨m, Or.inr ⟨rfl, rfl⟩⟩
    | undefined | int _ | real _ | bool _ | set _ => cases h

/-- Cells that count as equal are the same, or else of two kinds with one address. -/
theorem equal_iff : c.Equal d ↔ c.Same d ∨ Twins c d := by
  constructor
  · rintro (hsame | horder)
    · exact Or.inl hsame
    · exact same_or_twins horder
  · rintro (hsame | htwins)
    · exact Or.inl hsame
    · exact Or.inr htwins.order

end Cell

/-- The cells at place `i` of the blocks at `a` and at `b` are in a relation. -/
def Store.Paired (s : Store) (R : Cell → Cell → Prop) (a b i : Nat) : Prop :=
  ∃ c d, s.cells[a + i]? = some c ∧ s.cells[b + i]? = some d ∧ R c d

open Cell (Same Twins Equal)

namespace Store

variable {s : Store} {R S : Cell → Cell → Prop} {a b i : Nat}

/-- Cells that are paired by a relation are paired by a weaker one. -/
theorem Paired.mono (h : s.Paired R a b i) (hRS : ∀ c d, R c d → S c d) : s.Paired S a b i := by
  obtain ⟨c, d, hc, hd, hcd⟩ := h
  exact ⟨c, d, hc, hd, hRS c d hcd⟩

/-- At one place there is one pair. -/
theorem Paired.and (h : s.Paired R a b i) (h' : s.Paired S a b i) :
    s.Paired (fun c d => R c d ∧ S c d) a b i := by
  obtain ⟨c, d, hc, hd, hR⟩ := h
  obtain ⟨c', d', hc', hd', hS⟩ := h'
  rw [hc] at hc'
  rw [hd] at hd'
  cases hc'
  cases hd'
  exact ⟨c, d, hc, hd, hR, hS⟩

/-- The cells behind the first pair are those of the blocks that begin one cell later. -/
theorem paired_succ : s.Paired R (a + 1) (b + 1) i ↔ s.Paired R a b (i + 1) := by
  have hshift : ∀ a : Nat, a + 1 + i = a + (i + 1) := fun a => by omega
  unfold Paired
  rw [hshift, hshift]

/-- Pairs are equal up to the first one of other content: as far as a comparison looks. -/
def EqualSoFar (s : Store) (n a b : Nat) : Prop :=
  ∀ i < n, (∀ j < i, s.Paired Same a b j) → s.Paired Equal a b i

/-- Where twins are the first pair of other content, the pairs after them are equal too. -/
def TwinsSettled (s : Store) (n a b : Nat) : Prop :=
  ∀ i < n, (∀ j < i, s.Paired Same a b j) → s.Paired Twins a b i →
    ∀ j < n, i < j → s.Paired Equal a b j

/-- What twins end is equal as far as a comparison looks. -/
theorem equalSoFar_of_twins {n : Nat} (hbefore : ∀ j < i, s.Paired Same a b j)
    (htwins : s.Paired Twins a b i) : s.EqualSoFar n a b := by
  intro k _ hsame
  rcases Nat.lt_trichotomy k i with hlt | rfl | hgt
  · exact (hbefore k hlt).mono fun _ _ h => Or.inl h
  · exact htwins.mono fun _ _ h => Or.inr h.order
  · obtain ⟨c, d, -, -, hboth, hnot⟩ := (hsame i hgt).and htwins
    exact absurd hboth hnot.not_same

/-- Pairs that are equal so far are equal throughout if twins are settled. -/
theorem TwinsSettled.equal {n : Nat} (h : s.TwinsSettled n a b) (hfar : s.EqualSoFar n a b) :
    ∀ k < n, s.Paired Equal a b k := by
  intro k hk
  by_cases hsame : ∀ j < k, s.Paired Same a b j
  · exact hfar k hk hsame
  · -- the first pair of other content is equal, hence a pair of twins, and it lies before `k`
    have hother : ∃ j, j < k ∧ ¬ s.Paired Same a b j := by
      by_contra hnone
      exact hsame fun j hj => by_contra fun hnot => hnone ⟨j, hj, hnot⟩
    classical
    obtain ⟨hlt, hnot⟩ := Nat.find_spec hother
    have hbefore : ∀ j < Nat.find hother, s.Paired Same a b j := by
      intro j hj
      by_contra hj'
      exact Nat.find_min hother hj ⟨by omega, hj'⟩
    obtain ⟨c, d, hc, hd, hequal⟩ := hfar _ (by omega) hbefore
    have htwins : Twins c d := by
      rcases Cell.equal_iff.1 hequal with hcd | hcd
      · exact absurd ⟨c, d, hc, hd, hcd⟩ hnot
      · exact hcd
    exact h _ (by omega) hbefore ⟨c, d, hc, hd, htwins⟩ k hk hlt

/-- To look no further than the first pair of other content is right just where twins are settled. -/
theorem equalSoFar_iff {n : Nat} :
    (s.EqualSoFar n a b ↔ ∀ i < n, s.Paired Equal a b i) ↔ s.TwinsSettled n a b := by
  constructor
  · intro hiff i hi hbefore htwins j hj _
    exact hiff.1 (equalSoFar_of_twins hbefore htwins) j hj
  · intro h
    exact ⟨h.equal, fun hall i hi _ => hall i hi⟩

end Store

namespace Machine

variable {m m' : Machine} {a b : Nat}

/-- Two blocks have the order of their first pair of other content; without such a pair they are
equal. -/
theorem compareBlocks_ok {n : Nat} {o : Ordering} : ∀ {a b : Nat}, compareBlocks n a b m = .ok o m' →
    m' = m ∧ ((o = .eq ∧ ∀ i < n, m.store.Paired Same a b i) ∨
      ∃ i < n, (∀ j < i, m.store.Paired Same a b j) ∧
        m.store.Paired (fun c d => ¬ Same c d ∧ c.order d = .ok o) a b i) := by
  induction n with
  | zero =>
    intro a b h
    cases h
    exact ⟨rfl, Or.inl ⟨rfl, fun i hi => absurd hi (Nat.not_lt_zero i)⟩⟩
  | succ n ih =>
    intro a b h
    rw [compareBlocks] at h
    obtain ⟨c, m₁, hreadc, hrun⟩ := Action.bind_eq_ok.1 h
    obtain ⟨hc, rfl⟩ := read_ok hreadc
    obtain ⟨d, m₂, hreadd, hrest⟩ := Action.bind_eq_ok.1 hrun
    obtain ⟨hd, rfl⟩ := read_ok hreadd
    by_cases hsame : c.same d = true
    · rw [if_pos hsame] at hrest
      obtain ⟨rfl, hpairs⟩ := ih hrest
      have hfirst : m'.store.Paired Same a b 0 := ⟨c, d, hc, hd, hsame⟩
      refine ⟨rfl, ?_⟩
      rcases hpairs with ⟨ho, hall⟩ | ⟨i, hi, hbefore, hother⟩
      · refine Or.inl ⟨ho, fun i hi => ?_⟩
        cases i with
        | zero => exact hfirst
        | succ i => exact Store.paired_succ.1 (hall i (by omega))
      · refine Or.inr ⟨i + 1, by omega, fun j hj => ?_, Store.paired_succ.1 hother⟩
        cases j with
        | zero => exact hfirst
        | succ j => exact Store.paired_succ.1 (hbefore j (by omega))
    · rw [if_neg hsame] at hrest
      obtain ⟨horder, rfl⟩ := Action.lift_eq_ok.1 hrest
      have hnone : ∀ j < 0, m₂.store.Paired Same a b j := fun j hj => absurd hj (Nat.not_lt_zero j)
      exact ⟨rfl, Or.inr ⟨0, by omega, hnone, c, d, hc, hd, hsame, horder⟩⟩

/-- Blocks are found equal if they are equal as far as the comparison looks. -/
theorem found_equal_iff {n : Nat} {o : Ordering} (h : compareBlocks n a b m = .ok o m') :
    o = .eq ↔ m.store.EqualSoFar n a b := by
  obtain ⟨-, ⟨rfl, hall⟩ | ⟨i, hi, hbefore, hother⟩⟩ := compareBlocks_ok h
  · have hfar : m.store.EqualSoFar n a b := fun i hi _ => (hall i hi).mono fun _ _ h => Or.inl h
    exact ⟨fun _ => hfar, fun _ => rfl⟩
  · constructor
    · rintro rfl
      have htwins : m.store.Paired Twins a b i :=
        hother.mono fun _ _ hcd => (Cell.same_or_twins hcd.2).resolve_left hcd.1
      exact Store.equalSoFar_of_twins hbefore htwins
    · intro hfar
      obtain ⟨c, d, -, -, ⟨hnot, horder⟩, hequal⟩ := hother.and (hfar i hi hbefore)
      rcases hequal with hsame | hequal
      · exact absurd hsame hnot
      · exact Except.ok.inj (horder.symm.trans hequal)

variable {left right : Cell}

/-- Whether a relation holds between two blocks is a matter of their order. -/
theorem relates_blocks (r : Relation) (len : Word) (ha : left.asAddress = .ok a)
    (hb : right.asAddress = .ok b) : relates r Instruction.multiple len left right m =
      (compareBlocks len.count a b >>= fun o => pure (r.holds o)) m := by
  unfold relates
  rw [if_pos rfl, ha, hb, Action.bind_of_ok (Action.lift_ok a m),
    Action.bind_of_ok (Action.lift_ok b m)]

/-- A comparison of blocks takes their addresses from the stack and leaves a truth value there. -/
theorem compare_blocks (r : Relation) {len : Word} (hops : m.Operands left right)
    (ha : left.asAddress = .ok a) (hb : right.asAddress = .ok b) :
    compare r Instruction.multiple len m =
      (compareBlocks len.count a b >>= fun o => setTop (.bool (r.holds o))) m.popped := by
  have hrelates := relates_blocks (m := m.popped) r len ha hb
  rw [compare, Action.bind_of_ok (pop_eq hops.1), Action.bind_of_ok (peek_zero_eq hops.2)]
  cases ho : compareBlocks len.count a b m.popped with
  | ok o m₁ =>
    rw [Action.bind_of_ok ho] at hrelates ⊢
    exact Action.bind_of_ok hrelates
  | error f m₁ =>
    rw [Action.bind_of_error ho] at hrelates ⊢
    exact Action.bind_of_error hrelates

/-- **Equal blocks.** If a comparison of two blocks for equality succeeds, it leaves a truth value in
the place of their addresses, and the comparison for inequality leaves its negation. The value is true
just if the pairs of the blocks are equal up to and including the first that has not the same content.
So it says whether all pairs are equal, unless that pair is an address and a mark with one number and
a pair after it is unequal. -/
theorem equal_blocks_iff (m m' : Machine) (left right : Cell) (a b : Nat) (len : Word)
    (hops : m.Operands left right) (ha : left.asAddress = .ok a) (hb : right.asAddress = .ok b)
    (h : perform ⟨.equ, Instruction.multiple, len⟩ m = .ok () m') :
    ∃ result, Gives ⟨.equ, Instruction.multiple, len⟩ m (.bool result) ∧
      Gives ⟨.neq, Instruction.multiple, len⟩ m (.bool !result) ∧
      (result = true ↔ m.store.EqualSoFar len.count a b) ∧
      ((result = true ↔ ∀ i < len.count, m.store.Paired Equal a b i) ↔
        m.store.TwinsSettled len.count a b) := by
  have hequ : perform ⟨.equ, Instruction.multiple, len⟩ m =
      compare .equal Instruction.multiple len m := rfl
  have hneq : perform ⟨.neq, Instruction.multiple, len⟩ m =
      compare .notEqual Instruction.multiple len m := rfl
  rw [hequ, compare_blocks .equal hops ha hb] at h
  obtain ⟨o, m₁, ho, -⟩ := Action.bind_eq_ok.1 h
  obtain ⟨rfl, -⟩ := compareBlocks_ok ho
  have hgives : ∀ r : Relation, compare r Instruction.multiple len m =
      .ok () (m.popped.replaced (.bool (r.holds o))) := by
    intro r
    rw [compare_blocks r hops ha hb, Action.bind_of_ok ho, setTop_eq hops.2]
  have hresult : Relation.equal.holds o = true ↔ m.store.EqualSoFar len.count a b :=
    decide_eq_true_iff.trans (found_equal_iff (m := m.popped) ho)
  have hnot : Relation.notEqual.holds o = !Relation.equal.holds o := by cases o <;> rfl
  refine ⟨Relation.equal.holds o, hequ.trans (hgives .equal), ?_, hresult, ?_⟩
  · rw [← hnot]
    exact hneq.trans (hgives .notEqual)
  · rw [hresult]
    exact Store.equalSoFar_iff

/-- A machine with two blocks of two cells, whose first cells are a mark and an address of one number,
and with the addresses of these blocks on its stack. -/
def marked : Machine where
  pc := 0
  mp := 0
  sp := 5
  np := 8
  code := #[]
  store := ⟨default, #[.mark 7, .int 2, .address 7, .int 1, .address 2, .address 0], default⟩
  files := default

theorem equal_blocks_iff_marked : Gives ⟨.equ, Instruction.multiple, 2⟩ marked (.bool true) ∧
    Gives ⟨.neq, Instruction.multiple, 2⟩ marked (.bool false) ∧
    ¬ ∀ i < 2, marked.store.Paired Equal 2 0 i := by
  have hops : marked.Operands (.address 2) (.address 0) := ⟨rfl, rfl⟩
  have hrun : perform ⟨.equ, Instruction.multiple, 2⟩ marked =
      .ok () (marked.popped.replaced (.bool true)) := rfl
  have htwins : Twins (.address 7) (.mark 7) := ⟨7, Or.inl ⟨rfl, rfl⟩⟩
  have hfirst : marked.store.Paired Twins 2 0 0 := ⟨_, _, rfl, rfl, htwins⟩
  have hsecond : ¬ marked.store.Paired Equal 2 0 1 := by
    rintro ⟨c, d, hc, hd, hequal⟩
    obtain rfl : .int 1 = c := Option.some.inj hc
    obtain rfl : .int 2 = d := Option.some.inj hd
    rcases hequal with h | h
    · exact Bool.false_ne_true h
    · cases h
  obtain ⟨result, hequ, hneq, hfar, -⟩ := equal_blocks_iff marked _ _ _ 2 0 2 hops rfl rfl hrun
  obtain rfl : result = true :=
    hfar.2 (Store.equalSoFar_of_twins (n := 2) (fun j hj => absurd hj (Nat.not_lt_zero j)) hfirst)
  exact ⟨hequ, hneq, fun hall => hsecond (hall 1 (by decide))⟩

end Machine

end PMachine
