import PMachine.Proofs.IntSet
import PMachine.Proofs.Machine.Operands

/-!
# The laws of comparison

Scalars are compared by their order and sets by inclusion, in six relations each. All of them follow from
two questions, whether the left side is at most the right one and whether it is at least that. So the
relations of two cells agree with each other, whichever kind the cells have and on whichever side they
stand. Reals are left out: two of them may have no order.

* `Relation.judge`: a relation from the answers to the two questions.
* `Cell.Judged`: the answers that the six relations of two cells come from.
* `Cell.Comparison`: two cells that are no reals have no comparison, or they compare as two numbers or as
  two sets.
* `Cell.relations_coherent`: the laws of the six relations.
-/

namespace PMachine

namespace Relation

/-- The relation with its sides exchanged. -/
def converse : Relation → Relation
  | equal => equal
  | notEqual => notEqual
  | greaterEqual => lessEqual
  | greater => less
  | lessEqual => greaterEqual
  | less => greater

/-- Whether a relation holds, if it is known whether the left side is at most the right one and whether
it is at least that. -/
def judge (r : Relation) (most least : Bool) : Bool :=
  match r with
  | equal => most && least
  | notEqual => !(most && least)
  | greaterEqual => least
  | greater => least && !most
  | lessEqual => most
  | less => most && !least

/-- A relation and its converse judge alike, with the sides exchanged. -/
theorem judge_converse (r : Relation) (most least : Bool) :
    r.converse.judge least most = r.judge most least := by
  cases r <;> cases most <;> cases least <;> rfl

/-- What a relation says of an order depends on whether it is at most and at least equality. -/
theorem holds_eq_judge (r : Relation) (o : Ordering) : r.holds o = r.judge o.isLE o.isGE := by
  cases r <;> cases o <;> rfl

/-- The six relations of sets come from the two inclusions. -/
theorem holdsOfSets_eq_judge (r : Relation) (s t : IntSet) :
    r.holdsOfSets s t = r.judge (s ⊆ t) (t ⊆ s) := by
  have heq : s = t ↔ s ⊆ t ∧ t ⊆ s := IntSet.eq_iff_subset
  by_cases hst : s ⊆ t <;> by_cases hts : t ⊆ s <;> cases r <;> simp [holdsOfSets, judge, heq, hst, hts]

end Relation

namespace Cell

/-- The number by which a scalar is ordered among those of its kind. -/
def rank? : Cell → Option Int
  | int n => some n.toInt
  | bool b => some b.toNat
  | address a | mark a => some a
  | undefined | real _ | set _ => none

/-- The six relations of two cells come from two answers. -/
def Judged (c d : Cell) (most least : Bool) : Prop := ∀ r, relates r c d = .ok (r.judge most least)

/-- How two cells compare: not at all, whichever is on the left; or as two numbers of one kind; or as two
sets. -/
inductive Comparison (c d : Cell) : Prop where
  | fault {f : Fault} (h : ∀ r, relates r c d = .error f) (h' : ∀ r, relates r d c = .error f)
  | ranks {a b : Int} (hkind : c.kind = d.kind) (hc : c.rank? = some a) (hd : d.rank? = some b)
  | sets {s t : IntSet} (hc : c = .set s) (hd : d = .set t)

variable {c d e : Cell} {a b : Int}

/-! ### Two cells -/

/-- Natural numbers are ordered as integers are. -/
theorem compare_natCast (a b : Nat) : compare (a : Int) b = compare a b := by
  rw [Int.compare_eq_ite_lt, Nat.compare_eq_ite_lt]
  simp only [Int.ofNat_lt]

/-- Scalars of one kind are judged by their numbers. -/
theorem judged_of_rank (hkind : c.kind = d.kind) (hc : c.rank? = some a) (hd : d.rank? = some b) :
    Judged c d (a ≤ b) (b ≤ a) := by
  have horder : c.order d = .ok (compare a b) := by
    cases c <;> cases d <;> cases hkind <;> cases hc <;> cases hd <;> simp only [order, compare_natCast]
  have hleft : (compare a b).isLE = decide (a ≤ b) := by
    rw [Bool.eq_iff_iff, decide_eq_true_iff, Int.isLE_compare]
  have hright : (compare a b).isGE = decide (b ≤ a) := by
    rw [Bool.eq_iff_iff, decide_eq_true_iff, Int.isGE_compare]
  intro r
  have hrelates : relates r c d = (c.order d).map r.holds := by
    cases c <;> first | rfl | cases hc
  rw [hrelates, horder, Except.map, Relation.holds_eq_judge, hleft, hright]

/-- Sets are judged by inclusion. -/
theorem judged_of_set (s t : IntSet) : Judged (.set s) (.set t) (s ⊆ t) (t ⊆ s) := by
  intro r
  rw [relates, Relation.holdsOfSets_eq_judge]

/-- Every pair of kinds but those with a real compares in one of the three ways. -/
theorem comparison_of_not_real (hc : c.kind ≠ .real) (hd : d.kind ≠ .real) : Comparison c d := by
  -- two kinds that do not match are refused with one fault, whichever of them is on the left
  cases c <;> cases d <;>
    first
      | exact absurd rfl hc
      | exact absurd rfl hd
      | exact .sets rfl rfl
      | exact .ranks rfl rfl rfl
      | exact .fault (fun _ => rfl) (fun _ => rfl)

/-- Two cells have no comparison on either side, or they are judged alike from both. -/
theorem Comparison.fault_or_judged (h : Comparison c d) :
    (∃ f, (∀ r, relates r c d = .error f) ∧ ∀ r, relates r d c = .error f) ∨
      ∃ most least, Judged c d most least ∧ Judged d c least most := by
  cases h with
  | fault h h' => exact Or.inl ⟨_, h, h'⟩
  | ranks hkind hc hd => exact Or.inr ⟨_, _, judged_of_rank hkind hc hd, judged_of_rank hkind.symm hd hc⟩
  | sets hc hd =>
    subst hc hd
    exact Or.inr ⟨_, _, judged_of_set _ _, judged_of_set _ _⟩

/-- Two cells in a relation are in the converse the other way round. -/
theorem Comparison.converse (h : Comparison c d) (r : Relation) : relates r c d = relates r.converse d c := by
  rcases h.fault_or_judged with ⟨f, hleft, hright⟩ | ⟨most, least, hleft, hright⟩
  · rw [hleft, hright]
  · rw [hleft, hright, Relation.judge_converse]

/-! ### At most -/

/-- The relation of at most holds between cells that are judged so. -/
theorem Judged.atMost_iff {most least : Bool} (h : Judged c d most least) :
    relates .lessEqual c d = .ok true ↔ most = true := by
  rw [h .lessEqual, Except.ok.injEq]
  rfl

/-- Cells of one kind that have ranks are ordered by them. -/
theorem atMost_iff_of_rank (hkind : c.kind = d.kind) (hc : c.rank? = some a) (hd : d.rank? = some b) :
    relates .lessEqual c d = .ok true ↔ a ≤ b :=
  (judged_of_rank hkind hc hd).atMost_iff.trans decide_eq_true_iff

/-- Sets are ordered by inclusion. -/
theorem atMost_iff_of_set (s t : IntSet) : relates .lessEqual (.set s) (.set t) = .ok true ↔ s ⊆ t :=
  (judged_of_set s t).atMost_iff.trans decide_eq_true_iff

/-- A cell with a value is at most itself. -/
theorem atMost_refl (hreal : c.kind ≠ .real) (hvalue : c.kind ≠ .undefined) :
    relates .lessEqual c c = .ok true := by
  cases hrank : c.rank? with
  | some a => exact (atMost_iff_of_rank rfl hrank hrank).2 le_rfl
  | none =>
    cases c with
    | set s => exact (atMost_iff_of_set s s).2 (IntSet.subset_refl s)
    | undefined => exact absurd rfl hvalue
    | real x => exact absurd rfl hreal
    | int _ | bool _ | address _ | mark _ => cases hrank

/-- A cell between two others compares with both, so that these compare with each other. -/
theorem atMost_trans (hc : c.kind ≠ .real) (hd : d.kind ≠ .real) (he : e.kind ≠ .real)
    (hleft : relates .lessEqual c d = .ok true) (hright : relates .lessEqual d e = .ok true) :
    relates .lessEqual c e = .ok true := by
  -- the cell in the middle is a scalar or a set, and so both pairs compare in the same way
  cases comparison_of_not_real hc hd with
  | fault h =>
    rw [h] at hleft
    cases hleft
  | ranks hkind hrankc hrankd =>
    cases comparison_of_not_real hd he with
    | fault h =>
      rw [h] at hright
      cases hright
    | ranks hkind' hrankd' hranke =>
      have hsame := Option.some.inj (hrankd.symm.trans hrankd')
      have hle := (atMost_iff_of_rank hkind hrankc hrankd).1 hleft
      have hle' := (atMost_iff_of_rank hkind' hrankd' hranke).1 hright
      exact (atMost_iff_of_rank (hkind.trans hkind') hrankc hranke).2 (by omega)
    | sets hset =>
      subst hset
      cases hrankd
  | sets hset hset' =>
    subst hset hset'
    cases comparison_of_not_real hd he with
    | fault h =>
      rw [h] at hright
      cases hright
    | ranks _ hrankd => cases hrankd
    | sets hset hset' =>
      cases hset
      subst hset'
      rw [atMost_iff_of_set] at hleft hright ⊢
      exact IntSet.subset_trans hleft hright

/-- Integers, truth values and addresses have ranks. -/
theorem exists_rank (h : c.kind ∈ [.integer, .truth, .address]) : ∃ a, c.rank? = some a := by
  cases c with
  | int _ | bool _ | address _ | mark _ => exact ⟨_, rfl⟩
  | undefined | real _ | set _ => simp [kind] at h

/-- Two scalars of one kind are in order one way or the other. -/
theorem atMost_total (hkind : c.kind = d.kind) (hc : c.kind ∈ [.integer, .truth, .address]) :
    relates .lessEqual c d = .ok true ∨ relates .lessEqual d c = .ok true := by
  obtain ⟨a, ha⟩ := exists_rank hc
  obtain ⟨b, hb⟩ := exists_rank (hkind ▸ hc)
  rw [atMost_iff_of_rank hkind ha hb, atMost_iff_of_rank hkind.symm hb ha]
  exact le_total a b

/-! ### All six -/

/-- **The six comparisons are coherent** on cells that are no reals. Either all six of them fail with one
fault, or all give a truth value: then the inequality is the negation of the equality, and the strict
relations are the others without equality. Each relation is its converse with the cells exchanged, faults
included. To be at most something both ways is to be equal to it. It is reflexive on cells with a value, and
transitive; it is total on integers, on truth values, and on addresses and marks together, and among sets
it is inclusion. -/
theorem relations_coherent :
    (∀ c d : Cell, c.kind ≠ .real → d.kind ≠ .real →
      ((∃ f, ∀ r, relates r c d = .error f) ∨ ∃ value : Relation → Bool,
        (∀ r, relates r c d = .ok (value r)) ∧ value .notEqual = !value .equal ∧
        value .less = (value .lessEqual && value .notEqual) ∧
        value .greater = (value .greaterEqual && value .notEqual)) ∧
      (∀ r, relates r c d = relates r.converse d c) ∧
      (relates .lessEqual c d = .ok true ∧ relates .lessEqual d c = .ok true ↔
        relates .equal c d = .ok true)) ∧
    (∀ c : Cell, c.kind ≠ .real → c.kind ≠ .undefined → relates .lessEqual c c = .ok true) ∧
    (∀ c d e : Cell, c.kind ≠ .real → d.kind ≠ .real → e.kind ≠ .real →
      relates .lessEqual c d = .ok true → relates .lessEqual d e = .ok true →
      relates .lessEqual c e = .ok true) ∧
    (∀ c d : Cell, c.kind = d.kind → c.kind ∈ [.integer, .truth, .address] →
      relates .lessEqual c d = .ok true ∨ relates .lessEqual d c = .ok true) ∧
    ∀ s t : IntSet, ∃ b, relates .lessEqual (.set s) (.set t) = .ok b ∧ (b = true ↔ ∀ n, n ∈ s → n ∈ t) := by
  refine ⟨fun c d hc hd => ?_, fun c => atMost_refl, fun c d e => atMost_trans, fun c d => atMost_total,
    fun s t => ⟨_, judged_of_set s t .lessEqual, decide_eq_true_iff⟩⟩
  have hcompare := comparison_of_not_real hc hd
  refine ⟨?_, hcompare.converse, ?_⟩
  · rcases hcompare.fault_or_judged with ⟨f, h, -⟩ | ⟨most, least, h, -⟩
    · exact Or.inl ⟨f, h⟩
    · refine Or.inr ⟨fun r => r.judge most least, h, rfl, ?_, ?_⟩ <;> cases most <;> cases least <;> rfl
  · rcases hcompare.fault_or_judged with ⟨f, h, -⟩ | ⟨most, least, h, h'⟩
    · rw [h, h]
      simp
    · rw [h.atMost_iff, h'.atMost_iff, h .equal, Except.ok.injEq]
      exact Bool.and_eq_true_iff.symm

theorem relations_coherent_linked :
    relates .equal (.address 5) (.mark 5) = .ok true ∧
    relates .lessEqual (.mark 5) (.mark 5) = .ok true ∧
    relates .lessEqual (.address 5) (.address 7) = .ok true ∧
    (relates .lessEqual (.bool true) (.bool false) = .ok true ∨
      relates .lessEqual (.bool false) (.bool true) = .ok true) := by
  obtain ⟨hpair, hrefl, htrans, htotal, -⟩ := relations_coherent
  exact ⟨(hpair (.address 5) (.mark 5) (by decide) (by decide)).2.2.1 ⟨rfl, rfl⟩,
    hrefl (.mark 5) (by decide) (by decide),
    htrans (.address 5) (.mark 5) (.address 7) (by decide) (by decide) (by decide) rfl rfl,
    htotal (.bool true) (.bool false) rfl (by decide)⟩

end Cell

end PMachine
