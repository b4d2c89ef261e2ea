import PMachine.Proofs.Machine.Stack

/-!
# Operands that an operator does not accept

A binary operator accepts operands of certain kinds, and an undefined cell is of none of them. It looks
at one operand after the other, each has to be what it asks for, and else there is no result. But the
conjunction and the disjunction are done when the left operand decides, and do not look at the other.

* `Cell.kind`, `Instruction.accepts?`: the kinds of cells, and what each binary operator accepts.
* `Cell.Strict`: an operator on cells that refuses what is not accepted.
* `Machine.strict_unless_decided`: a binary operator refuses what it does not accept, unless the left
  operand decides; so the order of the operands matters only then.
-/

namespace PMachine

namespace Cell

/-- The kinds of values that operators tell apart. Marks count as addresses. -/
inductive Kind where
  | undefined
  | integer
  | real
  | truth
  | set
  | address
deriving DecidableEq, Repr

/-- The kind of a cell. -/
def kind : Cell → Kind
  | undefined => .undefined
  | int _ => .integer
  | real _ => .real
  | bool _ => .truth
  | set _ => .set
  | address _ | mark _ => .address

/-- Kinds that count as real numbers. -/
def Kind.isNumber (k : Kind) : Bool := k == .integer || k == .real

/-- Each operand is judged by itself. -/
def Kind.pair (p q : Kind → Bool) (k l : Kind) : Bool := p k && q l

/-- Two values of one kind can be compared. -/
def Kind.alike (k l : Kind) : Bool := k == l && k != .undefined

end Cell

open Cell (Kind)

namespace Instruction

/-- The kinds that a binary operator accepts as its left and its right operand; `none` for an
instruction that is no binary operator, or that compares blocks. -/
def accepts? (i : Instruction) : Option (Kind → Kind → Bool) :=
  match i.op with
  | .adi | .sbi | .mpi | .dvi | .mod => some (Kind.pair (· == .integer) (· == .integer))
  | .adr | .sbr | .mpr | .dvr => some (Kind.pair Kind.isNumber Kind.isNumber)
  | .and | .ior => some (Kind.pair (· == .truth) (· == .truth))
  | .dif | .int | .uni => some (Kind.pair (· == .set) (· == .set))
  | .inn => some (Kind.pair (· == .integer) (· == .set))
  | .equ | .neq | .geq | .grt | .leq | .les => if i.p = multiple then none else some Kind.alike
  | _ => none

/-- The truth value at which a conjunction or a disjunction is decided by its left operand. -/
def decider? (i : Instruction) : Option Bool :=
  match i.op with
  | .and => some false
  | .ior => some true
  | _ => none

/-- The left operand decides the result. -/
def decidedBy (i : Instruction) (left : Cell) : Prop := i.decider?.map .bool = some left

instance (i : Instruction) (left : Cell) : Decidable (i.decidedBy left) :=
  inferInstanceAs (Decidable (_ = _))

end Instruction

namespace Cell

variable {α β : Type} {c d : Cell}

/-! ### Computations without a result -/

/-- A computation has no result. -/
def Refused (x : Except Fault α) : Prop := ∃ f, x = .error f

/-- What follows a computation without a result does not give it one. -/
theorem Refused.first {x : Except Fault α} (h : Refused x) (k : α → Except Fault β) :
    Refused (x >>= k) := by
  obtain ⟨f, rfl⟩ := h
  exact ⟨f, rfl⟩

/-- A computation has no result if what follows never has one. -/
theorem Refused.next {x : Except Fault α} {k : α → Except Fault β} (h : ∀ a, Refused (k a)) :
    Refused (x >>= k) := by
  cases x with
  | error f => exact ⟨f, rfl⟩
  | ok a => exact h a

/-- A reading of cells refuses all other kinds. -/
def Demands (p : Kind → Bool) (x : Cell → Except Fault α) : Prop :=
  ∀ c : Cell, p c.kind = false → Refused (x c)

/-- An integer is demanded of an integer cell. -/
theorem asInt_demands : Demands (· == .integer) asInt := by
  intro c h
  cases c with
  | int _ => cases h
  | undefined | real _ | bool _ | set _ | address _ | mark _ => exact ⟨_, rfl⟩

/-- A real is demanded of a number, which may be an integer. -/
theorem asReal_demands : Demands Kind.isNumber asReal := by
  intro c h
  cases c with
  | int _ | real _ => cases h
  | undefined | bool _ | set _ | address _ | mark _ => exact ⟨_, rfl⟩

/-- A truth value is demanded of a truth value. -/
theorem asBool_demands : Demands (· == .truth) asBool := by
  intro c h
  cases c with
  | bool _ => cases h
  | undefined | int _ | real _ | set _ | address _ | mark _ => exact ⟨_, rfl⟩

/-- A set is demanded of a set. -/
theorem asSet_demands : Demands (· == .set) asSet := by
  intro c h
  cases c with
  | set _ => cases h
  | undefined | int _ | real _ | bool _ | address _ | mark _ => exact ⟨_, rfl⟩

/-! ### Strict operators -/

/-- An operator has no result for operands that are not accepted. -/
def Strict (accepts : Kind → Kind → Bool) (g : Cell → Cell → Except Fault Cell) : Prop :=
  ∀ c d : Cell, accepts c.kind d.kind = false → Refused (g c d)

variable {p q : Kind → Bool}

/-- An operator is strict if it reads its left operand and then its right one. -/
theorem strict_of_left {x : Cell → Except Fault α} {y : Cell → Except Fault β} (hx : Demands p x)
    (hy : Demands q y) (k : α → β → Except Fault Cell) :
    Strict (Kind.pair p q) fun c d => x c >>= fun a => y d >>= fun b => k a b := by
  intro c d h
  rcases Bool.and_eq_false_iff.1 h with hleft | hright
  · exact (hx c hleft).first _
  · exact .next fun _ => (hy d hright).first _

/-- It is strict if it reads its right operand first and comes to the left one, if to anything. -/
theorem strict_of_right {y : Cell → Except Fault β} {k : β → Cell → Except Fault Cell}
    (hy : Demands q y) (hk : ∀ b, Demands p (k b)) :
    Strict (Kind.pair p q) fun c d => y d >>= fun b => k b c := by
  intro c d h
  rcases Bool.and_eq_false_iff.1 h with hleft | hright
  · exact .next fun b => hk b c hleft
  · exact (hy d hright).first _

/-- A division of reals demands two numbers, whatever it divides by. -/
theorem divReal_strict : Strict (Kind.pair Kind.isNumber Kind.isNumber) divReal := by
  refine strict_of_right asReal_demands fun y c h => ?_
  -- a divisor of zero is refused before the dividend is looked at
  split
  · exact ⟨_, rfl⟩
  · exact (asReal_demands c h).first _

/-- Membership demands an integer and a set. -/
theorem member_strict : Strict (Kind.pair (· == .integer) (· == .set)) member :=
  strict_of_right asSet_demands fun _ c h => (asInt_demands c h).first _

/-- A relation demands two cells of kinds that compare. -/
theorem relates_strict (r : Relation) : Strict Kind.alike fun c d => (relates r c d).map .bool := by
  intro c d h
  cases c with
  | undefined => exact ⟨_, rfl⟩
  | int _ =>
    cases d with
    | int _ => cases h
    | undefined | real _ | bool _ | set _ | address _ | mark _ => exact ⟨_, rfl⟩
  | real _ =>
    cases d with
    | real _ => cases h
    | undefined | int _ | bool _ | set _ | address _ | mark _ => exact ⟨_, rfl⟩
  | bool _ =>
    cases d with
    | bool _ => cases h
    | undefined | int _ | real _ | set _ | address _ | mark _ => exact ⟨_, rfl⟩
  | set _ =>
    cases d with
    | set _ => cases h
    | undefined | int _ | real _ | bool _ | address _ | mark _ => exact ⟨_, rfl⟩
  | address _ | mark _ =>
    cases d with
    | address _ | mark _ => cases h
    | undefined | int _ | real _ | bool _ | set _ => exact ⟨_, rfl⟩

/-! ### Conjunction and disjunction -/

/-- What conjunction and disjunction have in common: the left operand decides if it is the truth value
`b`, and else the right one does. -/
def connective (b : Bool) (c d : Cell) : Except Fault Cell := do
  let left ← c.asBool
  if left = b then return .bool b
  else
    let right ← d.asBool
    return .bool right

/-- A conjunction is decided by a left operand that is false. -/
theorem and_eq (c d : Cell) : c.and d = connective false c d := by
  cases c with
  | bool b => cases b <;> rfl
  | undefined | int _ | real _ | set _ | address _ | mark _ => rfl

/-- A disjunction is decided by a left operand that is true. -/
theorem or_eq (c d : Cell) : c.or d = connective true c d := by
  cases c with
  | bool b => cases b <;> rfl
  | undefined | int _ | real _ | set _ | address _ | mark _ => rfl

/-- A left operand that decides leaves the right one unread. -/
theorem connective_decided (b : Bool) (d : Cell) : connective b (.bool b) d = .ok (.bool b) := by
  cases b <;> rfl

/-- Where the left operand does not decide, both operands are looked at. -/
theorem connective_refused {b : Bool} (hc : c ≠ .bool b)
    (h : Kind.pair (· == .truth) (· == .truth) c.kind d.kind = false) :
    Refused (connective b c d) := by
  cases c with
  | bool a =>
    have hab : a ≠ b := fun hab => hc (congrArg Cell.bool hab)
    have hd : (d.kind == .truth) = false := h
    have hrun : connective b (.bool a) d =
        if a = b then .ok (.bool b) else d.asBool >>= fun right => .ok (.bool right) := rfl
    rw [hrun, if_neg hab]
    exact (asBool_demands d hd).first _
  | undefined | int _ | real _ | set _ | address _ | mark _ => exact ⟨_, rfl⟩

/-- Truth values may be exchanged. -/
theorem connective_comm (b x y : Bool) :
    ∃ z, connective b (.bool x) (.bool y) = .ok z ∧ connective b (.bool y) (.bool x) = .ok z := by
  refine ⟨.bool (if x = b then b else y), ?_, ?_⟩
  · cases b <;> cases x <;> rfl
  · cases b <;> cases x <;> cases y <;> rfl

/-- A cell of the kind of truth values is one. -/
theorem eq_bool_of_kind (h : c.kind = .truth) : ∃ b, c = .bool b := by
  cases c with
  | bool b => exact ⟨b, rfl⟩
  | undefined | int _ | real _ | set _ | address _ | mark _ => cases h

end Cell

namespace Machine

open Cell (Refused Strict connective)

variable {m m' : Machine} {i : Instruction} {left right c d : Cell}

variable {g : Cell → Cell → Except Fault Cell}

/-- An operator that has a result on its operands gives it. -/
theorem gives_of_ok (hrun : perform i m = binary g m) (hops : m.Operands left right)
    (h : g left right = .ok c) : Gives i m c :=
  hrun.trans (binary_eq hops.1 hops.2 h)

/-- An operator without a result on its operands refuses them. -/
theorem refuses_of_refused (hrun : perform i m = binary g m) (hops : m.Operands left right)
    (h : Refused (g left right)) : Refuses i m := by
  obtain ⟨f, hf⟩ := h
  exact ⟨f, hrun.trans (binary_error hops.1 hops.2 hf)⟩

/-- A binary operator that no operand decides is strict. -/
theorem operator_strict {accepts : Kind → Kind → Bool} (haccepts : i.accepts? = some accepts)
    (hdecider : i.decider? = none) (hops : m.Operands left right) :
    ∃ g, perform i m = binary g m ∧ Strict accepts g := by
  obtain ⟨op, p, q⟩ := i
  have hcompare : ∀ r : Relation, (if p = Instruction.multiple then none else some Kind.alike) =
      some accepts → ∃ g, compare r p q m = binary g m ∧ Strict accepts g := by
    intro r h
    split at h
    · cases h
    · rename_i hp
      cases h
      exact ⟨_, compare_eq r hp q hops.1 hops.2, Cell.relates_strict r⟩
  cases op with
  | adi | sbi | mpi | dvi | mod =>
    cases haccepts
    exact ⟨_, rfl, Cell.strict_of_left Cell.asInt_demands Cell.asInt_demands _⟩
  | adr | sbr | mpr =>
    cases haccepts
    exact ⟨_, rfl, Cell.strict_of_left Cell.asReal_demands Cell.asReal_demands _⟩
  | dvr =>
    cases haccepts
    exact ⟨_, rfl, Cell.divReal_strict⟩
  | dif | int | uni =>
    cases haccepts
    exact ⟨_, rfl, Cell.strict_of_left Cell.asSet_demands Cell.asSet_demands _⟩
  | inn =>
    cases haccepts
    exact ⟨_, rfl, Cell.member_strict⟩
  | equ => exact hcompare .equal haccepts
  | neq => exact hcompare .notEqual haccepts
  | geq => exact hcompare .greaterEqual haccepts
  | grt => exact hcompare .greater haccepts
  | leq => exact hcompare .lessEqual haccepts
  | les => exact hcompare .less haccepts
  | and | ior => cases hdecider
  | _ => cases haccepts

/-- The two operators that an operand decides. -/
theorem operator_connective {b : Bool} (h : i.decider? = some b) :
    i.accepts? = some (Kind.pair (· == .truth) (· == .truth)) ∧
      perform i m = binary (connective b) m := by
  obtain ⟨op, p, q⟩ := i
  cases op with
  | and =>
    cases h
    have hand : Cell.and = connective false := funext fun c => funext fun d => Cell.and_eq c d
    exact ⟨rfl, hand ▸ rfl⟩
  | ior =>
    cases h
    have hor : Cell.or = connective true := funext fun c => funext fun d => Cell.or_eq c d
    exact ⟨rfl, hor ▸ rfl⟩
  | _ => cases h

/-- A connective is decided by one truth value on its left. -/
theorem decidedBy_iff {b : Bool} (h : i.decider? = some b) : i.decidedBy left ↔ left = .bool b := by
  unfold Instruction.decidedBy
  rw [h, Option.map_some, Option.some.injEq, eq_comm]

/-- Two machines get the same result from an instruction, or both get none. -/
def Agree (i : Instruction) (m m' : Machine) : Prop :=
  (∃ result, Gives i m result ∧ Gives i m' result) ∨ (Refuses i m ∧ Refuses i m')

theorem Agree.symm (h : Agree i m m') : Agree i m' m := by
  rcases h with ⟨result, hm, hm'⟩ | ⟨hm, hm'⟩
  · exact Or.inl ⟨result, hm', hm⟩
  · exact Or.inr ⟨hm', hm⟩

/-- A decisive operand is not looked past, but it has to be come to. -/
theorem not_agree {b : Bool} (hdecider : i.decider? = some b) (hops : m.Operands (.bool b) d)
    (hops' : m'.Operands d (.bool b)) (hd : d.kind ≠ .truth) : ¬ Agree i m m' := by
  have hgives : Gives i m (.bool b) :=
    gives_of_ok (operator_connective hdecider).2 hops (Cell.connective_decided b d)
  have hrefuses : Refuses i m' := by
    refine refuses_of_refused (operator_connective hdecider).2 hops' (Cell.connective_refused ?_ ?_)
    · rintro rfl
      exact hd rfl
    · rw [Kind.pair, beq_eq_false_iff_ne.2 hd, Bool.false_and]
  rintro (⟨result, -, hgives'⟩ | ⟨hrefuses', -⟩)
  · exact hgives'.not_refuses hrefuses
  · exact hgives.not_refuses hrefuses'

/-- Exchanged operands make no difference unless one decides and the other is no truth value. -/
theorem agree_iff {b : Bool} (hdecider : i.decider? = some b) (hops : m.Operands c d)
    (hops' : m'.Operands d c) :
    Agree i m m' ↔ ¬ (c = .bool b ∧ d.kind ≠ .truth) ∧ ¬ (d = .bool b ∧ c.kind ≠ .truth) := by
  constructor
  · intro h
    refine ⟨?_, ?_⟩
    · rintro ⟨rfl, hd⟩
      exact not_agree hdecider hops hops' hd h
    · rintro ⟨rfl, hc⟩
      exact not_agree hdecider hops' hops hc h.symm
  · rintro ⟨hc, hd⟩
    have hrun := (operator_connective (m := m) hdecider).2
    have hrun' := (operator_connective (m := m') hdecider).2
    by_cases htruth : c.kind = .truth ∧ d.kind = .truth
    · obtain ⟨x, rfl⟩ := Cell.eq_bool_of_kind htruth.1
      obtain ⟨y, rfl⟩ := Cell.eq_bool_of_kind htruth.2
      obtain ⟨z, hxy, hyx⟩ := Cell.connective_comm b x y
      exact Or.inl ⟨z, gives_of_ok hrun hops hxy, gives_of_ok hrun' hops' hyx⟩
    · -- neither operand decides, for then the other would be a truth value too
      have hbad : Kind.pair (· == .truth) (· == .truth) c.kind d.kind = false := by
        simpa [Kind.pair] using htruth
      have hbad' : Kind.pair (· == .truth) (· == .truth) d.kind c.kind = false := by
        rw [Kind.pair, Bool.and_comm]
        exact hbad
      have hundecided : c ≠ .bool b := by
        rintro rfl
        exact hc ⟨rfl, fun h => htruth ⟨rfl, h⟩⟩
      have hundecided' : d ≠ .bool b := by
        rintro rfl
        exact hd ⟨rfl, fun h => htruth ⟨h, rfl⟩⟩
      exact Or.inr ⟨refuses_of_refused hrun hops (Cell.connective_refused hundecided hbad),
        refuses_of_refused hrun' hops' (Cell.connective_refused hundecided' hbad')⟩

/-- **Binary operators are strict unless an operand decides.** Where an operand is undefined or not of
a kind that the operator accepts, the operator fails without a result. The exception is a conjunction
with a false left operand or a disjunction with a true one, which has the left operand as its result,
whatever the right one is. So these two give the same result or both fail when their operands are
exchanged, unless one operand decides and the other is no truth value. -/
theorem strict_unless_decided (m : Machine) (i : Instruction) (left right : Cell)
    (hops : m.Operands left right) :
    (∀ accepts, i.accepts? = some accepts → accepts left.kind right.kind = false →
      (Refuses i m ↔ ¬ i.decidedBy left) ∧ (i.decidedBy left → Gives i m left)) ∧
    ∀ m' : Machine, i.decider?.isSome = true → m'.Operands right left →
      (Agree i m m' ↔
        ¬ (i.decidedBy left ∧ right.kind ≠ .truth) ∧ ¬ (i.decidedBy right ∧ left.kind ≠ .truth)) := by
  constructor
  · intro accepts haccepts hbad
    cases hdecider : i.decider? with
    | none =>
      have hundecided : ¬ i.decidedBy left := by simp [Instruction.decidedBy, hdecider]
      obtain ⟨g, hrun, hstrict⟩ := operator_strict haccepts hdecider hops
      have hrefuses := refuses_of_refused hrun hops (hstrict left right hbad)
      exact ⟨⟨fun _ => hundecided, fun _ => hrefuses⟩, fun h => absurd h hundecided⟩
    | some b =>
      obtain ⟨hpair, hrun⟩ := operator_connective (m := m) hdecider
      obtain rfl := Option.some.inj (haccepts.symm.trans hpair)
      rw [decidedBy_iff hdecider]
      have hgives : left = .bool b → Gives i m left := by
        rintro rfl
        exact gives_of_ok hrun hops (Cell.connective_decided b right)
      refine ⟨⟨fun hrefuses hleft => (hgives hleft).not_refuses hrefuses, fun hleft => ?_⟩, hgives⟩
      exact refuses_of_refused hrun hops (Cell.connective_refused hleft hbad)
  · intro m' hsome hops'
    obtain ⟨b, hdecider⟩ := Option.isSome_iff_exists.1 hsome
    rw [decidedBy_iff hdecider, decidedBy_iff hdecider]
    exact agree_iff hdecider hops hops'

/-- A machine with two operands on its stack. -/
def holding (left right : Cell) : Machine where
  pc := 0
  mp := 0
  sp := 1
  np := 4
  code := #[]
  store := ⟨default, #[left, right, .undefined, .undefined], default⟩
  files := default

theorem holding_operands (left right : Cell) : (holding left right).Operands left right := ⟨rfl, rfl⟩

theorem strict_unless_decided_false :
    Gives ⟨.and, 0, 0⟩ (holding (.bool false) .undefined) (.bool false) ∧
      Refuses ⟨.ior, 0, 0⟩ (holding (.bool false) .undefined) ∧
      Refuses ⟨.equ, 1, 0⟩ (holding (.int 1) (.real .zero)) ∧
      ¬ Agree ⟨.and, 0, 0⟩ (holding (.bool false) .undefined) (holding .undefined (.bool false)) := by
  obtain ⟨hand, hexchanged⟩ := strict_unless_decided _ ⟨.and, 0, 0⟩ _ _
    (holding_operands (.bool false) .undefined)
  have hior := (strict_unless_decided _ ⟨.ior, 0, 0⟩ _ _
    (holding_operands (.bool false) .undefined)).1 _ rfl rfl
  have hequ := (strict_unless_decided _ ⟨.equ, 1, 0⟩ _ _
    (holding_operands (.int 1) (.real .zero))).1 _ rfl rfl
  have hagree := hexchanged _ rfl (holding_operands .undefined (.bool false))
  exact ⟨(hand _ rfl rfl).2 (by decide), hior.1.2 (by decide), hequ.1.2 (by decide),
    fun h => (hagree.1 h).1 (by decide)⟩

end Machine

end PMachine
