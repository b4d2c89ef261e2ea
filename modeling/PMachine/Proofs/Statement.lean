import PMachine.Proofs.Store.Constants
import PMachine.Statement

/-!
# The instruction of a statement

A statement fixes the operation and the first operand of its instruction. The second operand may
wait for the address of a constant or for the value of a label; it is the only part that depends on
anything but the statement.

* `Statement.instruction`: the instruction, from the operands that stand for labels and the constants
  entered before.
* `Statement.assemble_constant`, `Statement.assemble_reference`, `Statement.assemble_plain`: how
  assembling comes to it.
-/

namespace PMachine

namespace Statement

/-- The label that a statement refers to. -/
def reference? : Statement → Option Nat
  | labelled _ _ n => some n
  | _ => none

/-- The constant that a statement needs a place for. -/
def constant? : Statement → Option Constant
  | integer n => if largestInline < n.toInt.natAbs then some (.integer n) else none
  | real x => some (.real x)
  | set s => some (.set s)
  | bounds lower upper => some (.bounds lower upper)
  | bytes l => some (.bytes l)
  | plain _ | labelled _ _ _ => none

/-- The operation of the instruction of a statement. -/
def op : Statement → Opcode
  | plain i => i.op
  | labelled op _ _ => op
  | integer n => if largestInline < n.toInt.natAbs then .lci else .ldc
  | real _ | set _ => .lci
  | bounds _ _ => .chk
  | bytes _ => .lca

/-- Its first operand. -/
def p : Statement → Nat
  | plain i => i.p
  | labelled _ p _ => p
  | integer _ => 1
  | real _ => 2
  | set _ => 4
  | bounds _ _ | bytes _ => 0

/-- Its second operand, from the operands that stand for labels and the constants entered before. -/
def q (l : Limits) (label : Nat → Word) (before : List Constant) (s : Statement) : Word :=
  match s.constant? with
  | some c => Address.toWord (c.address l before)
  | none => match s with
    | plain i => i.q
    | labelled _ _ n => label n
    | integer n => n
    | _ => 0

/-- The instruction of a statement. -/
def instruction (l : Limits) (label : Nat → Word) (before : List Constant) (s : Statement) :
    Instruction :=
  ⟨s.op, s.p, s.q l label before⟩

/-- An instruction depends on the operand for its own label only. -/
theorem instruction_congr {l : Limits} {f g : Nat → Word} {before : List Constant} {s : Statement}
    (h : ∀ n, s.reference? = some n → f n = g n) :
    s.instruction l f before = s.instruction l g before := by
  unfold instruction q
  cases s with
  | labelled op p n => simp only [constant?, h n rfl]
  | plain _ | integer _ | real _ | set _ | bounds _ _ | bytes _ => rfl

/-! ### Assembling -/

variable {l : Limits} {st : Statement} {t : Tables} {pc : Nat}

/-- A statement with a constant enters it and takes its address. -/
theorem assemble_constant {c : Constant} (hc : st.constant? = some c) :
    st.assemble pc t = match c.enter t.store with
      | .ok a store => .ok ⟨st.op, st.p, Address.toWord a⟩ { t with store }
      | .error f store => .error f { t with store } := by
  have key : ∀ kind pool cell, pooled kind pool cell t = match Store.intern pool cell t.store with
      | .ok a store => .ok ⟨.lci, kind, Address.toWord a⟩ { t with store }
      | .error f store => .error f { t with store } := by
    intro kind pool cell
    rw [pooled, Action.bind_apply]
    simp only [onStore, Action.zoom]
    cases Store.intern pool cell t.store <;> rfl
  cases st with
  | plain _ | labelled _ _ _ => simp [constant?] at hc
  | integer n =>
    simp only [constant?] at hc
    split at hc
    · rename_i hn
      cases hc
      simp only [assemble, if_pos hn, op, p]
      exact key ..
    · cases hc
  | real x => cases hc; exact key ..
  | set x => cases hc; exact key ..
  | bounds lower upper =>
    cases hc
    rw [assemble, Action.bind_apply]
    simp only [onStore, Action.zoom, Constant.enter]
    cases Store.internBounds lower upper t.store <;> rfl
  | bytes b =>
    cases hc
    rw [assemble, Action.bind_apply]
    simp only [onStore, Action.zoom, Constant.enter]
    cases Store.appendBytes b t.store <;> rfl

/-- A statement with a label enters a reference to it. -/
theorem assemble_reference {n : Nat} (hn : st.reference? = some n) :
    st.assemble pc t = match Labels.reference n pc t.labels with
      | .ok q labels => .ok ⟨st.op, st.p, q⟩ { t with labels }
      | .error f labels => .error f { t with labels } := by
  cases st with
  | labelled op p m =>
    cases hn
    rw [assemble, Action.bind_apply]
    simp only [onLabels, Action.zoom]
    cases Labels.reference n pc t.labels <;> rfl
  | plain _ | integer _ | real _ | set _ | bounds _ _ | bytes _ => simp [reference?] at hn

/-- Any other statement is its instruction. -/
theorem assemble_plain (hn : st.reference? = none) (hc : st.constant? = none) (label : Nat → Word)
    (before : List Constant) : st.assemble pc t = .ok (st.instruction l label before) t := by
  cases st with
  | plain i => rfl
  | labelled _ _ _ => simp [reference?] at hn
  | integer n =>
    have hs : ¬ largestInline < n.toInt.natAbs := by
      intro h; simp [constant?, h] at hc
    simp only [assemble, instruction, q, op, p, constant?, if_neg hs]
    rfl
  | real _ | set _ | bounds _ _ | bytes _ => simp [constant?] at hc

theorem constant?_of_reference? {n : Nat} (h : st.reference? = some n) : st.constant? = none := by
  cases st with
  | labelled _ _ _ => rfl
  | plain _ | integer _ | real _ | set _ | bounds _ _ | bytes _ => simp [reference?] at h

end Statement

end PMachine
