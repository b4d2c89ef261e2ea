import PMachine.Cell.Operator
import PMachine.Cell.Relation
import PMachine.Proofs.Machine.Scope

/-!
# Expressions

Expressions over integers, truth values and variables, as a compiler has them before it writes their
code. The value of an expression is computed on cells: from the leaves up, the left operand before the
right one, and up to the first fault. It depends on the variables and on the static links that lead to
them, and on no other cell.

* `Expression.value`: the value in a store, from a frame.
* `Expression.nodes`: the subexpressions in postfix order, each after its operands.
* `Expression.FailsFirst`: the first of them that has no value.
* `Expression.cells`: the cells that the value depends on.
* `Expression.Encodes`: which instructions do the work of a node.
-/

namespace PMachine

/-- The operators on one operand. -/
inductive UnaryOperator where
  | negate
  | absolute
  | square
  | odd
  | not
deriving DecidableEq, Repr

namespace UnaryOperator

/-- The operation of the machine. -/
def opcode : UnaryOperator → Opcode
  | negate => .ngi
  | absolute => .abi
  | square => .sqi
  | odd => .odd
  | not => .not

/-- What it computes. -/
def apply : UnaryOperator → Cell → Except Fault Cell
  | negate => Cell.negInt
  | absolute => Cell.absInt
  | square => Cell.squareInt
  | odd => Cell.odd
  | not => Cell.not

end UnaryOperator

/-- The operators on two operands. -/
inductive BinaryOperator where
  | add
  | subtract
  | multiply
  | divide
  | modulo
  | and
  | or
  | compare (r : Relation)
deriving DecidableEq, Repr

/-- The operation of the machine that compares. -/
def Relation.opcode : Relation → Opcode
  | equal => .equ
  | notEqual => .neq
  | greaterEqual => .geq
  | greater => .grt
  | lessEqual => .leq
  | less => .les

namespace BinaryOperator

/-- The operation of the machine. -/
def opcode : BinaryOperator → Opcode
  | add => .adi
  | subtract => .sbi
  | multiply => .mpi
  | divide => .dvi
  | modulo => .mod
  | and => .and
  | or => .ior
  | compare r => r.opcode

/-- What it computes. -/
def apply : BinaryOperator → Cell → Cell → Except Fault Cell
  | add => Cell.addInt
  | subtract => Cell.subInt
  | multiply => Cell.mulInt
  | divide => Cell.divInt
  | modulo => Cell.modInt
  | and => Cell.and
  | or => Cell.or
  | compare r => fun c d => (Cell.relates r c d).map .bool

end BinaryOperator

/-- An expression. -/
inductive Expression where
  | integer (n : Word)
  | truth (b : Bool)
  /-- The variable at an address. -/
  | globalVariable (q : Word)
  /-- The variable at an offset in the frame a number of static links away. -/
  | localVariable (levels : Nat) (q : Word)
  | unary (o : UnaryOperator) (e : Expression)
  | binary (o : BinaryOperator) (left right : Expression)
deriving DecidableEq, Repr

namespace Store

/-- The value of the variable at an offset from a base. -/
def variableValue (s : Store) (base : Nat) (q : Word) : Except Fault Cell :=
  match Address.offset? base q.toInt with
  | some a => do
    let c ← s.read a
    c.defined
  | none => .error .addressOutOfStore

/-- The value of a variable depends on no cell but its own. -/
theorem variableValue_congr {s s' : Store} {base : Nat} {q : Word}
    (h : ∀ a ∈ Address.offset? base q.toInt, s'.cells[a]? = s.cells[a]?) :
    s'.variableValue base q = s.variableValue base q := by
  unfold variableValue
  cases ha : Address.offset? base q.toInt with
  | none => rfl
  | some a =>
    have hread : s'.read a = s.read a := by
      unfold read
      rw [h a (Option.mem_def.2 ha)]
    simp only [hread]

end Store

namespace Expression

/-- The value of an expression in a store, with the variables of a frame. -/
def value (s : Store) (frame : Nat) : Expression → Except Fault Cell
  | integer n => .ok (.int n)
  | truth b => .ok (.bool b)
  | globalVariable q => s.variableValue 0 q
  | localVariable levels q => do
    let a ← s.linked levels frame
    s.variableValue a q
  | unary o e => do
    let c ← e.value s frame
    o.apply c
  | binary o left right => do
    let c ← left.value s frame
    let d ← right.value s frame
    o.apply c d

/-- The subexpressions in postfix order. -/
def nodes : Expression → List Expression
  | unary o e => e.nodes ++ [unary o e]
  | binary o left right => left.nodes ++ right.nodes ++ [binary o left right]
  | e => [e]

/-- The number of nodes. -/
def size : Expression → Nat
  | unary _ e => e.size + 1
  | binary _ left right => left.size + right.size + 1
  | _ => 1

/-- The number of cells that the stack grows by at most, while the value is computed. -/
def depth : Expression → Nat
  | unary _ e => e.depth
  | binary _ left right => max left.depth (right.depth + 1)
  | _ => 1

/-- The cells of the variables, and of the static links that lead to them. -/
def cells (s : Store) (frame : Nat) : Expression → List Nat
  | integer _ | truth _ => []
  | globalVariable q => (Address.offset? 0 q.toInt).toList
  | localVariable levels q =>
    s.linkCells levels frame ++ match s.linked levels frame with
      | .ok a => (Address.offset? a q.toInt).toList
      | .error _ => []
  | unary _ e => e.cells s frame
  | binary _ left right => left.cells s frame ++ right.cells s frame

/-- The node at a place in postfix order has no value for the given reason, and all nodes before it
have one. -/
def FailsFirst (s : Store) (frame : Nat) (e : Expression) (i : Nat) (f : Fault) : Prop :=
  ∃ before d after, e.nodes = before ++ d :: after ∧ before.length = i ∧
    d.value s frame = .error f ∧ ∀ b ∈ before, ∃ c, b.value s frame = .ok c

/-- Whether an instruction of a program does the work of a node. An integer stands in its instruction
or in the pool, above the stack; comparisons are those of integers. -/
def Encodes (l : Limits) (p : Program) : Expression → Instruction → Prop
  | integer n, i => i = ⟨.ldc, 1, n⟩ ∨
      ∃ kind a, i = ⟨.lci, kind, Address.toWord a⟩ ∧ l.stackSize < a ∧ p.store.cells[a]? = some (.int n)
  | truth b, i => i.op = .ldc ∧ i.p = 3 ∧ decide (i.q = 1) = b
  | globalVariable q, i => i.op = .ldo ∧ i.q = q
  | localVariable levels q, i => i = ⟨.lod, levels, q⟩
  | unary o _, i => i.op = o.opcode
  | binary o _ _, i => i.op = o.opcode ∧ ∀ r, o = .compare r → Instruction.comparands[i.p]? = some 'I'

/-- The code of an expression, in postfix order, stands at consecutive addresses from `a` on. -/
def StandsAt (l : Limits) (p : Program) (e : Expression) (a : Nat) : Prop :=
  ∀ j d, e.nodes[j]? = some d → ∃ i, p.code[a + j]? = some i ∧ d.Encodes l p i

/-! ### Nodes -/

variable {l : Limits} {p : Program} {s s' : Store} {frame a : Nat} {c d : Cell} {f : Fault}
  {e left right : Expression}

/-- An expression has as many nodes as its size says. -/
theorem length_nodes : ∀ e : Expression, e.nodes.length = e.size := by
  intro e
  induction e with
  | integer _ | truth _ | globalVariable _ | localVariable _ _ => rfl
  | unary o e ih => simp only [nodes, size, List.length_append, List.length_singleton, ih]
  | binary o left right ihleft ihright =>
    simp only [nodes, size, List.length_append, List.length_singleton, ihleft, ihright]

/-- Every expression needs a cell of the stack. -/
theorem depth_pos : ∀ e : Expression, 0 < e.depth := by
  intro e
  induction e with
  | integer _ | truth _ | globalVariable _ | localVariable _ _ => exact Nat.one_pos
  | unary o e ih => exact ih
  | binary o left right ihleft _ =>
    unfold depth
    omega

/-- The first node to fail, in a longer list of nodes behind others that do not. -/
theorem FailsFirst.append {i : Nat} (h : left.FailsFirst s frame i f) (before after : List Expression)
    (hnodes : e.nodes = before ++ left.nodes ++ after)
    (hbefore : ∀ b ∈ before, ∃ c, b.value s frame = .ok c) :
    e.FailsFirst s frame (before.length + i) f := by
  obtain ⟨between, d, rest, hsplit, rfl, hd, hall⟩ := h
  refine ⟨before ++ between, d, rest ++ after, ?_, List.length_append, hd, fun b hb => ?_⟩
  · rw [hnodes, hsplit]
    simp only [List.append_assoc, List.cons_append]
  · rcases List.mem_append.1 hb with hb | hb
    · exact hbefore b hb
    · exact hall b hb

/-- An expression whose operands have values fails at its last node, or not at all. -/
theorem failsFirst_last (before : List Expression) (hnodes : e.nodes = before ++ [e])
    (hbefore : ∀ b ∈ before, ∃ c, b.value s frame = .ok c) (h : e.value s frame = .error f) :
    e.FailsFirst s frame before.length f :=
  ⟨before, e, [], hnodes, rfl, h, hbefore⟩

/-! ### Code -/

/-- Where the code of an expression stands, the code of each part stands at its place. -/
theorem StandsAt.part (h : e.StandsAt l p a) (before after : List Expression)
    (hnodes : e.nodes = before ++ left.nodes ++ after) : left.StandsAt l p (a + before.length) := by
  intro j d hd
  have hj : j < left.nodes.length := (List.getElem?_eq_some_iff.1 hd).1
  have hin : e.nodes[before.length + j]? = some d := by
    rw [hnodes, List.append_assoc, List.getElem?_append_right (by omega),
      List.getElem?_append_left (by omega), Nat.add_sub_cancel_left, hd]
  obtain ⟨i, hi, hencodes⟩ := h _ d hin
  exact ⟨i, by rw [Nat.add_assoc]; exact hi, hencodes⟩

/-- The last instruction is that of the expression itself. -/
theorem StandsAt.last (h : e.StandsAt l p a) (before : List Expression)
    (hnodes : e.nodes = before ++ [e]) : ∃ i, p.code[a + before.length]? = some i ∧ e.Encodes l p i := by
  refine h before.length e ?_
  rw [hnodes, List.getElem?_append_right (Nat.le_refl _), Nat.sub_self]
  rfl

/-! ### Values -/

/-- A variable is found through the static links of the frame. -/
theorem value_localVariable (levels : Nat) (q : Word) : (localVariable levels q).value s frame = (do
    let a ← s.linked levels frame
    s.variableValue a q) := rfl

theorem value_unary (o : UnaryOperator) : (unary o e).value s frame = (do
    let c ← e.value s frame
    o.apply c) := rfl

theorem value_binary (o : BinaryOperator) : (binary o left right).value s frame = (do
    let c ← left.value s frame
    let d ← right.value s frame
    o.apply c d) := rfl

theorem value_unary_of_ok {o : UnaryOperator} (h : e.value s frame = .ok c) :
    (unary o e).value s frame = o.apply c := by
  rw [value_unary, h]
  rfl

/-- A node with an operand that fails fails as the operand does. -/
theorem value_unary_of_error {o : UnaryOperator} (h : e.value s frame = .error f) :
    (unary o e).value s frame = .error f := by
  rw [value_unary, h]
  rfl

section

variable {o : BinaryOperator}

/-- A left operand that fails decides, whatever stands on the right. -/
theorem value_binary_of_error (h : left.value s frame = .error f) :
    (binary o left right).value s frame = .error f := by
  rw [value_binary, h]
  rfl

/-- A right operand that fails decides if the left one has a value. -/
theorem value_binary_of_right (h : left.value s frame = .ok c) (hright : right.value s frame = .error f) :
    (binary o left right).value s frame = .error f := by
  rw [value_binary, h, hright]
  rfl

theorem value_binary_of_ok (h : left.value s frame = .ok c) (hright : right.value s frame = .ok d) :
    (binary o left right).value s frame = o.apply c d := by
  rw [value_binary, h, hright]
  rfl

end

/-- An expression with a value has a value at every node. -/
theorem value_of_mem_nodes : ∀ {e : Expression} {c : Cell}, e.value s frame = .ok c →
    ∀ d ∈ e.nodes, ∃ c', d.value s frame = .ok c' := by
  intro e
  induction e with
  | integer _ | truth _ | globalVariable _ | localVariable _ _ =>
    intro c h d hd
    rw [List.mem_singleton.1 hd]
    exact ⟨c, h⟩
  | unary o e ih =>
    intro c h d hd
    rcases List.mem_append.1 hd with hd | hd
    · cases hv : e.value s frame with
      | ok c' => exact ih hv d hd
      | error f =>
        rw [value_unary_of_error hv] at h
        cases h
    · rw [List.mem_singleton.1 hd]
      exact ⟨c, h⟩
  | binary o left right ihleft ihright =>
    intro c h d hd
    cases hv : left.value s frame with
    | error f =>
      rw [value_binary_of_error hv] at h
      cases h
    | ok c' =>
      cases hw : right.value s frame with
      | error f =>
        rw [value_binary_of_right hv hw] at h
        cases h
      | ok d' =>
        rcases List.mem_append.1 hd with hd | hd
        · rcases List.mem_append.1 hd with hd | hd
          · exact ihleft hv d hd
          · exact ihright hw d hd
        · rw [List.mem_singleton.1 hd]
          exact ⟨c, h⟩

/-- The value of a variable depends on the links to its frame and on its own cell only. -/
theorem value_localVariable_congr {levels : Nat} {q : Word}
    (h : ∀ a ∈ (localVariable levels q).cells s frame, s'.cells[a]? = s.cells[a]?) :
    (localVariable levels q).value s' frame = (localVariable levels q).value s frame := by
  have hlinked := (Store.linked_congr fun a ha => h a (List.mem_append_left _ ha)).1
  rw [value_localVariable, value_localVariable, hlinked]
  cases hl : s.linked levels frame with
  | error f => rfl
  | ok b =>
    refine Store.variableValue_congr fun a ha => h a ?_
    rw [cells, hl]
    exact List.mem_append_right _ (Option.mem_toList.2 ha)

end Expression

end PMachine
