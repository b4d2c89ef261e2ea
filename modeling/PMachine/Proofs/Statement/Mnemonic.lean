import PMachine.Proofs.Action
import PMachine.Statement

/-!
# Lines by their mnemonics

The mnemonic of a line decides which operands are read after it. No two operations share one, and only the
load from a pool, which the assembler makes of a load itself, cannot be named.

* `Opcode.ofMnemonic?_mnemonic`: an operation is found by its mnemonic.
* `Statement.parse_of_name`: a line with a mnemonic is read as the operands of its operation.
-/

namespace PMachine

namespace Lexeme

/-- An unsigned integer is below `2 ^ 64`. -/
theorem unsigned_lt {t u : LineText} {n : Nat} (h : unsigned t = .ok n u) : n < 0x10000000000000000 := by
  obtain ⟨_, _, _, h⟩ := Action.bind_eq_ok.1 h
  obtain ⟨k, v, _, h⟩ := Action.bind_eq_ok.1 h
  by_cases hk : k < 0x10000000000000000
  · rw [if_pos hk] at h
    cases h
    exact hk
  · rw [if_neg hk] at h
    cases h

end Lexeme

namespace Opcode

/-- No two operations have one mnemonic. -/
theorem ofMnemonic?_mnemonic {op : Opcode} (h : op ≠ .lci) : ofMnemonic? op.mnemonic = some op := by
  have hall : ∀ op ∈ all, op ≠ .lci → ofMnemonic? op.mnemonic = some op := by decide +kernel
  exact hall op (by cases op <;> decide) h

end Opcode

namespace Statement

variable {text t : LineText} {st : Statement}

/-- A line with the mnemonic of an operation is read as the operands of this operation. -/
theorem parse_of_name {name : String} {op : Opcode} (hname : Lexeme.name text = .ok name t)
    (hop : Opcode.ofMnemonic? name = some op) : parse text = (operands op).outcome t := by
  have hread : read text = operands op t := by
    rw [read, Action.bind_of_ok hname, hop]
    rfl
  rw [parse, Action.outcome, hread, Action.outcome]

theorem parse_of_operands {name : String} {op : Opcode} {u : LineText}
    (hname : Lexeme.name text = .ok name t) (hop : Opcode.ofMnemonic? name = some op)
    (h : operands op t = .ok st u) : parse text = .ok st := by
  rw [parse_of_name hname hop, Action.outcome, h]

theorem ofMnemonic?_ldc : Opcode.ofMnemonic? "LDC" = some .ldc := @Opcode.ofMnemonic?_mnemonic .ldc nofun

theorem ofMnemonic?_lca : Opcode.ofMnemonic? "LCA" = some .lca := @Opcode.ofMnemonic?_mnemonic .lca nofun

theorem ofMnemonic?_chk : Opcode.ofMnemonic? "CHK" = some .chk := @Opcode.ofMnemonic?_mnemonic .chk nofun

end Statement

end PMachine
