import PMachine.Proofs.Statement
import PMachine.Proofs.Store.Growth

/-!
# Assembling all or nothing

To assemble the text of an instruction is to read it first, which changes nothing, and then to make at most
one entry: a reference in the table of labels, or a constant in a pool. An entry that is refused is not
made. So a text that is refused leaves no trace, and one that is accepted changes no more than its mnemonic
allows.

* `Opcode.referring`, `Opcode.pools`: the mnemonics with labels, and the pools of those with constants.
* `Statement.Suits`: a statement makes only entries that an operation allows.
* `Labels.AgreeBut`: label tables that agree but for one label.
* `Statement.assembleText_atomic`: what assembling a text changes.
-/

namespace PMachine

namespace Opcode

/-- The operations whose operand is a label. -/
def referring : List Opcode := [.cup, .ent, .ujp, .fjp, .xjp]

/-- The pools to which the operand of an operation may go. -/
def pools : Opcode → List Pool
  | .ldc => [.integer, .real, .set]
  | .chk => [.boundary]
  | .lca => [.multiple]
  | _ => []

end Opcode

/-! ### References -/

namespace Labels

/-- Two label tables of one size agree but for what they know of one label. -/
structure AgreeBut (n : Nat) (ls ls' : Labels) : Prop where
  size : ls'.entries.size = ls.entries.size
  others : ∀ k, k ≠ n → ls'.get? k = ls.get? k

variable {n site : Nat} {ls ls' : Labels}

theorem agreeBut_set (ls : Labels) (n : Nat) (x : Label) : ls.AgreeBut n (ls.set n x) :=
  ⟨Array.size_setIfInBounds, fun _ hk => Array.getElem?_setIfInBounds_ne (Ne.symm hk)⟩

/-- A reference is an entry for its label, or none. -/
theorem reference_ok {q : Word} (h : reference n site ls = .ok q ls') :
    ls' = ls ∨ ls.AgreeBut n ls' := by
  unfold reference at h
  split at h
  · cases h
  · cases h
    exact Or.inl rfl
  · cases h
    exact Or.inr (agreeBut_set ls n _)

/-- A reference that is refused is not entered. -/
theorem reference_error {f : Fault} (h : reference n site ls = .error f ls') : ls' = ls := by
  unfold reference at h
  split at h
  · cases h
    rfl
  · cases h
  · cases h

/-- A label of the table can be referred to. -/
theorem reference_total (h : (ls.get? n).isSome) (site : Nat) :
    ∃ q ls', reference n site ls = .ok q ls' := by
  unfold reference
  split
  · rename_i hnone
    rw [hnone] at h
    cases h
  · exact ⟨_, _, rfl⟩
  · exact ⟨_, _, rfl⟩

end Labels

namespace Statement

open PMachine.Action (Returns)

/-! ### Entries of a statement -/

/-- A statement makes only entries that an operation allows. -/
structure Suits (op : Opcode) (st : Statement) : Prop where
  label : ∀ n, st.reference? = some n → op ∈ Opcode.referring
  pool : ∀ c, st.constant? = some c → c.pool ∈ op.pools

theorem suits_plain (op : Opcode) (i : Instruction) : Suits op (plain i) where
  label n h := by cases h
  pool c h := by cases h

theorem suits_labelled {op : Opcode} (hop : op ∈ Opcode.referring) (p n : Nat) :
    Suits op (labelled op p n) where
  label _ _ := hop
  pool c h := by cases h

theorem suits_integer (n : Word) : Suits .ldc (integer n) where
  label k h := by cases h
  pool c h := by
    have hmem : Pool.integer ∈ Opcode.ldc.pools := List.mem_cons_self
    simp only [constant?] at h
    split at h
    · cases h
      exact hmem
    · cases h

theorem suits_constant {op : Opcode} {st : Statement} {c : Constant} {p : Pool}
    (href : st.reference? = none) (hc : st.constant? = some c) (hp : c.pool = p)
    (hpool : p ∈ op.pools) : Suits op st where
  label n h := by
    rw [href] at h
    cases h
  pool d h := by
    rw [hc] at h
    cases h
    rw [hp]
    exact hpool

theorem constant_suits : Returns (Suits .ldc) constant := by
  refine .bind fun c => ?_
  split
  case h_3 | h_4 =>
    exact .bind fun x => .pure (suits_constant (c := .real x) (p := .real) rfl rfl rfl (by decide))
  case h_9 =>
    exact .bind fun text => .bind fun l =>
      .pure (suits_constant (c := .set (.ofList l)) (p := .set) rfl rfl rfl (by decide))
  case h_10 => exact .throw _
  all_goals first
    | exact .bind fun n => .pure (suits_integer n)
    | exact .bind fun n => .pure (suits_plain _ _)
    | exact .pure (suits_plain _ _)

/-- The operands of an operation ask for no entry that it does not allow. -/
theorem operands_suits (op : Opcode) : Returns (Suits op) (operands op) := by
  cases op with
  | equ | neq | geq | grt | leq | les =>
    refine .bind fun p => ?_
    split
    · exact .bind fun q => .pure (suits_plain _ _)
    · exact .pure (suits_plain _ _)
  | lod | str | lda => exact .bind fun p => .bind fun q => .pure (suits_plain _ _)
  | cup => exact .bind fun p => .bind fun l => .pure (suits_labelled (by decide) p l)
  | mst | ret | ldo | sro | lao | ind | inc | ixa | mov | dec => exact .bind fun _ => .pure (suits_plain _ _)
  | ent | ujp | fjp | xjp => exact .bind fun l => .pure (suits_labelled (by decide) 0 l)
  | csp => exact .bind fun name => .bind fun f => .pure (suits_plain _ _)
  | ldc => exact constant_suits
  | chk =>
    have hbounds : Returns (Suits .chk) (do
        let lower ← Lexeme.integer
        let upper ← Lexeme.integer
        return bounds lower upper) :=
      .bind fun lower => .bind fun upper =>
        .pure (suits_constant (c := .bounds lower upper) (p := .boundary) rfl rfl rfl (by decide))
    refine .bind fun c => ?_
    split
    · exact .bind fun _ => hbounds
    · exact hbounds
  | lca =>
    have hbytes : Returns (Suits .lca) (do
        let text ← Lexeme.upTo '\''
        return bytes (text.flatMap String.utf8EncodeChar)) :=
      .bind fun text =>
        .pure (suits_constant (c := .bytes _) (p := .multiple) rfl rfl rfl (by decide))
    refine .bind fun c => ?_
    split
    · exact .bind fun _ => hbytes
    · exact hbytes
  | _ => exact .pure (suits_plain _ _)

variable {text : LineText} {st : Statement} {pc : Nat} {t t' : Tables} {i : Instruction} {f : Fault}

/-- A text that is read starts with a mnemonic, and its statement suits the operation. -/
theorem suits_of_parse (h : parse text = .ok st) : ∃ name rest op,
    Lexeme.name text = .ok name rest ∧ Opcode.ofMnemonic? name = some op ∧ Suits op st := by
  obtain ⟨u, hread⟩ := Action.outcome_eq_ok.1 h
  obtain ⟨name, rest, hname, hrest⟩ := Action.bind_eq_ok.1 hread
  obtain ⟨op, rest', hop, hoperands⟩ := Action.bind_eq_ok.1 hrest
  obtain ⟨hmnemonic, rfl⟩ := Action.orFault_eq_ok.1 hop
  exact ⟨name, rest, op, hname, hmnemonic, operands_suits op _ _ _ hoperands⟩

/-! ### Assembling -/

/-- A statement that is refused is not entered anywhere. -/
theorem assemble_error (h : st.assemble pc t = .error f t') : t' = t := by
  cases href : st.reference? with
  | some n =>
    rw [assemble_reference href] at h
    split at h
    · cases h
    · rename_i hrun
      cases h
      rw [Labels.reference_error hrun]
  | none =>
    cases hc : st.constant? with
    | some c =>
      rw [assemble_constant hc] at h
      split at h
      · cases h
      · rename_i hrun
        cases h
        rw [Store.enter_error hrun]
    | none =>
      rw [assemble_plain (l := default) href hc (fun _ => 0) []] at h
      cases h

/-- A statement that is accepted makes at most the entry that it asks for. -/
theorem assemble_ok (h : st.assemble pc t = .ok i t') :
    (t'.labels = t.labels ∨ ∃ n, st.reference? = some n ∧ t.labels.AgreeBut n t'.labels) ∧
    (t'.store = t.store ∨ ∃ c, st.constant? = some c ∧ t.store.Grows c.pool t'.store) := by
  cases href : st.reference? with
  | some n =>
    rw [assemble_reference href] at h
    split at h
    · rename_i hrun
      cases h
      exact ⟨(Labels.reference_ok hrun).imp id fun hbut => ⟨n, rfl, hbut⟩, Or.inl rfl⟩
    · cases h
  | none =>
    cases hc : st.constant? with
    | some c =>
      rw [assemble_constant hc] at h
      split at h
      · rename_i hrun
        cases h
        refine ⟨Or.inl rfl, (Store.enter_ok hrun).imp id ?_⟩
        rintro ⟨b, happend⟩
        exact ⟨c, rfl, Store.append_grows happend⟩
      · cases h
    | none =>
      rw [assemble_plain (l := default) href hc (fun _ => 0) []] at h
      cases h
      exact ⟨Or.inl rfl, Or.inl rfl⟩

/-- A statement whose entry has a place is accepted. -/
theorem assemble_total (hlabel : ∀ n, st.reference? = some n → (t.labels.get? n).isSome)
    (hroom : ∀ c, st.constant? = some c → c.cells.length ≤ t.store.room c.pool) :
    ∃ i t', st.assemble pc t = .ok i t' := by
  cases href : st.reference? with
  | some n =>
    obtain ⟨q, ls, hrun⟩ := Labels.reference_total (hlabel n href) pc
    rw [assemble_reference href, hrun]
    exact ⟨_, _, rfl⟩
  | none =>
    cases hc : st.constant? with
    | some c =>
      obtain ⟨a, s, hrun⟩ := Store.enter_total (hroom c hc)
      rw [assemble_constant hc, hrun]
      exact ⟨_, _, rfl⟩
    | none =>
      rw [assemble_plain (l := default) href hc (fun _ => 0) []]
      exact ⟨_, _, rfl⟩

/-- **Assembling is all or nothing.** A text that is refused leaves the store and the labels as they were.
One that is accepted changes what is known of one label at most, and only if its mnemonic is one with a
label; and it changes the store only by adding cells to one pool, which is one of its mnemonic. A text
that can be read is accepted if its label is in the table and its pool has room. -/
theorem assembleText_atomic (text : LineText) (pc : Nat) (t : Tables) :
    (∀ f t', assembleText text pc t = .error f t' → t' = t) ∧
    (∀ i t', assembleText text pc t = .ok i t' → ∃ name rest op,
      Lexeme.name text = .ok name rest ∧ Opcode.ofMnemonic? name = some op ∧
      (t'.labels = t.labels ∨ op ∈ Opcode.referring ∧ ∃ n, t.labels.AgreeBut n t'.labels) ∧
      (t'.store = t.store ∨ ∃ p ∈ op.pools, t.store.Grows p t'.store)) ∧
    ∀ st, parse text = .ok st → (∀ n, st.reference? = some n → (t.labels.get? n).isSome) →
      (∀ c, st.constant? = some c → c.cells.length ≤ t.store.room c.pool) →
      ∃ i t', assembleText text pc t = .ok i t' := by
  cases hparse : parse text with
  | error f =>
    have hrun : assembleText text pc t = .error f t := by
      rw [assembleText, hparse, Action.bind_of_error (Action.lift_error f t)]
    rw [hrun]
    refine ⟨fun g t' h => ?_, fun i t' h => ?_, fun st h => ?_⟩
    · cases h
      rfl
    · cases h
    · cases h
  | ok st =>
    have hrun : assembleText text pc t = st.assemble pc t := by
      rw [assembleText, hparse, Action.bind_of_ok (Action.lift_ok st t)]
    obtain ⟨name, rest, op, hname, hop, hsuits⟩ := suits_of_parse hparse
    rw [hrun]
    refine ⟨fun f t' h => assemble_error h, fun i t' h => ?_, fun st' h => ?_⟩
    · obtain ⟨hlabels, hstore⟩ := assemble_ok h
      refine ⟨name, rest, op, hname, hop, hlabels.imp id ?_, hstore.imp id ?_⟩
      · rintro ⟨n, hn, hbut⟩
        exact ⟨hsuits.label n hn, n, hbut⟩
      · rintro ⟨c, hc, hgrows⟩
        exact ⟨c.pool, hsuits.pool c hc, hgrows⟩
    · cases h
      exact assemble_total

/-- Tables with one label and no room in the pools but for one integer. -/
def narrow : Tables where
  store := .new { stackSize := 0, pools := { integer := 1 }, codeSize := 8, maxLabel := 0 }
  labels := .new 0

theorem assembleText_atomic_narrow :
    (∃ f t', assembleText "CHK 1 2".toList 3 narrow = .error f t' ∧ t' = narrow) ∧
    ∃ i t', assembleText "LDC I 600000".toList 3 narrow = .ok i t' ∧
      (t'.store = narrow.store ∨ ∃ p, narrow.store.Grows p t'.store) := by
  have hfull : (assembleText "CHK 1 2".toList 3).outcome narrow = .error (.tableFull "BOUNDARY") := by
    decide +kernel
  obtain ⟨t', hrefused⟩ := Action.outcome_eq_error.1 hfull
  have hparse : parse "LDC I 600000".toList = .ok (.integer 600000) := by decide +kernel
  obtain ⟨i, t'', haccepted⟩ := (assembleText_atomic _ 3 narrow).2.2 _ hparse (fun n h => by cases h)
    (fun c h => by cases h; decide)
  obtain ⟨-, -, op, -, -, -, hstore⟩ := (assembleText_atomic _ 3 narrow).2.1 _ _ haccepted
  refine ⟨⟨_, t', hrefused, (assembleText_atomic _ 3 narrow).1 _ _ hrefused⟩, i, t'', haccepted,
    hstore.imp id ?_⟩
  rintro ⟨p, -, hgrows⟩
  exact ⟨p, hgrows⟩

end Statement

end PMachine
