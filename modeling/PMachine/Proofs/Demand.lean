import PMachine.Proofs.Statement.Mnemonic
import PMachine.Proofs.Statement.SetLiteral

/-!
# What the line of a constant demands

Three mnemonics name a constant: a value to load, character data to load the address of, or the bounds
of a check. What such a line demands is a matter of its characters alone: how the line is scanned and how
its statement is assembled does not come into it, but for the reading of reals.

* `Lexeme.Leads`: the first character that is no blank.
* `Statement.Names`: what a line demands.
* `Statement.Names.parse`, `Statement.names_of_parse`: it is what its statement demands, and every line
  that is read names something.
-/

namespace PMachine

namespace Lexeme

variable {text rest cs : LineText} {signs : List Char} {c : Char} {v : Int}

/-- The first character of a text that is no blank, and what follows it. -/
def Leads (c : Char) (text rest : LineText) : Prop :=
  ∃ blanks : LineText, (∀ b ∈ blanks, isBlank b = true) ∧ isBlank c = false ∧ text = blanks ++ c :: rest

theorem leads_blank (hc : isBlank c = false) (rest : LineText) : Leads c (' ' :: c :: rest) rest :=
  ⟨[' '], by simp [isBlank], hc, rfl⟩

/-- Where a text without its blanks begins is where a character leads it. -/
theorem dropWhile_eq_cons_iff : text.dropWhile isBlank = c :: rest ↔ Leads c text rest := by
  constructor
  · intro h
    have hnot := List.head?_dropWhile_not isBlank text
    rw [h] at hnot
    refine ⟨text.takeWhile isBlank, fun b hb => List.mem_takeWhile_imp hb, by simpa using hnot, ?_⟩
    rw [← h, List.takeWhile_append_dropWhile]
  · rintro ⟨blanks, hblanks, hc, rfl⟩
    rw [List.dropWhile_append_of_pos hblanks, List.dropWhile_cons_of_neg (Bool.eq_false_iff.1 hc)]

/-- The first character that is no blank is read as the one that leads the text. -/
theorem nonBlank_eq_ok_iff : nonBlank text = .ok (some c) rest ↔ Leads c text rest := by
  have hrun : nonBlank text = .ok (text.dropWhile isBlank).head? (text.dropWhile isBlank).tail := rfl
  rw [hrun, ← dropWhile_eq_cons_iff]
  cases text.dropWhile isBlank with
  | nil => simp
  | cons d more => simp

/-- Blanks before an integer do not count. -/
theorem begins_dropWhile_iff (hsigns : ∀ c ∈ signs, Numeral.isSign c = true) :
    Begins signs (text.dropWhile isBlank) v rest ↔ Begins signs text v rest := by
  have hskip : skipBlanks (text.dropWhile isBlank) = skipBlanks text := by
    rw [skipBlanks, Action.modify_apply, Action.modify_apply, List.dropWhile_idempotent]
  rw [← number_eq_ok_iff hsigns, ← number_eq_ok_iff hsigns, number, Action.bind_apply, hskip,
    ← Action.bind_apply]

/-- A digit is no letter. -/
theorem isAlpha_eq_false_of_isDigit (h : c.isDigit = true) : c.isAlpha = false := by
  have hzero : '0'.toNat = 48 := rfl
  have hnine : '9'.toNat = 57 := rfl
  have hupper : 'A'.toNat = 65 ∧ 'Z'.toNat = 90 := ⟨rfl, rfl⟩
  have hlower : 'a'.toNat = 97 ∧ 'z'.toNat = 122 := ⟨rfl, rfl⟩
  simp only [Char.isDigit, Char.isAlpha, Char.isUpper, Char.isLower, Bool.and_eq_true, decide_eq_true_eq,
    Bool.or_eq_false_iff, Bool.and_eq_false_iff, decide_eq_false_iff_not, ge_iff_le, UInt32.le_iff_toNat_le,
    Char.toNat_val] at h ⊢
  omega

/-- An integer begins with no letter. -/
theorem Begins.not_isAlpha (hsigns : ∀ c ∈ signs, Numeral.isSign c = true) (h : Begins signs text v rest)
    (hc : Leads c text cs) : c.isAlpha = false := by
  obtain @⟨blanks, ds, _, sign, hblanks, hsign, hne, hds, -⟩ := h
  have hhead : ∀ x ∈ (sign.toList ++ (ds ++ rest)).head?, Numeral.isSign x = true ∨ x.isDigit = true :=
    Cursor.head?_append_of_all (fun x hx => Or.inl (hsigns x (hsign x (Option.mem_toList.1 hx)))) <| by
      rw [List.head?_append_of_ne_nil _ hne]
      exact fun x hx => Or.inr (hds x (List.mem_of_mem_head? hx))
  -- what stands there is no blank, so that it is the first character
  have hskip : skipBlanks (blanks ++ (sign.toList ++ (ds ++ rest))) = .ok ⟨⟩ (sign.toList ++ (ds ++ rest)) :=
    skipBlanks_append hblanks fun x hx =>
      Numeral.Starts.isBlank_eq_false ((hhead x hx).imp_right Or.inl)
  rw [← dropWhile_eq_cons_iff] at hc
  rw [skipBlanks, Action.modify_apply, hc] at hskip
  injection hskip with _ heq
  rcases hhead c (by rw [← heq]; rfl) with hc | hc
  · simp only [Numeral.isSign, Bool.or_eq_true, decide_eq_true_eq] at hc
    rcases hc with rfl | rfl <;> rfl
  · exact isAlpha_eq_false_of_isDigit hc

end Lexeme

namespace Statement

open Lexeme (Leads Begins)

/-- What the line of a constant demands of the machine. -/
inductive Demand where
  /-- A value on the stack. -/
  | value (c : Cell)
  /-- The pointer to nothing on the stack. -/
  | nil
  /-- The address of these bytes on the stack. -/
  | bytes (l : List UInt8)
  /-- A check of the integer on top. -/
  | bounds (lower upper : Word)

/-- The text of an instruction names a constant: a mnemonic, then its operands. What follows them is
ignored. A set has the listed integers and no others, character data are what stands before the next
quote, and a letter may stand before bounds. -/
inductive Names : LineText → Demand → Prop where
  | integer {text t u v : LineText} {k : Char} {n : Word} (hname : Lexeme.name text = .ok "LDC" t)
      (hkind : Leads k t u) (hk : k = 'I' ∨ k = 'i') (hn : Begins ['+', '-'] u n.toInt v) :
      Names text (.value (.int n))
  | real {text t u v : LineText} {k : Char} {x : Binary64} (hname : Lexeme.name text = .ok "LDC" t)
      (hkind : Leads k t u) (hk : k = 'R' ∨ k = 'r') (hx : Lexeme.real u = .ok x v) :
      Names text (.value (.real x))
  | truth {text t u v : LineText} {k : Char} {n : Word} (hname : Lexeme.name text = .ok "LDC" t)
      (hkind : Leads k t u) (hk : k = 'B' ∨ k = 'b') (hn : Begins ['+', '-'] u n.toInt v) :
      Names text (.value (.bool (n = 1)))
  | nil {text t u : LineText} {k : Char} (hname : Lexeme.name text = .ok "LDC" t)
      (hkind : Leads k t u) (hk : k = 'N' ∨ k = 'n') : Names text .nil
  | set {text t body v : LineText} {l : List Word} {s : IntSet} (hname : Lexeme.name text = .ok "LDC" t)
      (hkind : Leads '(' t (body ++ ')' :: v)) (hl : Lists body l) (hs : ∀ n, n ∈ s ↔ n ∈ l) :
      Names text (.value (.set s))
  | bytes {text t v : LineText} {s : List Char} (hname : Lexeme.name text = .ok "LCA" t)
      (hquote : Leads '\'' t (s ++ '\'' :: v)) (hs : '\'' ∉ s) :
      Names text (.bytes (s.flatMap String.utf8EncodeChar))
  | bounds {text t u v w : LineText} {lower upper : Word} (hname : Lexeme.name text = .ok "CHK" t)
      (hkind : u = t ∨ ∃ k : Char, k.isAlpha = true ∧ Leads k t u)
      (hlower : Begins ['+', '-'] u lower.toInt v) (hupper : Begins ['+', '-'] v upper.toInt w) :
      Names text (.bounds lower upper)

/-- What an instruction with its constant inside demands. -/
def inline? : Instruction → Option Demand
  | ⟨.ldc, 3, n⟩ => some (.value (.bool (n = 1)))
  | ⟨.ldc, 0, _⟩ => some .nil
  | _ => none

/-- What a statement demands, if it is that of a constant. -/
def demand? : Statement → Option Demand
  | integer n => some (.value (.int n))
  | real x => some (.value (.real x))
  | set s => some (.value (.set s))
  | bounds lower upper => some (.bounds lower upper)
  | bytes l => some (.bytes l)
  | plain i => inline? i
  | labelled _ _ _ => none

/-! ### Reading a line -/

variable {text t : LineText} {st : Statement} {d : Demand}

/-- The bounds of a check stand behind a letter, which may be missing. -/
theorem operands_chk {c : Option Char} {u : LineText} (hc : Lexeme.peekNonBlank t = .ok c u) :
    operands .chk t = (do
      let lower ← Lexeme.integer
      let upper ← Lexeme.integer
      return bounds lower upper : Action LineText Statement)
        (if c.any Char.isAlpha then u.tail else u) := by
  rw [operands, Action.bind_of_ok hc]
  cases c.any Char.isAlpha <;> rfl

/-- Character data stands behind a quote, and a line without one is refused. -/
theorem operands_lca {c : Option Char} {u : LineText} (hc : Lexeme.nonBlank t = .ok c u) :
    operands .lca t = if c = some '\'' then (do
      let text ← Lexeme.upTo '\''
      return bytes (text.flatMap String.utf8EncodeChar) : Action LineText Statement) u
      else .error .quoteExpected u := by
  rw [operands, Action.bind_of_ok hc]
  by_cases hq : c = some '\''
  · rw [if_pos hq, if_neg (not_not.2 hq)]
  · rw [if_neg hq, if_pos hq]
    rfl

/-- The bounds of a check are read as the two integers that stand there. -/
theorem operands_bounds {u v w : LineText} {lower upper : Word}
    (hkind : u = t ∨ ∃ k : Char, k.isAlpha = true ∧ Leads k t u)
    (hlower : Begins ['+', '-'] u lower.toInt v) (hupper : Begins ['+', '-'] v upper.toInt w) :
    operands .chk t = .ok (.bounds lower upper) w := by
  have hrun : ∀ u', Begins ['+', '-'] u' lower.toInt v → (do
      let lower ← Lexeme.integer
      let upper ← Lexeme.integer
      return bounds lower upper : Action LineText Statement) u' = .ok (.bounds lower upper) w := by
    intro u' hlower
    rw [Action.bind_of_ok (Lexeme.integer_eq_ok_iff.2 hlower),
      Action.bind_of_ok (Lexeme.integer_eq_ok_iff.2 hupper), Action.pure_apply]
  rw [operands_chk (c := (t.dropWhile Lexeme.isBlank).head?) (u := t.dropWhile Lexeme.isBlank) rfl]
  rcases hkind with rfl | ⟨k, hk, hleads⟩
  · have hnone : (u.dropWhile Lexeme.isBlank).head?.any Char.isAlpha = false := by
      cases hdrop : u.dropWhile Lexeme.isBlank with
      | nil => rfl
      | cons c rest => exact hlower.not_isAlpha Lexeme.isSign_of_mem (Lexeme.dropWhile_eq_cons_iff.1 hdrop)
    rw [hnone]
    exact hrun _ ((Lexeme.begins_dropWhile_iff Lexeme.isSign_of_mem).2 hlower)
  · rw [Lexeme.dropWhile_eq_cons_iff.2 hleads, List.head?_cons, Option.any_some, if_pos hk]
    exact hrun u hlower

/-- The operands of a check that are read are its bounds. -/
theorem names_of_bounds {u v w : LineText} {lower upper : Word} (hname : Lexeme.name text = .ok "CHK" t)
    (hu : u = t.dropWhile Lexeme.isBlank)
    (hlower : Begins ['+', '-'] (if u.head?.any Char.isAlpha then u.tail else u) lower.toInt v)
    (hupper : Begins ['+', '-'] v upper.toInt w) : Names text (.bounds lower upper) := by
  cases hdrop : u with
  | nil =>
    rw [hdrop] at hlower
    refine .bounds hname (Or.inl rfl) ?_ hupper
    rw [← Lexeme.begins_dropWhile_iff Lexeme.isSign_of_mem, ← hu, hdrop]
    exact hlower
  | cons c rest =>
    rw [hdrop, List.head?_cons, Option.any_some] at hlower
    split at hlower
    · rename_i hc
      exact .bounds hname (Or.inr ⟨c, hc, Lexeme.dropWhile_eq_cons_iff.1 (hu ▸ hdrop)⟩) hlower hupper
    · refine .bounds hname (Or.inl rfl) ?_ hupper
      rw [← Lexeme.begins_dropWhile_iff Lexeme.isSign_of_mem, ← hu, hdrop]
      exact hlower

/-- A line that names a constant is read as a statement that demands it. -/
theorem Names.parse (h : Names text d) : ∃ st, parse text = .ok st ∧ st.demand? = some d := by
  cases h with
  | @integer t u v k n hname hkind hk hn =>
    refine ⟨.integer n, parse_of_operands (u := v) hname ofMnemonic?_ldc ?_, rfl⟩
    have hkind := Lexeme.nonBlank_eq_ok_iff.2 hkind
    have hn := Lexeme.integer_eq_ok_iff.2 hn
    rcases hk with rfl | rfl <;> exact (Action.bind_of_ok hkind).trans (Action.bind_of_ok hn)
  | @real t u v k x hname hkind hk hx =>
    refine ⟨.real x, parse_of_operands (u := v) hname ofMnemonic?_ldc ?_, rfl⟩
    have hkind := Lexeme.nonBlank_eq_ok_iff.2 hkind
    rcases hk with rfl | rfl <;> exact (Action.bind_of_ok hkind).trans (Action.bind_of_ok hx)
  | @truth t u v k n hname hkind hk hn =>
    refine ⟨.plain ⟨.ldc, 3, n⟩, parse_of_operands (u := v) hname ofMnemonic?_ldc ?_, rfl⟩
    have hkind := Lexeme.nonBlank_eq_ok_iff.2 hkind
    have hn := Lexeme.integer_eq_ok_iff.2 hn
    rcases hk with rfl | rfl <;> exact (Action.bind_of_ok hkind).trans (Action.bind_of_ok hn)
  | @nil t u k hname hkind hk =>
    refine ⟨.plain ⟨.ldc, 0, 0⟩, parse_of_operands (u := u) hname ofMnemonic?_ldc ?_, rfl⟩
    have hkind := Lexeme.nonBlank_eq_ok_iff.2 hkind
    rcases hk with rfl | rfl <;> exact Action.bind_of_ok hkind
  | @set t body v l s hname hkind hl hs =>
    refine ⟨.set s, ?_, rfl⟩
    rw [IntSet.eq_ofList hs]
    exact Literal.parse ⟨t, body, v, hname, Lexeme.nonBlank_eq_ok_iff.2 hkind, hl⟩
  | @bytes t v s hname hquote hs =>
    refine ⟨.bytes _, parse_of_operands (u := v) hname ofMnemonic?_lca ?_, rfl⟩
    rw [operands_lca (Lexeme.nonBlank_eq_ok_iff.2 hquote), if_pos rfl]
    exact Action.bind_of_ok (Lexeme.upTo_eq_ok_iff.2 ⟨hs, rfl⟩)
  | @bounds t u v w lower upper hname hkind hlower hupper =>
    exact ⟨.bounds lower upper,
      parse_of_operands hname ofMnemonic?_chk (operands_bounds hkind hlower hupper), rfl⟩

/-- A line with one of the three mnemonics that is read at all names a constant. -/
theorem names_of_parse {name : String} (hname : Lexeme.name text = .ok name t)
    (hn : name ∈ ["LDC", "LCA", "CHK"]) (h : parse text = .ok st) :
    ∃ d, Names text d ∧ st.demand? = some d := by
  simp only [List.mem_cons, List.not_mem_nil, or_false] at hn
  rcases hn with rfl | rfl | rfl
  · rw [parse_of_name hname ofMnemonic?_ldc] at h
    obtain ⟨v, hrun⟩ := Action.outcome_eq_ok.1 h
    have hconstant : constant t = .ok st v := hrun
    obtain ⟨k, u, hfirst, hrun⟩ := Action.bind_eq_ok.1 hconstant
    have hkind : ∀ c, k = some c → Leads c t u := fun c hc => Lexeme.nonBlank_eq_ok_iff.1 (hc ▸ hfirst)
    split at hrun
    · obtain ⟨n, w, hn, hlast⟩ := Action.bind_eq_ok.1 hrun
      cases hlast
      exact ⟨_, .integer hname (hkind _ rfl) (Or.inl rfl) (Lexeme.integer_eq_ok_iff.1 hn), rfl⟩
    · obtain ⟨n, w, hn, hlast⟩ := Action.bind_eq_ok.1 hrun
      cases hlast
      exact ⟨_, .integer hname (hkind _ rfl) (Or.inr rfl) (Lexeme.integer_eq_ok_iff.1 hn), rfl⟩
    · obtain ⟨x, w, hx, hlast⟩ := Action.bind_eq_ok.1 hrun
      cases hlast
      exact ⟨_, .real hname (hkind _ rfl) (Or.inl rfl) hx, rfl⟩
    · obtain ⟨x, w, hx, hlast⟩ := Action.bind_eq_ok.1 hrun
      cases hlast
      exact ⟨_, .real hname (hkind _ rfl) (Or.inr rfl) hx, rfl⟩
    · cases hrun
      exact ⟨_, .nil hname (hkind _ rfl) (Or.inl rfl), rfl⟩
    · cases hrun
      exact ⟨_, .nil hname (hkind _ rfl) (Or.inr rfl), rfl⟩
    · obtain ⟨n, w, hn, hlast⟩ := Action.bind_eq_ok.1 hrun
      cases hlast
      exact ⟨_, .truth hname (hkind _ rfl) (Or.inl rfl) (Lexeme.integer_eq_ok_iff.1 hn), rfl⟩
    · obtain ⟨n, w, hn, hlast⟩ := Action.bind_eq_ok.1 hrun
      cases hlast
      exact ⟨_, .truth hname (hkind _ rfl) (Or.inr rfl) (Lexeme.integer_eq_ok_iff.1 hn), rfl⟩
    · rw [Action.bind_of_ok (Action.get_apply u)] at hrun
      obtain ⟨l, w, hl, hlast⟩ := Action.bind_eq_ok.1 hrun
      cases hlast
      obtain ⟨body, rest, rfl, hlist⟩ := lists_of_members _ u l v hl
      exact ⟨_, .set hname (hkind _ rfl) hlist fun _ => IntSet.mem_ofList, rfl⟩
    · cases hrun
  · rw [parse_of_name hname ofMnemonic?_lca] at h
    obtain ⟨v, hrun⟩ := Action.outcome_eq_ok.1 h
    obtain ⟨c, u, hc, -⟩ := Action.bind_eq_ok.1 hrun
    rw [operands_lca hc] at hrun
    split at hrun
    · rename_i hq
      obtain ⟨s, w, hs, hlast⟩ := Action.bind_eq_ok.1 hrun
      cases hlast
      obtain ⟨hquote, rfl⟩ := Lexeme.upTo_eq_ok_iff.1 hs
      exact ⟨_, .bytes hname (Lexeme.nonBlank_eq_ok_iff.1 (hq ▸ hc)) hquote, rfl⟩
    · cases hrun
  · rw [parse_of_name hname ofMnemonic?_chk] at h
    obtain ⟨v, hrun⟩ := Action.outcome_eq_ok.1 h
    rw [operands_chk (c := (t.dropWhile Lexeme.isBlank).head?) (u := t.dropWhile Lexeme.isBlank) rfl] at hrun
    obtain ⟨lower, w, hlower, hrun⟩ := Action.bind_eq_ok.1 hrun
    obtain ⟨upper, x, hupper, hlast⟩ := Action.bind_eq_ok.1 hrun
    cases hlast
    exact ⟨_, names_of_bounds hname rfl (Lexeme.integer_eq_ok_iff.1 hlower)
      (Lexeme.integer_eq_ok_iff.1 hupper), rfl⟩

end Statement

end PMachine
