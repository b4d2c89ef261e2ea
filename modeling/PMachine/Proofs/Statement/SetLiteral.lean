import PMachine.Proofs.IntSet
import PMachine.Proofs.Lexeme
import PMachine.Proofs.Statement
import PMachine.Proofs.Statement.Mnemonic
import PMachine.Proofs.Store.Pools
import PMachine.Proofs.Syntax

/-!
# Literals of sets

A set is written as a list of integers in parentheses, with blanks and commas between them. The order of the
integers, repetitions and the choice of separators do not matter: a literal stands for the set of the words
that it lists, and sets are shared by all literals that stand for them.

* `Statement.Lists`: the text between the parentheses.
* `Statement.members_of_lists`, `Statement.lists_of_members`: the loop over it accepts what is a list, and
  nothing else.
* `Statement.members_rounds`: the rounds of the loop suffice.
* `Statement.Loads`: a text is assembled to the load of a set from a cell that holds it from then on.
* `Statement.literal_denotes`: literals, their sets and their addresses.
-/

namespace PMachine

namespace Statement

open Lexeme (isBlank Spells)
open Store (served)
open Constant (Fits)

/-! ### The text of a list -/

/-- What may stand between the integers of a literal. -/
def isSeparator (c : Char) : Bool := isBlank c || c = ','

/-- The text lists words: integers, each with as many digits as there are, and separators. -/
inductive Lists : List Char → List Word → Prop where
  | nil : Lists [] []
  | separator {c : Char} {body : List Char} {ns : List Word} (hc : isSeparator c = true)
      (h : Lists body ns) : Lists (c :: body) ns
  | integer {cs body : List Char} {n : Word} {ns : List Word} (hn : Spells cs n)
      (hend : ∀ c ∈ body.head?, c.isDigit = false) (h : Lists body ns) : Lists (cs ++ body) (n :: ns)

variable {body before text t u : LineText} {ns ns' : List Word} {n : Word} {c : Char}

theorem isDigit_of_isSeparator (h : isSeparator c = true) : c.isDigit = false := by
  simp only [isSeparator, isBlank, Bool.or_eq_true, decide_eq_true_eq] at h
  rcases h with (rfl | rfl) | rfl <;> rfl

namespace Lists

theorem separators (hbefore : ∀ c ∈ before, isSeparator c = true) (h : Lists body ns) :
    Lists (before ++ body) ns := by
  induction before with
  | nil => exact h
  | cons c before ih =>
    exact .separator (hbefore c List.mem_cons_self) (ih fun x hx => hbefore x (List.mem_cons_of_mem _ hx))

theorem blanks (hbefore : ∀ c ∈ before, isBlank c = true) (h : Lists body ns) :
    Lists (before ++ body) ns :=
  h.separators fun c hc => by rw [isSeparator, hbefore c hc, Bool.true_or]

/-- A list ends before the first closing parenthesis. -/
theorem not_mem (h : Lists body ns) : ')' ∉ body := by
  induction h with
  | nil => exact List.not_mem_nil
  | separator hc _ ih =>
    rw [List.mem_cons, not_or]
    refine ⟨?_, ih⟩
    rintro rfl
    cases hc
  | integer hn _ _ ih => exact fun hmem => (List.mem_append.1 hmem).elim hn.not_mem.2.2 ih

end Lists

/-- Words in decimal are a list, whichever separators stand around them, if there is one at least between
each two. -/
theorem lists_decimals (items : List (Word × List Char)) (hafter : ∀ x ∈ items, ∀ c ∈ x.2, isSeparator c = true)
    (hbetween : ∀ x ∈ items.dropLast, x.2 ≠ []) :
    Lists (items.flatMap fun x => Field.decimal x.1.toInt ++ x.2) (items.map Prod.fst) := by
  induction items with
  | nil => exact .nil
  | cons x items ih =>
    obtain ⟨n, after⟩ := x
    have hafter₁ := hafter _ List.mem_cons_self
    have hrest := ih (fun y hy => hafter y (List.mem_cons_of_mem _ hy)) fun y hy => by
      refine hbetween y ?_
      cases items with
      | nil => cases hy
      | cons z items => exact List.mem_cons_of_mem _ hy
    rw [List.flatMap_cons, List.append_assoc]
    refine .integer (Lexeme.spells_decimal n) ?_ (hrest.separators hafter₁)
    cases after with
    | cons c after =>
      rintro _ ⟨⟩
      exact isDigit_of_isSeparator (hafter₁ c List.mem_cons_self)
    | nil =>
      -- nothing stands behind the last one
      cases items with
      | nil => nofun
      | cons z items => exact absurd rfl (hbetween (n, []) List.mem_cons_self)

/-- The written form of a set lists its members. -/
theorem lists_intercalate (ns : List Word) :
    Lists (List.intercalate [','] (ns.map fun n => Field.decimal n.toInt)) ns := by
  induction ns with
  | nil => exact .nil
  | cons n ns ih =>
    cases ns with
    | nil =>
      rw [List.map_cons, List.map_nil, List.intercalate_singleton, ← List.append_nil (Field.decimal _)]
      exact .integer (Lexeme.spells_decimal n) nofun .nil
    | cons m ns =>
      rw [List.map_cons, List.map_cons, List.intercalate_cons_cons, List.append_assoc]
      refine .integer (Lexeme.spells_decimal n) ?_ (.separator rfl ih)
      rintro _ ⟨⟩
      rfl

/-! ### The loop -/

/-- **A list is accepted**, up to the parenthesis, which is left. -/
theorem members_of_lists (h : Lists body ns) (rest : LineText) : ∀ rounds,
    (body ++ ')' :: rest).length < rounds → members rounds (body ++ ')' :: rest) = .ok ns (')' :: rest) := by
  induction h with
  | nil =>
    intro rounds hlt
    obtain ⟨rounds, rfl⟩ := Nat.exists_eq_add_of_lt (Nat.zero_lt_of_lt hlt)
    rw [members_succ]
    rfl
  | @separator c body ns hc _ ih =>
    intro rounds hlt
    obtain ⟨rounds, rfl⟩ := Nat.exists_eq_add_of_lt (Nat.zero_lt_of_lt hlt)
    rw [List.cons_append, List.length_cons] at hlt
    rw [List.cons_append, members_succ]
    rw [isSeparator, Bool.or_eq_true, decide_eq_true_eq] at hc
    rcases hc with hblank | rfl
    · -- a blank takes no round of its own
      rw [List.dropWhile_cons_of_pos hblank, ← members_succ]
      exact ih _ (by omega)
    · exact ih _ (by omega)
  | @integer cs body n ns hn hend _ ih =>
    intro rounds hlt
    obtain ⟨rounds, rfl⟩ := Nat.exists_eq_add_of_lt (Nat.zero_lt_of_lt hlt)
    have hrest : ∀ c ∈ (body ++ ')' :: rest).head?, c.isDigit = false := by
      cases body with
      | nil =>
        rintro _ ⟨⟩
        rfl
      | cons d body => exact hend
    have hread : Lexeme.integer ([] ++ (cs ++ (body ++ ')' :: rest))) = .ok n (body ++ ')' :: rest) :=
      Lexeme.integer_of_spells nofun hn hrest
    obtain ⟨hblank, hcomma, hclose⟩ := hn.not_mem
    obtain ⟨c, cs, rfl⟩ := List.exists_cons_of_ne_nil hn.ne_nil
    rw [List.nil_append, List.cons_append] at hread
    have hc : ¬ isBlank c = true := Bool.eq_false_iff.1 (hblank c List.mem_cons_self)
    rw [List.append_assoc, List.length_append, List.length_cons] at hlt
    rw [List.append_assoc, members_succ, List.cons_append, List.dropWhile_cons_of_neg hc]
    have hclose : ¬ c = ')' := fun h => hclose (h ▸ List.mem_cons_self)
    have hcomma : ¬ c = ',' := fun h => hcomma (h ▸ List.mem_cons_self)
    simp only [if_neg hclose, if_neg hcomma]
    rw [Action.bind_of_ok hread, Action.bind_of_ok (ih _ (by omega))]
    rfl

/-- **Only a list is accepted.** -/
theorem lists_of_members (rounds : Nat) : ∀ u ns v, members rounds u = .ok ns v →
    ∃ body rest, u = body ++ ')' :: rest ∧ Lists body ns := by
  induction rounds with
  | zero => intro u ns v h; cases h
  | succ rounds ih =>
    intro u ns v h
    rw [members_succ] at h
    have hsplit : u = u.takeWhile isBlank ++ u.dropWhile isBlank := List.takeWhile_append_dropWhile.symm
    have hblanks : ∀ c ∈ u.takeWhile isBlank, isBlank c = true := fun c hc => List.mem_takeWhile_imp hc
    -- what follows the blanks is a list up to a parenthesis, and so is the whole
    suffices hdrop : ∃ body rest, u.dropWhile isBlank = body ++ ')' :: rest ∧ Lists body ns by
      obtain ⟨body, rest, heq, hlist⟩ := hdrop
      refine ⟨u.takeWhile isBlank ++ body, rest, ?_, hlist.blanks hblanks⟩
      rw [List.append_assoc, ← heq]
      exact hsplit
    cases hu : u.dropWhile isBlank with
    | nil =>
      rw [hu] at h
      cases h
    | cons c w =>
      rw [hu] at h
      simp only at h
      split at h
      · rename_i hc
        cases h
        exact ⟨[], w, by rw [hc]; rfl, .nil⟩
      split at h
      · rename_i hc
        obtain ⟨body, rest, rfl, hlist⟩ := ih w ns v h
        exact ⟨c :: body, rest, rfl, .separator (by rw [hc]; rfl) hlist⟩
      · obtain ⟨n, w', hinteger, hmore⟩ := Action.bind_eq_ok.1 h
        obtain ⟨more, w'', hmembers, hlast⟩ := Action.bind_eq_ok.1 hmore
        cases hlast
        obtain ⟨blanks, cs, heq, hbefore, hn, hend⟩ := Lexeme.spells_of_integer hinteger
        obtain ⟨body, rest, rfl, hlist⟩ := ih w' more _ hmembers
        refine ⟨blanks ++ (cs ++ body), rest, by simp [heq], .blanks hbefore (.integer hn ?_ hlist)⟩
        cases body with
        | nil => nofun
        | cons d body => exact hend

/-- **The rounds of the loop suffice**: one for each character, and one for the end. -/
theorem members_rounds : ∀ (rounds rounds' : Nat) (u : LineText), u.length < rounds → u.length < rounds' →
    members rounds u = members rounds' u := by
  intro rounds
  induction rounds with
  | zero => intro rounds' u hlt; omega
  | succ rounds ih =>
    intro rounds' u hlt hlt'
    obtain ⟨rounds', rfl⟩ := Nat.exists_eq_add_of_lt (Nat.zero_lt_of_lt hlt')
    have hle := u.length_dropWhile_le isBlank
    rw [members_succ, Nat.zero_add, members_succ]
    cases hu : u.dropWhile isBlank with
    | nil => rfl
    | cons c v =>
      rw [hu, List.length_cons] at hle
      have hcomma := ih rounds' v (by omega) (by omega)
      simp only [hcomma]
      congr 2
      -- an integer takes at least one character
      rw [Action.bind_apply, Action.bind_apply]
      cases hinteger : Lexeme.integer (c :: v) with
      | error f w => rfl
      | ok n w =>
        have hshort := Lexeme.integer_shortens hinteger
        rw [List.length_cons] at hshort
        simp only [Action.bind_apply, ih rounds' w (by omega) (by omega)]

/-! ### Literals -/

/-- The text of an instruction is the load of a literal that lists words. What follows the closing
parenthesis is ignored. -/
def Literal (text : LineText) (ns : List Word) : Prop :=
  ∃ t body rest, Lexeme.name text = .ok "LDC" t ∧
    Lexeme.nonBlank t = .ok (some '(') (body ++ ')' :: rest) ∧ Lists body ns

/-- A literal is read as the set of the words that it lists. -/
theorem Literal.parse (h : Literal text ns) : parse text = .ok (.set (.ofList ns)) := by
  obtain ⟨t, body, rest, hname, hopen, hlist⟩ := h
  refine parse_of_operands hname ofMnemonic?_ldc (u := ')' :: rest) ?_
  exact (Action.bind_of_ok hopen).trans
    (Action.bind_of_ok (members_of_lists hlist rest _ (Nat.lt_succ_self _)))

/-- The text of the load, after its mnemonic. -/
theorem literal_of_lists (hbefore : ∀ c ∈ before, isBlank c = true) (h : Lists body ns) (rest : LineText) :
    Literal ("LDC".toList ++ (before ++ '(' :: (body ++ ')' :: rest))) ns := by
  refine ⟨_, body, rest, Lexeme.name_append (by decide) _, ?_, h⟩
  have hskip : Lexeme.skipBlanks (before ++ '(' :: (body ++ ')' :: rest)) =
      .ok ⟨⟩ ('(' :: (body ++ ')' :: rest)) := by
    rw [Lexeme.skipBlanks, Action.modify_apply, List.dropWhile_append_of_pos hbefore]
    rfl
  rw [Lexeme.nonBlank, Action.bind_of_ok hskip]
  rfl

/-- The written form of a set is a literal that lists its members. -/
theorem literal_text (hbefore : ∀ c ∈ before, isBlank c = true) (s : IntSet) (rest : LineText) :
    Literal ("LDC".toList ++ (before ++ ((Cell.set s).text.toList ++ rest))) s.elements := by
  have hdecimal : ∀ n : Word, (toString n.toInt).toList = Field.decimal n.toInt := fun n =>
    (Field.decimal_eq n.toInt).symm
  have htext : (Cell.set s).text.toList =
      '(' :: (List.intercalate [','] (s.elements.map fun n => Field.decimal n.toInt) ++ [')']) := by
    rw [Cell.text, IntSet.text, String.toList_append, String.toList_append, String.toList_intercalate,
      List.map_map]
    simp only [Function.comp_def, hdecimal]
    rfl
  rw [htext, List.cons_append, List.append_assoc]
  exact literal_of_lists hbefore (lists_intercalate s.elements) rest

/-- Any other text in parentheses is refused for its form. -/
theorem parse_malformed (hname : Lexeme.name text = .ok "LDC" t) (hopen : Lexeme.nonBlank t = .ok (some '(') u)
    (h : ¬ (')' ∈ u ∧ ∃ ns, Lists (u.takeWhile (· ≠ ')')) ns)) :
    ∃ f, f.kind = .parse ∧ parse text = .error f := by
  cases hrun : members (u.length + 1) u with
  | ok ns v =>
    obtain ⟨body, rest, rfl, hlist⟩ := lists_of_members _ u ns v hrun
    have hbody : ∀ c ∈ body, decide (c ≠ ')') = true := fun c hc => by
      rw [decide_eq_true_eq]
      rintro rfl
      exact hlist.not_mem hc
    refine absurd ⟨by simp, ns, ?_⟩ h
    rwa [List.takeWhile_append_of_pos hbody, List.takeWhile_cons_of_neg (by simp), List.append_nil]
  | error f v =>
    refine ⟨f, members_malformed _ u (Nat.lt_succ_self _) f v hrun, ?_⟩
    have hoperands : operands .ldc t = .error f v :=
      (Action.bind_of_ok hopen).trans
        ((Action.bind_of_ok (Action.get_apply u)).trans (Action.bind_of_error hrun))
    rw [parse_of_name hname ofMnemonic?_ldc, Action.outcome, hoperands]

/-! ### Sets in the store -/

variable {l : Limits} {rs : List (Store.Request l)} {s s' : IntSet} {a a' : Nat}

/-- After the requests `rs` to a new store, the text is assembled to the load of the set `s` from the cell
`a`, wherever it stands and whatever the labels are. The cell holds the set from then on. -/
structure Loads (rs : List (Store.Request l)) (text : LineText) (s : IntSet) (a : Nat) : Prop where
  assembled : ∀ pc labels, assembleText text pc ⟨(served rs).1, labels⟩ =
    .ok ⟨.lci, 4, Address.toWord a⟩ ⟨(served (rs ++ [.enter (.set s)])).1, labels⟩
  held : ∀ more, (served (rs ++ .enter (.set s) :: more)).1.read a = .ok (.set s)

/-- A set with a place is accepted, whatever comes after it. -/
theorem served_set (hf : Fits l (served rs).2 (.set s)) (more : List (Store.Request l)) :
    ∃ later, (served (rs ++ .enter (.set s) :: more)).2 = (served rs).2 ++ [.set s] ++ later := by
  obtain ⟨later, hlater⟩ := Store.foldl_serve_accepted more (Store.serve (served rs) (.enter (.set s)))
  refine ⟨later, ?_⟩
  rw [Store.served_append, List.foldl_cons, hlater, Store.serve_enter_ok (Store.served_holds rs) hf]

/-- A text that is read as a set loads it from the place that the set has in its pool. -/
theorem loads_of_parse (h : parse text = .ok (.set s)) (hf : Fits l (served rs).2 (.set s)) :
    Loads rs text s (Constant.address l (served rs).2 (.set s)) where
  assembled pc labels := by
    obtain ⟨store, henter, -, -⟩ := (Store.served_holds rs).enter_ok hf
    have hserved : (served (rs ++ [.enter (.set s)])).1 = store := by
      rw [Store.served_append, List.foldl_cons, List.foldl_nil, Store.serve, henter]
    rw [assembleText, h, Action.bind_of_ok (Action.lift_ok _ _), assemble_constant rfl, henter, hserved]
    rfl
  held more := by
    obtain ⟨later, hlater⟩ := served_set hf more
    have hholds := Store.served_holds (rs ++ .enter (.set s) :: more)
    rw [hlater] at hholds
    exact hholds.read_eq Nat.one_pos

/-- Cells that are loaded one after the other are the same if their sets are. -/
theorem Loads.eq_of_eq {more : List (Store.Request l)} (h : Loads rs text s a)
    (h' : Loads (rs ++ .enter (.set s) :: more) t s' a) : s' = s := by
  have hfirst := h.held (more ++ [.enter (.set s')])
  have hsecond := h'.held []
  rw [List.append_assoc, List.cons_append, hfirst] at hsecond
  injection hsecond with hcell
  injection hcell with hset
  exact hset.symm

/-- **A literal denotes its set.** After any requests to a store:
* words in decimal between parentheses, in any order and with any repetitions, each two of them apart by
  blanks and commas, are a literal that lists them;
* a literal is assembled to the load of exactly the set of the words that it lists, if this set has a place;
  and a later literal is assembled to the load from the same cell if and only if it lists the same words;
* the written form of a set is a literal of this set;
* the loop over a literal ends, and unless the text up to the first closing parenthesis is a list, it is
  refused for its form and no table changes. -/
theorem literal_denotes (rs : List (Store.Request l)) :
    (∀ blanks before (items : List (Word × List Char)) rest, (∀ c ∈ blanks, isBlank c = true) →
      (∀ c ∈ before, isSeparator c = true) → (∀ x ∈ items, ∀ c ∈ x.2, isSeparator c = true) →
      (∀ x ∈ items.dropLast, x.2 ≠ []) →
      Literal ("LDC".toList ++ (blanks ++ '(' :: (before ++
        (items.flatMap fun x => (toString x.1.toInt).toList ++ x.2) ++ ')' :: rest)))
        (items.map Prod.fst)) ∧
    (∀ text ns, Literal text ns → Fits l (served rs).2 (.set (.ofList ns)) →
      ∃ s a, (∀ n, n ∈ s ↔ n ∈ ns) ∧ Loads rs text s a ∧
        ∀ more text' ns', Literal text' ns' →
          Fits l (served (rs ++ .enter (.set s) :: more)).2 (.set (.ofList ns')) →
          ∃ s' a', (∀ n, n ∈ s' ↔ n ∈ ns') ∧ Loads (rs ++ .enter (.set s) :: more) text' s' a' ∧
            (a' = a ↔ ∀ n, n ∈ ns' ↔ n ∈ ns)) ∧
    (∀ s blanks rest, (∀ c ∈ blanks, isBlank c = true) → Fits l (served rs).2 (.set s) →
      ∃ a, Loads rs ("LDC".toList ++ (blanks ++ ((Cell.set s).text.toList ++ rest))) s a) ∧
    ∀ text t u, Lexeme.name text = .ok "LDC" t → Lexeme.nonBlank t = .ok (some '(') u →
      (∀ rounds, u.length < rounds → members rounds u = members (u.length + 1) u) ∧
      ((')' ∈ u ∧ ∃ ns, Lists (u.takeWhile (· ≠ ')')) ns) ∨
        ∃ f, f.kind = .parse ∧ ∀ pc tables, assembleText text pc tables = .error f tables) := by
  refine ⟨?_, ?_, ?_, ?_⟩
  · intro blanks before items rest hblanks hbefore hafter hbetween
    have hdecimal : (fun x : Word × List Char => (toString x.1.toInt).toList ++ x.2) =
        fun x => Field.decimal x.1.toInt ++ x.2 := funext fun x => by rw [Field.decimal_eq]
    rw [hdecimal]
    exact literal_of_lists hblanks ((lists_decimals items hafter hbetween).separators hbefore) rest
  · intro text ns hliteral hf
    refine ⟨_, _, fun n => IntSet.mem_ofList, loads_of_parse hliteral.parse hf, ?_⟩
    intro more text' ns' hliteral' hf'
    have hloads := loads_of_parse hliteral.parse hf
    have hloads' := loads_of_parse hliteral'.parse hf'
    refine ⟨_, _, fun n => IntSet.mem_ofList, hloads', fun heq => ?_, fun hsame => ?_⟩
    · rw [heq] at hloads'
      have hsets := hloads.eq_of_eq hloads'
      intro n
      rw [← IntSet.mem_ofList, hsets, IntSet.mem_ofList]
    · have hsets : IntSet.ofList ns' = IntSet.ofList ns := IntSet.eq_ofList fun n => by
        rw [IntSet.mem_ofList, hsame]
      obtain ⟨later, hlater⟩ := served_set hf more
      rw [hsets, hlater]
      exact Constant.address_append (by simp [Constant.pool]) l (served rs).2 later
  · intro s blanks rest hblanks hf
    have hset : IntSet.ofList s.elements = s := (IntSet.eq_ofList fun _ => IntSet.mem_iff).symm
    have hparse := (literal_text hblanks s rest).parse
    rw [hset] at hparse
    exact ⟨_, loads_of_parse hparse hf⟩
  · intro text t u hname hopen
    refine ⟨fun rounds hlt => members_rounds rounds _ u hlt (Nat.lt_succ_self _), ?_⟩
    by_cases hlist : ')' ∈ u ∧ ∃ ns, Lists (u.takeWhile (· ≠ ')')) ns
    · exact Or.inl hlist
    · obtain ⟨f, hkind, hparse⟩ := parse_malformed hname hopen hlist
      refine Or.inr ⟨f, hkind, fun pc tables => ?_⟩
      rw [assembleText, hparse, Action.bind_of_error (Action.lift_error f tables)]

/-- Limits with room for one set. -/
def oneSet : Limits := { stackSize := 0, pools := { set := 1 }, codeSize := 8, maxLabel := 0 }

theorem literal_denotes_reordered : ∃ s a,
    Loads ([] : List (Store.Request oneSet)) "LDC (3,-1 3)".toList s a ∧
      Loads ([.enter (.set s)] : List (Store.Request oneSet)) "LDC( -1\t,3,)".toList s a := by
  obtain ⟨hwritten, hdenotes, -, -⟩ := literal_denotes ([] : List (Store.Request oneSet))
  have hfirst : Literal "LDC (3,-1 3)".toList [3, -1, 3] := by
    convert hwritten [' '] [] [(3, [',']), (-1, [' ']), (3, [])] [] (by simp [isBlank]) (by simp)
      (by simp [isSeparator, isBlank]) (by simp) using 1
    · decide +kernel
    · rfl
  have hsecond : Literal "LDC( -1\t,3,)".toList [-1, 3] := by
    convert hwritten [] [' '] [(-1, ['\t', ',']), (3, [','])] [] (by simp) (by simp [isSeparator, isBlank])
      (by simp [isSeparator, isBlank]) (by simp) using 1
    · decide +kernel
    · rfl
  obtain ⟨s, a, hs, hloads, hlater⟩ := hdenotes _ _ hfirst (by decide +kernel)
  obtain rfl := IntSet.eq_ofList hs
  obtain ⟨s', a', hs', hloads', hsame⟩ := hlater [] _ _ hsecond (by decide +kernel)
  have hmembers : ∀ m k n : Word, n ∈ [m, k] ↔ n ∈ [k, m, k] := by
    intro m k n
    simp only [List.mem_cons, List.not_mem_nil, or_false]
    exact ⟨fun h => h.elim (fun hm => Or.inr (Or.inl hm)) Or.inl, fun h => h.elim Or.inr id⟩
  obtain rfl : a' = a := hsame.2 (hmembers _ _)
  obtain rfl : s' = IntSet.ofList [3, -1, 3] := IntSet.eq_ofList fun n => (hs' n).trans (hmembers _ _ n)
  exact ⟨_, a', hloads, hloads'⟩

end Statement

end PMachine
