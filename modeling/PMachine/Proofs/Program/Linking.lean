import PMachine.Proofs.Label
import PMachine.Proofs.Program.Reference
import PMachine.Proofs.Store.Pools

/-!
# Code under construction

The loader looks at each line once. While it does, the code, the label table and the store are
determined by the lines read so far: an operand for a label is the value of the label if it is
declared by then, and else the link to the reference before it.

* `Assembly.Follows`: a program under construction is what the lines read so far make it.
* `Assembly.Follows.chained`: the references to a label that is not declared form a chain.
* `Assembly.Follows.declare`: a declaration resolves exactly the references to its label.
* `Assembly.Follows.assemble`: an instruction goes to its address.
-/

namespace PMachine

namespace Entry

/-- The operand for a label in a reference after the lines `before`, once the lines `seen` are read:
the value of the label, or else the link to the reference before. -/
def operand (seen before : List Entry) (label : Nat) : Word :=
  match labelValue? seen label with
  | some v => Address.toWord v
  | none => Linking.chainOperand (references before label).reverse

/-- What is known of a label once some lines are read. -/
def labelState (es : List Entry) (label : Nat) : Label :=
  match labelValue? es label with
  | some v => .declared v
  | none => .pending (references es label).reverse.head?

end Entry

namespace Assembly

open Entry

/-- A program under construction is what the lines read so far make it. -/
structure Follows (l : Limits) (es : List Entry) (s : Assembly) : Prop where
  store : s.store.Holds l (constants es)
  labels : ∀ n, s.labels.get? n = if n ≤ l.maxLabel then some (labelState es n) else none
  code : ∀ before e after st, es = before ++ e :: after → e.statement? = some st →
    s.code[e.address]? = some (st.instruction l (operand es before) (constants before))
  rest : ∀ a, a ∉ addresses es → s.code[a]? = if a < Program.mainStart then some default else none
  pc_le : s.pc ≤ s.code.size

variable {l : Limits} {es : List Entry} {s : Assembly} {e : Entry}

/-- At the start nothing was assembled. -/
theorem follows_new (l : Limits) : Follows l [] (new l) := by
  refine ⟨Store.holds_new l, ?_, ?_, ?_, Nat.zero_le _⟩
  · intro n; exact Labels.get?_new l.maxLabel n
  · intro before e after st h; simp at h
  · intro a _
    simp only [new, Array.getElem?_replicate]

namespace Follows

/-- The references to a label form a chain, as long as it is not declared. -/
theorem chained (h : Follows l es s) (hsmall : ∀ a ∈ addresses es, a < 0x8000000000000000) {n : Nat}
    (hn : labelValue? es n = none) : Linking.Chained s.code (references es n).reverse := by
  -- the chain grows line by line, with the code of all lines in place
  have key : ∀ before after, es = before ++ after →
      Linking.Chained s.code (references before n).reverse := by
    intro before
    induction before using List.reverseRecOn with
    | nil => intro _ _; trivial
    | append_singleton before e ih =>
      intro after hes
      rw [List.append_assoc, List.singleton_append] at hes
      rw [references_append]
      by_cases he : e.refersTo n = true
      · rw [if_pos he, List.reverse_append, List.reverse_singleton, List.singleton_append]
        have hin : e.address ∈ addresses es := by
          rw [hes, addresses, List.filter_append, List.filter_cons,
            if_pos (isInstruction_of_refersTo he)]
          simp
        refine ⟨?_, hsmall _ hin, ih _ hes⟩
        unfold refersTo at he
        simp only [decide_eq_true_eq, Option.bind_eq_some_iff] at he
        obtain ⟨st, hst, href⟩ := he
        refine ⟨_, h.code before e after st hes hst, ?_⟩
        cases st with
        | labelled op p m =>
          simp only [Statement.reference?, Option.some.injEq] at href
          subst href
          simp only [Statement.instruction, Statement.q, Statement.constant?, operand, hn]
        | plain _ | integer _ | real _ | set _ | bounds _ _ | bytes _ =>
          simp [Statement.reference?] at href
      · rw [if_neg he, List.append_nil]
        exact ih _ hes
  exact key es [] (List.append_nil es).symm

/-- A line that says nothing new: a comment, or a label that has its value already. -/
theorem skip (h : Follows l es s) (hi : e.isInstruction = false) (hst : e.statement? = none)
    (hc : e.content?.bind (·.constant?) = none)
    (hval : ∀ n, labelValue? (es ++ [e]) n = labelValue? es n) {s' : Assembly}
    (hstore : s'.store = s.store) (hlabels : s'.labels = s.labels) (hcode : s'.code = s.code)
    (hpc : s'.pc = s.pc) : Follows l (es ++ [e]) s' := by
  have hcon : constants (es ++ [e]) = constants es := by rw [constants_append, hc]; simp
  have href : ∀ n, references (es ++ [e]) n = references es n := by
    intro n
    rw [references_append, refersTo, hst]
    simp
  refine ⟨?_, ?_, ?_, ?_, ?_⟩
  · rw [hcon, hstore]; exact h.store
  · intro n
    rw [hlabels, h.labels n, labelState, labelState, hval, href]
  · intro before x after st hes hx
    rcases split_append hes with ⟨-, rfl, -⟩ | ⟨rest, -, hes'⟩
    · rw [hst] at hx; simp at hx
    · rw [hcode, h.code before x rest st hes' hx]
      unfold operand
      simp only [hval]
  · intro a ha
    rw [addresses_append, hi] at ha
    rw [hcode]
    exact h.rest a (by simpa using ha)
  · rw [hpc, hcode]; exact h.pc_le

/-- The first declaration of a label, once the references to it are resolved. -/
theorem resolve (h : Follows l es s) (hd : (addresses es).Nodup) {n : Nat} {value : Option Nat}
    (he : e.content? = some (.declaration n value)) (hn : labelValue? es n = none)
    (hmax : n ≤ l.maxLabel) {s' : Assembly} (hstore : s'.store = s.store) (hpc : s'.pc = s.pc)
    (hlabels : s'.labels = s.labels.set n (.declared (value.getD e.address)))
    (hsize : s'.code.size = s.code.size)
    (hcode : ∀ a, s'.code[a]? = if a ∈ references es n then
      s.code[a]?.map ({ · with q := Address.toWord (value.getD e.address) }) else s.code[a]?) :
    Follows l (es ++ [e]) s' := by
  have hst : e.statement? = none := by rw [statement?, he]
  have hi : e.isInstruction = false := isInstruction_eq he
  have hdecl : ∀ m, e.declared? m = if n = m then some (value.getD e.address) else none := by
    intro m; rw [declared?, he]
  have hcon : constants (es ++ [e]) = constants es := by
    rw [constants_append, he]; simp [Line.constant?]
  have href : ∀ m, references (es ++ [e]) m = references es m := by
    intro m; rw [references_append, refersTo, hst]; simp
  refine ⟨?_, ?_, ?_, ?_, ?_⟩
  · rw [hcon, hstore]; exact h.store
  · intro m
    have hold : s.labels.get? n = some (labelState es n) := by rw [h.labels, if_pos hmax]
    rw [hlabels, Labels.get?_set hold]
    by_cases hm : m = n
    · subst hm
      rw [if_pos rfl, if_pos hmax, labelState, labelValue?_append, hn, hdecl, if_pos rfl]
      rfl
    · rw [if_neg hm, h.labels, labelState, labelState, labelValue?_append, hdecl,
        if_neg (Ne.symm hm), Option.or_none, href]
  · intro before x after st hes hx
    rcases split_append hes with ⟨-, rfl, -⟩ | ⟨rest, -, hes'⟩
    · rw [hst] at hx; simp at hx
    have hxmem : x ∈ es := by rw [hes']; simp
    have hxi := isInstruction_of_statement? hx
    rw [hcode, h.code before x rest st hes' hx]
    -- the operands for this label get its value, and all others stay as they are
    by_cases hr : x.refersTo n = true
    · have hin : x.address ∈ references es n :=
        List.mem_map_of_mem (List.mem_filter.2 ⟨hxmem, hr⟩)
      rw [if_pos hin, Option.map_some]
      rw [refersTo, hx] at hr
      cases st with
      | labelled op p m =>
        have hm : m = n := by simpa [Statement.reference?] using hr
        subst hm
        simp only [Statement.instruction, Statement.q, Statement.constant?, Statement.op, Statement.p,
          operand, labelValue?_append, hn, hdecl, if_true, Option.none_or]
      | plain _ | integer _ | real _ | set _ | bounds _ _ | bytes _ =>
        simp [Statement.reference?] at hr
    · have hout : x.address ∉ references es n := fun hin =>
        hr (refersTo_of_mem_references hd hxmem hxi hin)
      rw [if_neg hout, Statement.instruction_congr]
      intro m hm
      have hmn : n ≠ m := by
        rintro rfl
        exact hr (by rw [refersTo, hx]; simpa using hm)
      simp only [operand, labelValue?_append, hdecl, if_neg hmn, Option.or_none]
  · intro a ha
    rw [addresses_append, hi] at ha
    have ha : a ∉ addresses es := by simpa using ha
    rw [hcode, if_neg fun hin => ha (mem_addresses_of_mem_references hin)]
    exact h.rest a ha
  · rw [hpc, hsize]; exact h.pc_le

end Follows

/-- A declaration, once its line is read. -/
def declareLabel (n : Nat) (value : Option Nat) : Action Assembly Unit := fun s =>
  (onLinking (Linking.declare n (value.getD s.pc))).recover
    (fun f => if f.isFatal then throw f else report (.duplicateLabel n s.lines)) s

theorem declaration_eq {text : LineText} {n : Nat} {value : Option Nat}
    (h : labelLine.outcome text = .ok (n, value)) : declaration text = declareLabel n value := by
  unfold declaration
  rw [h]
  rfl

/-- A declaration that cannot be read changes nothing. -/
theorem declaration_error {text : LineText} {f : Fault} (h : labelLine.outcome text = .error f)
    (s : Assembly) : declaration text s = .error f s := by
  unfold declaration
  rw [h]
  exact Action.bind_of_error (Action.lift_error f s)

theorem onLinking_of_ok {α : Type} {act : Action Linking α} {a : α} {ls : Labels}
    {code : Array Instruction} (h : act ⟨s.labels, s.code⟩ = .ok a ⟨ls, code⟩) :
    onLinking act s = .ok a { s with labels := ls, code := code } := by
  simp only [onLinking, Action.zoom, h]

theorem onLinking_of_error {α : Type} {act : Action Linking α} {f : Fault} {ls : Labels}
    {code : Array Instruction} (h : act ⟨s.labels, s.code⟩ = .error f ⟨ls, code⟩) :
    onLinking act s = .error f { s with labels := ls, code := code } := by
  simp only [onLinking, Action.zoom, h]

/-- A label that does not exist is not declared. -/
theorem declareLabel_outOfRange {n : Nat} (h : s.labels.get? n = none) (value : Option Nat) :
    declareLabel n value s = .error .labelOutOfRange s := by
  have hout := onLinking_of_error (Linking.declare_outOfRange h (value.getD s.pc))
  simp only [declareLabel, Action.recover, hout]
  rfl

namespace Follows

/-- **A declaration** gives its label a value, unless it has one, and resolves the references. -/
theorem declare (h : Follows l es s) (hd : (addresses es).Nodup)
    (hsmall : ∀ a ∈ addresses es, a < 0x8000000000000000) {n : Nat} {value : Option Nat}
    (he : e.content? = some (.declaration n value)) (ha : e.address = s.pc) (hmax : n ≤ l.maxLabel) :
    ∃ s', declareLabel n value s = .ok () s' ∧ Follows l (es ++ [e]) s' ∧ s'.pc = s.pc ∧
      s'.lines = s.lines := by
  have hlab := h.labels n
  rw [if_pos hmax, labelState] at hlab
  cases hv : labelValue? es n with
  | some v =>
    -- the declaration is refused as a duplicate, and loading goes on
    rw [hv] at hlab
    have hdup := onLinking_of_error (Linking.declare_declared hlab (value.getD s.pc))
    refine ⟨{ s with notices := s.notices.push (.duplicateLabel n s.lines) }, ?_, ?_, rfl, rfl⟩
    · simp only [declareLabel, Action.recover, hdup]
      rfl
    · refine h.skip (isInstruction_eq he) (by rw [statement?, he]) (by rw [he]; rfl) ?_ rfl rfl rfl rfl
      intro m
      rw [labelValue?_append, declared?, he]
      by_cases hm : n = m
      · subst hm; rw [hv]; rfl
      · simp only [if_neg hm, Option.or_none]
  | none =>
    rw [hv] at hlab
    obtain ⟨code', hrun, hsize, hget⟩ := Linking.declare_pending hlab (h.chained hsmall hv)
      (List.nodup_reverse.2 (references_nodup hd n)) (value.getD s.pc)
    refine ⟨{ s with labels := s.labels.set n (.declared (value.getD s.pc)), code := code' }, ?_, ?_,
      rfl, rfl⟩
    · simp only [declareLabel, Action.recover, onLinking_of_ok hrun]
    · refine h.resolve hd he hv hmax rfl rfl (by rw [ha]) hsize ?_
      intro a
      rw [hget a, ha]
      simp only [List.mem_reverse]

end Follows

/-! ### Instructions -/

/-- An instruction line, once its statement is read. -/
def placeStatement (st : Statement) : Action Assembly Unit := fun s =>
  match onTables (st.assemble s.pc) s with
  | .ok i s' => .ok () { s' with code := place s.pc i s'.code, pc := s.pc + 1 }
  | .error f s' => .error f s'

/-- An instruction that can be read, with room for it, is placed. -/
theorem instruction_eq {text : LineText} {st : Statement} (hp : Statement.parse text = .ok st)
    (hsize : s.pc < s.store.limits.codeSize) : instruction text s = placeStatement st s := by
  have htext : Statement.assembleText text s.pc = st.assemble s.pc := by
    unfold Statement.assembleText
    rw [hp]
    rfl
  rw [instruction, Action.bind_of_ok (Action.get_apply s)]
  simp only [if_neg (Nat.not_le.2 hsize), htext, placeStatement]
  rw [Action.bind_apply]
  cases onTables (st.assemble s.pc) s <;> rfl

/-- One that cannot be read changes nothing. -/
theorem instruction_error {text : LineText} {f : Fault} (hp : Statement.parse text = .error f)
    (hsize : s.pc < s.store.limits.codeSize) : instruction text s = .error f s := by
  have htext : onTables (Statement.assembleText text s.pc) s = .error f s := by
    unfold Statement.assembleText
    rw [hp]
    rfl
  rw [instruction, Action.bind_of_ok (Action.get_apply s)]
  simp only [if_neg (Nat.not_le.2 hsize)]
  exact Action.bind_of_error htext

/-- Placing an instruction changes the code at its own address. -/
theorem getElem?_place {pc : Nat} {code : Array Instruction} (h : pc ≤ code.size) (i : Instruction)
    (a : Nat) : (place pc i code)[a]? = if a = pc then some i else code[a]? := by
  unfold place
  by_cases hlt : pc < code.size
  · rw [if_pos hlt]
    by_cases ha : a = pc
    · rw [if_pos ha, ha, Array.getElem?_setIfInBounds_self_of_lt hlt]
    · rw [if_neg ha, Array.getElem?_setIfInBounds_ne (Ne.symm ha)]
  · have hpc : pc = code.size := by omega
    rw [if_neg hlt, Array.getElem?_push, hpc]

theorem lt_size_place {pc : Nat} {code : Array Instruction} (h : pc ≤ code.size) (i : Instruction) :
    pc < (place pc i code).size := by
  have := getElem?_place h i pc
  rw [if_pos rfl] at this
  exact (Array.getElem?_eq_some_iff.1 this).1

namespace Follows

/-- A statement assembled after the lines so far, with the tables that follow. -/
theorem assemble_tables (h : Follows l es s) {st : Statement}
    (he : e.content? = some (.instruction st)) (ha : e.address = s.pc)
    (hf : (Line.instruction st).fault? l (constants es) = none) :
    ∃ t, st.assemble s.pc ⟨s.store, s.labels⟩ =
        .ok (st.instruction l (operand (es ++ [e]) es) (constants es)) t ∧
      t.store.Holds l (constants (es ++ [e])) ∧
      ∀ n, t.labels.get? n = if n ≤ l.maxLabel then some (labelState (es ++ [e]) n) else none := by
  have hst : e.statement? = some st := by rw [statement?, he]
  have hval := labelValue?_append_instruction es he
  have hrefers : ∀ n, e.refersTo n = decide (st.reference? = some n) := by
    intro n; rw [refersTo, hst]; rfl
  have hcon : constants (es ++ [e]) = constants es ++ st.constant?.toList := by
    rw [constants_append, he]; rfl
  -- without a reference the label table stays as it is
  have same : st.reference? = none → ∀ n, s.labels.get? n =
      if n ≤ l.maxLabel then some (labelState (es ++ [e]) n) else none := by
    intro hn n
    rw [h.labels, labelState, labelState, hval, references_append, hrefers, hn]
    simp
  unfold Line.fault? at hf
  cases href : st.reference? with
  | some n =>
    have hmax : n ≤ l.maxLabel := by
      by_contra hgt
      rw [if_pos ⟨n, href, by omega⟩] at hf
      cases hf
    have hlab := h.labels n
    rw [if_pos hmax] at hlab
    have hc := Statement.constant?_of_reference? href
    have hinst : st.instruction l (operand (es ++ [e]) es) (constants es) =
        ⟨st.op, st.p, operand es es n⟩ := by
      cases st with
      | labelled op p m =>
        cases href
        simp only [Statement.instruction, Statement.q, Statement.constant?, operand, hval]
      | plain _ | integer _ | real _ | set _ | bounds _ _ | bytes _ => simp [Statement.reference?] at href
    rw [Statement.assemble_reference href, hinst, hcon, hc, Option.toList_none, List.append_nil]
    unfold labelState at hlab
    unfold operand
    cases hv : labelValue? es n with
    | some v =>
      -- the label has its value, so the reference enters no chain
      rw [hv] at hlab
      refine ⟨⟨s.store, s.labels⟩, by simp only [Labels.reference, hlab], h.store, ?_⟩
      intro m
      rw [h.labels, labelState, labelState, hval, references_append, hrefers, href]
      by_cases hm : n = m
      · subst hm; rw [hv]
      · simp [hm]
    | none =>
      -- the reference becomes the latest of its chain
      rw [hv] at hlab
      refine ⟨⟨s.store, s.labels.set n (.pending (some s.pc))⟩, ?_, h.store, ?_⟩
      · simp only [Labels.reference, hlab, Linking.chainOperand]
      · intro m
        rw [Labels.get?_set hlab, labelState, hval, references_append, hrefers, href]
        by_cases hm : m = n
        · subst hm
          rw [if_pos rfl, if_pos hmax, hv]
          simp [ha]
        · have hnm : n ≠ m := Ne.symm hm
          rw [if_neg hm, h.labels, labelState]
          simp [hnm]
  | none =>
    cases hc : st.constant? with
    | some c =>
      have hfit : Constant.Fits l (constants es) c := by
        by_contra hn
        rw [if_neg (by simp [Line.label?, href])] at hf
        simp [Line.constant?, hc, hn] at hf
      obtain ⟨store', hrun, hh, -⟩ := h.store.enter_ok hfit
      refine ⟨⟨store', s.labels⟩, ?_, ?_, same href⟩
      · rw [Statement.assemble_constant hc, hrun]
        simp only [Statement.instruction, Statement.q, hc]
      · rw [hcon, hc]; exact hh
    | none =>
      refine ⟨⟨s.store, s.labels⟩, Statement.assemble_plain href hc _ _, ?_, same href⟩
      rw [hcon, hc, Option.toList_none, List.append_nil]
      exact h.store

/-- **An instruction** goes to the next address, with its operand for the time being. -/
theorem assemble (h : Follows l es s) {st : Statement} (he : e.content? = some (.instruction st))
    (ha : e.address = s.pc) (hfresh : s.pc ∉ addresses es)
    (hf : (Line.instruction st).fault? l (constants es) = none) :
    ∃ s', placeStatement st s = .ok () s' ∧ Follows l (es ++ [e]) s' ∧ s'.pc = s.pc + 1 ∧
      s'.lines = s.lines := by
  obtain ⟨t, hrun, hstore, hlabels⟩ := h.assemble_tables he ha hf
  have hst : e.statement? = some st := by rw [statement?, he]
  have hi : e.isInstruction = true := isInstruction_eq he
  have hval := labelValue?_append_instruction es he
  set i := st.instruction l (operand (es ++ [e]) es) (constants es)
  refine ⟨{ s with store := t.store, labels := t.labels, code := place s.pc i s.code, pc := s.pc + 1 },
    ?_, ⟨hstore, hlabels, ?_, ?_, ?_⟩, rfl, rfl⟩
  · simp only [placeStatement, onTables, Action.zoom, hrun]
  · intro before x after st' hes hx
    rw [getElem?_place h.pc_le]
    rcases split_append hes with ⟨-, rfl, rfl⟩ | ⟨rest, -, hes'⟩
    · rw [hst] at hx
      cases hx
      rw [if_pos ha]
    · -- the address is new, so no earlier line loses its place
      have hxin : x.address ∈ addresses es := mem_addresses_of_statement? (by rw [hes']; simp) hx
      rw [if_neg (by rintro hxa; exact hfresh (hxa ▸ hxin)), h.code before x rest st' hes' hx]
      unfold operand
      simp only [hval]
  · intro a hna
    rw [addresses_append, if_pos hi, List.mem_append, List.mem_singleton, not_or, ha] at hna
    rw [getElem?_place h.pc_le, if_neg hna.2]
    exact h.rest a hna.1
  · exact lt_size_place h.pc_le i

/-- An instruction with a label out of range or without a place for its constant is refused, and
nothing changes. -/
theorem assemble_fault (h : Follows l es s) {st : Statement} {f : Fault}
    (hf : (Line.instruction st).fault? l (constants es) = some f) :
    placeStatement st s = .error f s := by
  unfold Line.fault? at hf
  cases href : st.reference? with
  | some n =>
    have hc := Statement.constant?_of_reference? href
    have hgt : l.maxLabel < n := by
      by_contra hle
      rw [if_neg (by simp [Line.label?, href, hle])] at hf
      simp [Line.constant?, hc] at hf
    rw [if_pos ⟨n, href, hgt⟩] at hf
    cases hf
    have hlab := h.labels n
    rw [if_neg (by omega)] at hlab
    simp only [placeStatement, onTables, Action.zoom, Statement.assemble_reference href,
      Labels.reference, hlab]
  | none =>
    rw [if_neg (by simp [Line.label?, href])] at hf
    obtain ⟨c, hc, hcf⟩ := Option.bind_eq_some_iff.1 hf
    have hfit : ¬ Constant.Fits l (constants es) c := by
      intro hfit; rw [if_pos hfit] at hcf; cases hcf
    rw [if_neg hfit] at hcf
    cases hcf
    simp only [placeStatement, onTables, Action.zoom,
      Statement.assemble_constant (show st.constant? = some c from hc), h.store.enter_full hfit]

end Follows

end Assembly

end PMachine
