import PMachine.Proofs.Program.Loading
import PMachine.Proofs.Syntax

/-!
# Loading agrees with the reference

The loader looks at a text once and the reference twice, and they come to the same code. They also
refuse the same texts, for the same faults.

* `Program.fault?_eq_none_iff`: a text has no fault if it can be loaded.
* `Program.load_agrees`: the loader and the reference agree on every text that takes no code address
  twice.
-/

namespace PMachine

open Constant Entry

/-! ### Texts without a fault -/

namespace Constant

/-- Entering one more constant into tables that have room is a matter of the new tables. -/
theorem fits_iff_tables {l : Limits} {before : List Constant}
    (h : ∀ p, (tableCells p before).length ≤ l.pools.get p) (c : Constant) :
    Fits l before c ↔ ∀ p, (tableCells p (before ++ [c])).length ≤ l.pools.get p := by
  by_cases hc : c.pool ≠ .multiple ∧ c ∈ before
  · simp only [tableCells_append_of_mem hc.1 hc.2]
    exact ⟨fun _ => h, fun _ => fits_of_mem hc.1 hc.2⟩
  · have hnew : c.pool = .multiple ∨ c ∉ before := by tauto
    rw [fits_iff_of_new hnew]
    constructor
    · intro hfit p
      rw [tableCells_append_of_new hnew, List.length_append]
      by_cases hp : c.pool = p
      · rw [if_pos hp, ← hp]; exact hfit
      · rw [if_neg hp, List.length_nil]; exact h p
    · intro hall
      have := hall c.pool
      rwa [tableCells_append_of_new hnew, List.length_append, if_pos rfl] at this

end Constant

/-- A fault that keeps a text from being loaded: one of its form, a full table, or a label that is
nowhere declared. -/
def Fault.StopsLoading (f : Fault) : Prop :=
  f.IsSyntax ∨ f.kind = .tableOverflow ∨ f.kind = .undefinedLabel

/-- Reading a line finds no fault but those of its text. -/
theorem Line.read_error {text : LineText} {f : Fault} (h : Line.read text = .error f) : f.IsSyntax := by
  unfold Line.read at h
  split at h
  · cases h
  · split at h
    · cases h
    · rename_i hl; cases h; exact Assembly.labelLine_error hl
  · split at h
    · cases h
    · rename_i hs; cases h; exact Statement.parse_error hs
  · cases h; exact Or.inl rfl

namespace Entry

variable {l : Limits} {es : List Entry} {e : Entry}

/-- A line is without a fault if it is well formed and there is room for its constants and for its
instruction. -/
theorem fault?_eq_none_iff (hpools : ∀ p, (tableCells p (constants es)).length ≤ l.pools.get p) :
    e.fault? l es = none ↔ e.WellFormed l ∧
      (∀ p, (tableCells p (constants (es ++ [e]))).length ≤ l.pools.get p) ∧
      (e.isInstruction = true → e.address < l.codeSize) := by
  rw [fault?, WellFormed, constants_append, content?]
  by_cases hroom : e.isInstruction = true → e.address < l.codeSize
  · rw [if_neg (by rintro ⟨hi, hge⟩; have := hroom hi; omega)]
    cases Line.read e.text with
    | error f => simp
    | ok line =>
      simp only [Line.fault?, Except.toOption, Option.bind_some, Except.ok.injEq, exists_eq_left']
      by_cases hlabel : ∃ n ∈ line.label?, l.maxLabel < n
      · rw [if_pos hlabel]
        obtain ⟨n, hn, hgt⟩ := hlabel
        refine ⟨fun h => (by cases h), fun h => ?_⟩
        have := h.1 n hn
        omega
      · rw [if_neg hlabel]
        have hle : ∀ n ∈ line.label?, n ≤ l.maxLabel := fun n hn =>
          Nat.not_lt.1 fun hgt => hlabel ⟨n, hn, hgt⟩
        cases line.constant? with
        | none => simpa using ⟨hle, hpools, hroom⟩
        | some c =>
          rw [Option.toList_some, ← fits_iff_tables hpools, Option.bind_some]
          by_cases hfit : Fits l (constants es) c
          · rw [if_pos hfit]; exact ⟨fun _ => ⟨hle, hfit, hroom⟩, fun _ => rfl⟩
          · rw [if_neg hfit]; exact ⟨fun h => (by cases h), fun h => absurd h.2.1 hfit⟩
  · -- an instruction without room is refused before it is read
    rw [if_pos (by simpa using hroom)]
    exact ⟨fun h => (by cases h), fun h => absurd h.2.2 hroom⟩

/-- So is a part of a text if all its lines are. -/
theorem firstFault?_eq_none_iff (l : Limits) (es : List Entry) :
    firstFault? l [] es = none ↔ (∀ e ∈ es, e.WellFormed l) ∧
      (∀ p, (tableCells p (constants es)).length ≤ l.pools.get p) ∧
      (∀ a ∈ addresses es, a < l.codeSize) := by
  induction es using List.reverseRecOn with
  | nil => simp [firstFault?, tableCells, table, constants, addresses]
  | append_singleton es e ih =>
    have hlast : firstFault? l es [e] = none ↔ e.fault? l es = none := by
      rw [firstFault?]
      cases e.fault? l es with
      | some f => simp
      | none => simp [firstFault?]
    rw [firstFault?_append, Option.or_eq_none_iff, List.nil_append, hlast, ih]
    -- the tables only grow, so they have room now if they have it later
    have hgrow : (∀ p, (tableCells p (constants (es ++ [e]))).length ≤ l.pools.get p) →
        ∀ p, (tableCells p (constants es)).length ≤ l.pools.get p := by
      intro h p
      refine (List.IsPrefix.length_le ?_).trans (h p)
      rw [constants_append]
      exact tableCells_grows p _ _
    constructor
    · rintro ⟨⟨hw, hp, ha⟩, hf⟩
      obtain ⟨hwe, hpe, hae⟩ := (fault?_eq_none_iff hp).1 hf
      refine ⟨?_, hpe, ?_⟩
      · intro x hx
        rcases List.mem_append.1 hx with hx | hx
        · exact hw x hx
        · rw [List.mem_singleton.1 hx]; exact hwe
      · intro a hmem
        rw [addresses_append, List.mem_append] at hmem
        rcases hmem with hmem | hmem
        · exact ha a hmem
        · exact room_of_fault? hf hmem
    · rintro ⟨hw, hp, ha⟩
      refine ⟨⟨fun x hx => hw x (List.mem_append_left _ hx), hgrow hp, fun a hmem => ha a ?_⟩,
        (fault?_eq_none_iff (hgrow hp)).2 ⟨hw e (by simp), hp, fun hi => ha e.address ?_⟩⟩
      · rw [addresses_append]; exact List.mem_append_left _ hmem
      · rw [addresses_append, if_pos hi]; simp

/-- A well-formed line refers to labels that exist. -/
theorem le_maxLabel_of_refersTo {n : Nat} (hw : e.WellFormed l) (hn : e.refersTo n = true) :
    n ≤ l.maxLabel := by
  obtain ⟨line, hread, hle⟩ := hw
  have hc : e.content? = some line := content?_of_read hread
  refine hle n ?_
  cases line with
  | instruction s => simpa [refersTo, statement?, hc, Line.label?] using hn
  | comment | declaration _ _ => simp [refersTo, statement?, hc] at hn

theorem statement?_of_wellFormed (hw : e.WellFormed l) (hi : e.isInstruction = true) :
    ∃ st, e.statement? = some st := by
  obtain ⟨line, hread, -⟩ := hw
  have hc : e.content? = some line := content?_of_read hread
  rw [isInstruction_eq hc] at hi
  cases line with
  | instruction st => exact ⟨st, by rw [statement?, hc]⟩
  | comment | declaration _ _ => cases hi

/-- No label is left undefined if every label that is referred to is declared. -/
theorem undefined?_eq_none_iff (hw : ∀ e ∈ es, e.WellFormed l) :
    undefined? l es = none ↔
      ∀ e ∈ es, ∀ n, e.refersTo n = true → (labelValue? es n).isSome = true := by
  unfold undefined?
  rw [List.find?_eq_none]
  constructor
  · intro h e he n hn
    have hmax : n ≤ l.maxLabel := le_maxLabel_of_refersTo (hw e he) hn
    have hne : references es n ≠ [] := List.ne_nil_of_mem
      (List.mem_map_of_mem (List.mem_filter.2 ⟨he, hn⟩))
    have := h n (List.mem_range.2 (by omega))
    rw [Option.isSome_iff_ne_none]
    intro hnone
    exact this (by simpa using ⟨hnone, hne⟩)
  · intro h n _ hn
    obtain ⟨hnone, hne⟩ : labelValue? es n = none ∧ references es n ≠ [] := by simpa using hn
    obtain ⟨a, ha⟩ := List.exists_mem_of_ne_nil _ hne
    obtain ⟨x, hx, -⟩ := List.mem_map.1 ha
    obtain ⟨hmem, href⟩ := List.mem_filter.1 hx
    have := h x hmem n href
    rw [hnone] at this
    cases this

/-! ### Kinds of faults -/

/-- The faults of a line stop the loading. -/
theorem stopsLoading_of_fault? {before : List Entry} {f : Fault} (h : e.fault? l before = some f) :
    f.StopsLoading := by
  unfold fault? at h
  split at h
  · cases h; exact Or.inr (Or.inl rfl)
  cases hread : Line.read e.text with
  | error g => rw [hread] at h; cases h; exact Or.inl (Line.read_error hread)
  | ok line =>
    rw [hread] at h
    simp only [Line.fault?] at h
    split at h
    · cases h; exact Or.inl (Or.inl rfl)
    · obtain ⟨c, -, hc⟩ := Option.bind_eq_some_iff.1 h
      split at hc
      · cases hc
      · cases hc; exact Or.inr (Or.inl rfl)

/-- So does the first fault of a part. -/
theorem stopsLoading_of_firstFault? {f : Fault} : ∀ {es before : List Entry},
    firstFault? l before es = some f → f.StopsLoading := by
  intro es
  induction es with
  | nil => intro before h; cases h
  | cons e es ih =>
    intro before h
    rw [firstFault?] at h
    cases hf : e.fault? l before with
    | some g =>
      have hg : g.StopsLoading := stopsLoading_of_fault? hf
      rw [hf] at h
      cases h
      exact hg
    | none => rw [hf] at h; exact ih h

/-! ### Translated lines -/

/-- The instruction of a line stands under its address among the translated ones. -/
theorem lookup_translate (l : Limits) (label : Nat → Word) {st : Statement} : ∀ (xs ys : List Entry)
    (before : List Constant), (addresses (xs ++ e :: ys)).Nodup → e.statement? = some st →
    (translate l label before (xs ++ e :: ys)).lookup e.address =
      some (st.instruction l label (before ++ constants xs)) := by
  intro xs
  induction xs with
  | nil =>
    intro ys before _ hst
    simp [translate, hst, constants]
  | cons x xs ih =>
    intro ys before hd hst
    have hcon : constants (x :: xs) = constants [x] ++ constants xs := by
      rw [constants, constants, constants, ← List.filterMap_append, List.singleton_append]
    have hsplit : addresses (x :: (xs ++ e :: ys)) = addresses [x] ++ addresses (xs ++ e :: ys) :=
      addresses_append_list [x] _
    rw [List.cons_append, hsplit] at hd
    have htail := ih ys (before ++ constants [x]) (List.Nodup.of_append_right hd) hst
    rw [List.append_assoc, ← hcon] at htail
    rw [List.cons_append, translate]
    cases hx : x.statement? with
    | none => exact htail
    | some sx =>
      have hne : e.address ≠ x.address := by
        intro heq
        refine List.disjoint_of_nodup_append hd (mem_addresses_of_statement? List.mem_cons_self hx) ?_
        rw [← heq]
        exact mem_addresses_of_statement? (by simp) hst
      simp only [List.lookup_cons, beq_false_of_ne hne]
      exact htail

/-- Nothing is translated to an address at which there is no line. -/
theorem lookup_translate_none (l : Limits) (label : Nat → Word) {a : Nat} : ∀ (xs : List Entry)
    (before : List Constant), a ∉ addresses xs → (translate l label before xs).lookup a = none := by
  intro xs
  induction xs with
  | nil => intro _ _; rfl
  | cons x xs ih =>
    intro before ha
    rw [← List.singleton_append, addresses_append_list, List.mem_append, not_or] at ha
    rw [translate]
    cases hx : x.statement? with
    | none => exact ih _ ha.2
    | some sx =>
      have hne : a ≠ x.address := by
        rintro rfl
        exact ha.1 (mem_addresses_of_statement? List.mem_cons_self hx)
      simp only [List.lookup_cons, beq_false_of_ne hne]
      exact ih _ ha.2

end Entry

namespace Program

variable {l : Limits} {bytes : List UInt8}

/-- **A text has no fault** if it can be loaded. -/
theorem fault?_eq_none_iff (l : Limits) (bytes : List UInt8) :
    fault? l bytes = none ↔ Loadable l bytes := by
  rw [fault?, Option.or_eq_none_iff, Option.map_eq_none_iff, firstFault?_eq_none_iff]
  constructor
  · rintro ⟨⟨hw, hp, ha⟩, hu⟩
    exact ⟨hw, hp, ha, (undefined?_eq_none_iff hw).1 hu⟩
  · rintro ⟨hw, hp, ha, hl⟩
    exact ⟨⟨hw, hp, ha⟩, (undefined?_eq_none_iff hw).2 hl⟩

theorem stopsLoading_of_fault? {f : Fault} (h : fault? l bytes = some f) : f.StopsLoading := by
  rw [fault?, Option.or_eq_some_iff] at h
  rcases h with h | ⟨-, h⟩
  · exact stopsLoading_of_firstFault? h
  · obtain ⟨n, -, rfl⟩ := Option.map_eq_some_iff.1 h
    exact Or.inr (Or.inr rfl)

/-- A part has no more lines than there are. -/
theorem length_partTexts_le (lines : List (List UInt8)) : (partTexts lines).length ≤ lines.length := by
  have := (List.takeWhile_sublist (fun text => !Lines.isBlank text) (l := lines.map lineText)).length_le
  rwa [List.length_map] at this

/-- Parts that do not meet take no address twice, and a code of at most `2 ^ 63` instructions has
only addresses that a word can hold. -/
theorem apart_layout
    (hmeet : addresses (mainLayout bytes) = [] ∨ (addresses (startupLayout bytes)).length ≤ mainStart)
    (hsize : min l.codeSize (mainStart + bytes.length) ≤ 0x8000000000000000) :
    Apart l (layout bytes) := by
  have hlines := Lines.length_split_le bytes
  have hmain : (mainTexts bytes).countP (fun t => t.head? = some ' ') ≤ bytes.length :=
    List.countP_le_length.trans ((length_partTexts_le _).trans hlines)
  have hstartup : (startupTexts bytes).countP (fun t => t.head? = some ' ') ≤ bytes.length := by
    refine List.countP_le_length.trans ((length_partTexts_le _).trans ?_)
    rw [List.length_drop]
    omega
  -- a part of `n` instructions takes the `n` addresses from its start on
  rw [mainLayout, startupLayout, addresses_number, addresses_number, List.length_range'] at hmeet
  have haddr : addresses (layout bytes) =
      List.range' mainStart ((mainTexts bytes).countP fun t => t.head? = some ' ') ++
        List.range' 0 ((startupTexts bytes).countP fun t => t.head? = some ' ') := by
    rw [layout, addresses_append_list, mainLayout, startupLayout, addresses_number, addresses_number]
  refine ⟨?_, ?_⟩
  · rw [haddr]
    refine List.nodup_append'.2 ⟨List.nodup_range', List.nodup_range', ?_⟩
    intro a ha hb
    rw [List.mem_range'_1] at ha hb
    rcases hmeet with hmeet | hmeet
    · have := List.range'_eq_nil_iff.1 hmeet
      omega
    · omega
  · intro a ha hcode
    rw [haddr, List.mem_append, List.mem_range'_1, List.mem_range'_1] at ha
    omega

/-- The code of a text that can be loaded is that of the reference. -/
theorem code_eq_referenceAt? {s : Assembly} (h : Assembly.Follows l (layout bytes) s)
    (hd : (addresses (layout bytes)).Nodup) (hload : Loadable l bytes) (a : Nat) :
    s.code[a]? = referenceAt? l bytes a := by
  unfold referenceAt? reference
  by_cases ha : a ∈ addresses (layout bytes)
  · obtain ⟨e, he, rfl⟩ := List.mem_map.1 ha
    obtain ⟨hmem, hi⟩ := List.mem_filter.1 he
    obtain ⟨st, hst⟩ := statement?_of_wellFormed (hload.lines e hmem) hi
    obtain ⟨before, after, hsplit⟩ := List.append_of_mem hmem
    have hlookup := lookup_translate l (labelOperand (layout bytes)) before after [] (hsplit ▸ hd) hst
    rw [← hsplit, List.nil_append] at hlookup
    rw [hlookup, Option.some_or, h.code before e after st hsplit hst]
    congr 1
    -- every label that is referred to has its value by now, so no link of a chain is left
    refine Statement.instruction_congr fun n hn => ?_
    have href : e.refersTo n = true := by simp [refersTo, hst, hn]
    obtain ⟨v, hv⟩ := Option.isSome_iff_exists.1 (hload.labels e hmem n href)
    rw [operand, labelOperand, hv, Option.getD_some]
  · rw [lookup_translate_none _ _ _ _ ha, Option.none_or, h.rest a ha]
    rfl

/-- The operand of a reference to a label is the value of the label. -/
theorem operand_eq_value {s : Assembly} (h : Assembly.Follows l (layout bytes) s)
    (hload : Loadable l bytes) {e : Entry} (he : e ∈ layout bytes) {n : Nat} (hn : e.refersTo n = true) :
    ∃ v i, labelValue? (layout bytes) n = some v ∧ s.code[e.address]? = some i ∧
      i.q = Address.toWord v := by
  obtain ⟨v, hv⟩ := Option.isSome_iff_exists.1 (hload.labels e he n hn)
  obtain ⟨st, hst, href⟩ : ∃ st, e.statement? = some st ∧ st.reference? = some n := by
    simpa [refersTo, Option.bind_eq_some_iff] using hn
  obtain ⟨before, after, hsplit⟩ := List.append_of_mem he
  refine ⟨v, _, hv, h.code before e after st hsplit hst, ?_⟩
  cases st with
  | labelled op p m =>
    cases href
    simp only [Statement.instruction, Statement.q, Statement.constant?, operand, hv]
  | plain _ | integer _ | real _ | set _ | bounds _ _ | bytes _ => cases href

section

variable {text : List Char} (hapart : Apart l (layout (Lines.encode text)))

include hapart

/-- A text without a fault is loaded, and what is loaded follows its layout. -/
theorem load_of_loadable (hload : Loadable l (Lines.encode text)) : ∃ s : Assembly,
    load l ⟨Lines.encode text, none⟩ = .ok (⟨s.code, s.store⟩, unread (Lines.encode text)) ∧
      Assembly.Follows l (layout (Lines.encode text)) s := by
  obtain ⟨s', s'', hrun, hfol⟩ := (Assembly.run_follows hapart).2 ((fault?_eq_none_iff l _).2 hload)
  exact ⟨s', by rw [load, Action.outcome, hrun], hfol⟩

/-- Loading fails with the fault of the text. -/
theorem load_eq_error_iff (f : Fault) :
    load l ⟨Lines.encode text, none⟩ = .error f ↔ fault? l (Lines.encode text) = some f := by
  have herror : ∀ g, fault? l (Lines.encode text) = some g →
      load l ⟨Lines.encode text, none⟩ = .error g := by
    intro g hg
    obtain ⟨s', hrun⟩ := (Assembly.run_follows hapart).1 g hg
    rw [load, Action.outcome, hrun]
  refine ⟨fun h => ?_, herror f⟩
  cases hf : fault? l (Lines.encode text) with
  | some g =>
    rw [herror g hf] at h
    cases h
    rfl
  | none =>
    obtain ⟨s', hrun, -⟩ := load_of_loadable hapart ((fault?_eq_none_iff l _).1 hf)
    rw [hrun] at h
    cases h

theorem loadable_of_load {loaded : Program × List UInt8}
    (h : load l ⟨Lines.encode text, none⟩ = .ok loaded) : Loadable l (Lines.encode text) := by
  rw [← fault?_eq_none_iff]
  cases hf : fault? l (Lines.encode text) with
  | none => rfl
  | some f =>
    rw [(load_eq_error_iff hapart f).2 hf] at h
    cases h

end

/-- **Loading agrees with the reference.** A text whose parts do not meet is refused for what the
reference finds wrong with it, never for a broken chain, and is loaded if there is nothing; then its
code is that of the reference, and the operand of every reference to a label is the value of the
label. Code addresses are words of 64 bits, so no code has more than `2 ^ 63` instructions. -/
theorem load_agrees (l : Limits) (text : List Char)
    (hmeet : addresses (mainLayout (Lines.encode text)) = [] ∨
      (addresses (startupLayout (Lines.encode text))).length ≤ mainStart)
    (hsize : min l.codeSize (mainStart + (Lines.encode text).length) ≤ 0x8000000000000000) :
    (∀ f, load l ⟨Lines.encode text, none⟩ = .error f ↔ fault? l (Lines.encode text) = some f) ∧
    (∀ f, load l ⟨Lines.encode text, none⟩ = .error f →
      f.StopsLoading ∧ f.kind ≠ Fault.brokenLabelChain.kind) ∧
    ((∃ loaded, load l ⟨Lines.encode text, none⟩ = .ok loaded) ↔ Loadable l (Lines.encode text)) ∧
    ∀ p rest, load l ⟨Lines.encode text, none⟩ = .ok (p, rest) →
      (∀ a, p.code[a]? = referenceAt? l (Lines.encode text) a) ∧
      (∀ e ∈ layout (Lines.encode text), ∀ n, e.refersTo n = true →
        ∃ v i, labelValue? (layout (Lines.encode text)) n = some v ∧ p.code[e.address]? = some i ∧
          i.q = Address.toWord v) ∧
      p.store.Holds l (constants (layout (Lines.encode text))) ∧
      rest = unread (Lines.encode text) := by
  have hapart := apart_layout hmeet hsize
  refine ⟨load_eq_error_iff hapart, ?_, ?_, ?_⟩
  · intro f h
    have hstop := stopsLoading_of_fault? ((load_eq_error_iff hapart f).1 h)
    refine ⟨hstop, ?_⟩
    rcases hstop with (hk | hk) | hk | hk <;> rw [hk] <;> decide
  · refine ⟨fun ⟨_, h⟩ => loadable_of_load hapart h, fun hload => ?_⟩
    obtain ⟨s, hrun, -⟩ := load_of_loadable hapart hload
    exact ⟨_, hrun⟩
  · intro p rest h
    have hload := loadable_of_load hapart h
    obtain ⟨s, hrun, hfol⟩ := load_of_loadable hapart hload
    rw [hrun] at h
    cases h
    exact ⟨code_eq_referenceAt? hfol hapart.nodup hload,
      fun e he n hn => operand_eq_value hfol hload he hn, hfol.store, rfl⟩

/-- A main part with a jump over a declaration, and a startup part of three instructions. -/
def jumpText : List Char := " UJP L1\n STP\nL1\n STP\n\n MST 0\n CUP 0 L1\n STP\n".toList

theorem load_agrees_jumpText : ∃ p rest, load {} ⟨Lines.encode jumpText, none⟩ = .ok (p, rest) ∧
    p.code[3]? = some ⟨.ujp, 0, 5⟩ ∧ p.code[1]? = some ⟨.cup, 0, 5⟩ := by
  obtain ⟨-, -, hiff, hall⟩ := load_agrees {} jumpText (Or.inr (by decide +kernel)) (by decide +kernel)
  have hnone : fault? {} (Lines.encode jumpText) = none := by decide +kernel
  obtain ⟨⟨p, rest⟩, h⟩ := hiff.2 ((fault?_eq_none_iff _ _).1 hnone)
  obtain ⟨hcode, -⟩ := hall p rest h
  refine ⟨p, rest, h, ?_, ?_⟩
  · rw [hcode]; decide +kernel
  · rw [hcode]; decide +kernel

end Program

end PMachine
