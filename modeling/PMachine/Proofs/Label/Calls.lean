import PMachine.Proofs.Label

/-!
# Labels referred to and declared in any order

The chains of all labels run through the operands of one code, and the sites of a chain come in any
order. Still no two chains meet: each site belongs to the one label that it refers to. So whatever calls
were made, a declaration walks the chain of its label from end to end and touches no other operand.

* `LabelCall.perform`: a reference with its operand put in place, or a declaration.
* `LabelCall.Linked`: what the labels and the operands are after some calls.
* `LabelCall.Linked.reference`, `LabelCall.Linked.declare`: each call keeps them so.
* `LabelCall.linked_performAll`: so does every run of calls.
* `LabelCall.chains_sound`: what a declaration does after any calls, and what it leaves alone.
-/

namespace PMachine

/-- A call on the labels of code under construction. -/
inductive LabelCall where
  /-- The instruction at `site` refers to the label. -/
  | reference (label site : Nat)
  /-- The label gets an address. -/
  | declare (label address : Nat)
deriving DecidableEq, Repr

namespace LabelCall

open Linking (Chained chainOperand declareTrail)

/-- What a call does. The operand of a reference goes into the instruction at its site. -/
def perform : LabelCall → Action Linking Unit
  | reference label site => do
    let act := Labels.reference label site
    let q ← act.zoom (·.labels) fun labels (s : Linking) => { s with labels }
    modify fun s => { s with code := s.code.modify site fun i => { i with q } }
  | declare label address => Linking.declare label address

/-- Labels and code after some calls. A call that is refused is followed by the next one. -/
def performAll (calls : List LabelCall) (s : Linking) : Linking :=
  calls.foldl (fun s call => call.perform.after s) s

/-- The site of a reference. -/
def place? : LabelCall → Option Nat
  | reference _ site => some site
  | declare _ _ => none

/-- The site of a reference to the given label. -/
def site? (label : Nat) : LabelCall → Option Nat
  | reference n site => if n = label then some site else none
  | declare _ _ => none

/-- The address that a declaration gives to the given label. -/
def declared? (label : Nat) : LabelCall → Option Nat
  | reference _ _ => none
  | declare n a => if n = label then some a else none

/-- The sites of all references, in the order of the calls. -/
def places (calls : List LabelCall) : List Nat := calls.filterMap place?

/-- The sites of the references to a label, in the order of the calls. -/
def sites (calls : List LabelCall) (label : Nat) : List Nat := calls.filterMap (site? label)

/-- The address of a label: that of its first declaration. -/
def address? (calls : List LabelCall) (label : Nat) : Option Nat := calls.findSome? (declared? label)

/-- What is known of a label after some calls. -/
def labelState (calls : List LabelCall) (label : Nat) : Label :=
  match address? calls label with
  | some a => .declared a
  | none => .pending (sites calls label).reverse.head?

/-- Calls on a code of the given size: no two references have one site, each site lies inside the code,
and the addresses are those of a machine. -/
structure Proper (size : Nat) (calls : List LabelCall) : Prop where
  apart : (places calls).Nodup
  inside : ∀ site ∈ places calls, site < size
  small : ∀ n a, declare n a ∈ calls → a < 0x8000000000000000

/-! ### One more call -/

variable {calls : List LabelCall} {n m site : Nat}

/-- A further call adds its site, if it refers to the label. -/
theorem sites_append (calls : List LabelCall) (call : LabelCall) (n : Nat) :
    sites (calls ++ [call]) n = sites calls n ++ (call.site? n).toList := by
  rw [sites, List.filterMap_append, ← sites]
  cases h : call.site? n <;> simp [h]

/-- A further call declares the label, unless it was declared before. -/
theorem address?_append (calls : List LabelCall) (call : LabelCall) (n : Nat) :
    address? (calls ++ [call]) n = (address? calls n).or (call.declared? n) := by
  rw [address?, List.findSome?_append, ← address?]
  simp

/-- A further call adds its place, if it refers to some label. -/
theorem places_append (calls : List LabelCall) (call : LabelCall) :
    places (calls ++ [call]) = places calls ++ call.place?.toList := by
  rw [places, List.filterMap_append, ← places]
  cases h : call.place? <;> simp [h]

/-- The sites of a label are those of the references to it. -/
theorem mem_sites : site ∈ sites calls n ↔ reference n site ∈ calls := by
  rw [sites, List.mem_filterMap]
  constructor
  · rintro ⟨call, hcall, hsite⟩
    cases call with
    | reference m at' =>
      simp only [site?] at hsite
      split at hsite
      · rename_i hm
        cases hsite
        rwa [← hm]
      · cases hsite
    | declare m a => cases hsite
  · intro h
    exact ⟨_, h, if_pos rfl⟩

/-- A label has no address as long as no call declares it. -/
theorem address?_eq_none : address? calls n = none ↔ ∀ a, declare n a ∉ calls := by
  rw [address?, List.findSome?_eq_none_iff]
  constructor
  · intro h a ha
    have hnone := h _ ha
    simp only [declared?, if_true] at hnone
    cases hnone
  · intro h call hcall
    cases call with
    | reference m site => rfl
    | declare m a =>
      refine if_neg ?_
      rintro rfl
      exact h a hcall

/-- The address of a label is one that a call declared. -/
theorem mem_of_address? {a : Nat} (h : address? calls n = some a) : declare n a ∈ calls := by
  obtain ⟨call, hcall, hdecl⟩ := List.exists_of_findSome?_eq_some h
  cases call with
  | reference m site => cases hdecl
  | declare m b =>
    simp only [declared?] at hdecl
    split at hdecl
    · rename_i hm
      cases hdecl
      rwa [← hm]
    · cases hdecl

/-- A site of some label is a place. -/
theorem mem_places (h : site ∈ sites calls n) : site ∈ places calls :=
  List.mem_filterMap.2 ⟨_, mem_sites.1 h, rfl⟩

/-- A label is referred to from some of all sites. -/
theorem sites_sublist (calls : List LabelCall) (n : Nat) : (sites calls n).Sublist (places calls) := by
  induction calls with
  | nil => exact List.Sublist.refl _
  | cons call calls ih =>
    cases call with
    | declare m a => exact ih
    | reference m site =>
      unfold sites places at ih ⊢
      rw [List.filterMap_cons_some (show place? (reference m site) = some site from rfl)]
      by_cases hm : m = n
      · rw [List.filterMap_cons_some (show site? n (reference m site) = some site from if_pos hm)]
        exact ih.cons_cons site
      · rw [List.filterMap_cons_none (show site? n (reference m site) = none from if_neg hm)]
        exact ih.cons site

/-- **No two labels share a site.** -/
theorem eq_of_mem_sites : ∀ {calls : List LabelCall}, (places calls).Nodup → site ∈ sites calls n →
    site ∈ sites calls m → n = m := by
  intro calls
  induction calls with
  | nil => intro _ h; cases h
  | cons call calls ih =>
    intro hd hn hm
    have hplaces : places (call :: calls) = call.place?.toList ++ places calls := by
      rw [places, List.filterMap_cons, ← places]
      cases call.place? <;> rfl
    rw [hplaces] at hd
    rw [mem_sites] at hn hm
    have hrest := List.Nodup.of_append_right hd
    rcases List.mem_cons.1 hn with rfl | hn'
    · rcases List.mem_cons.1 hm with heq | hm'
      · cases heq
        rfl
      · exact absurd (mem_places (mem_sites.2 hm')) (List.nodup_cons.1 hd).1
    · rcases List.mem_cons.1 hm with rfl | hm'
      · exact absurd (mem_places (mem_sites.2 hn')) (List.nodup_cons.1 hd).1
      · exact ih hrest (mem_sites.2 hn') (mem_sites.2 hm')

/-! ### The chains of all labels -/

/-- Labels and code as some calls have made them from new labels and the code that was there. -/
structure Linked (max : Nat) (code : Array Instruction) (calls : List LabelCall) (s : Linking) : Prop where
  labels : ∀ n, s.labels.get? n = if n ≤ max then some (labelState calls n) else none
  chained : ∀ n ≤ max, address? calls n = none → Chained s.code (sites calls n).reverse
  resolved : ∀ n ≤ max, ∀ a, address? calls n = some a → ∀ site ∈ sites calls n,
    s.code[site]? = code[site]?.map ({ · with q := Address.toWord a })
  operands : ∀ b : Nat, ∃ q, s.code[b]? = code[b]?.map ({ · with q := q })
  rest : ∀ b, (∀ n ≤ max, b ∉ sites calls n) → s.code[b]? = code[b]?

variable {max : Nat} {code : Array Instruction} {s : Linking}

/-- Before the first call there are no chains. -/
theorem linked_new (max : Nat) (code : Array Instruction) : Linked max code [] ⟨.new max, code⟩ where
  labels n := Labels.get?_new max n
  chained _ _ _ := trivial
  resolved _ _ _ h := nomatch h
  operands b := by
    cases code[b]? with
    | none => exact ⟨0, rfl⟩
    | some i => exact ⟨i.q, rfl⟩
  rest _ _ := rfl

namespace Linked

/-- A call that is refused. -/
theorem skip (h : Linked max code calls s) {call : LabelCall} (hsite : ∀ n ≤ max, call.site? n = none)
    (haddress : ∀ n ≤ max, (address? calls n).or (call.declared? n) = address? calls n) :
    Linked max code (calls ++ [call]) s := by
  have hsites : ∀ n ≤ max, sites (calls ++ [call]) n = sites calls n := fun n hn => by
    rw [sites_append, hsite n hn, Option.toList_none, List.append_nil]
  have haddresses : ∀ n ≤ max, address? (calls ++ [call]) n = address? calls n := fun n hn => by
    rw [address?_append, haddress n hn]
  refine ⟨fun n => ?_, fun n hn => ?_, fun n hn => ?_, h.operands, fun b hb => ?_⟩
  · rw [h.labels]
    split
    · rename_i hn
      rw [labelState, labelState, haddresses n hn, hsites n hn]
    · rfl
  · rw [haddresses n hn, hsites n hn]
    exact h.chained n hn
  · rw [haddresses n hn, hsites n hn]
    exact h.resolved n hn
  · refine h.rest b fun n hn => ?_
    rw [← hsites n hn]
    exact hb n hn

/-- The operand of a reference is put in place: the address of the label, or the site before it. -/
theorem place (h : Linked max code calls s) (hn : n ≤ max) (hfresh : site ∉ places calls)
    (hinside : site < code.size) (hsmall : site < 0x8000000000000000) {labels : Labels}
    (hlabels : ∀ m, labels.get? m =
      if m ≤ max then some (labelState (calls ++ [reference n site]) m) else none)
    {q : Word} (hq : q = (address? calls n).elim (chainOperand (sites calls n).reverse) Address.toWord) :
    Linked max code (calls ++ [reference n site])
      ⟨labels, s.code.modify site fun i => { i with q }⟩ := by
  have hget : ∀ b : Nat, (s.code.modify site fun i => { i with q })[b]? =
      if site = b then s.code[b]?.map ({ · with q := q }) else s.code[b]? := fun b => by
    rw [Array.getElem?_modify]
  have haddress : ∀ m, address? (calls ++ [reference n site]) m = address? calls m := fun m => by
    rw [address?_append, declared?, Option.or_none]
  have hsites : ∀ m, sites (calls ++ [reference n site]) m =
      sites calls m ++ if n = m then [site] else [] := fun m => by
    rw [sites_append, site?]
    split <;> rfl
  have hold : ∀ {m b}, b ∈ sites calls m → site ≠ b := by
    rintro m b hb rfl
    exact hfresh (mem_places hb)
  -- the instruction at the site, with the new operand
  obtain ⟨q₀, hq₀⟩ := h.operands site
  have hplaced : (s.code.modify site fun i => { i with q })[site]? = code[site]?.map ({ · with q := q }) := by
    rw [hget, if_pos rfl, hq₀, Option.map_map]
    rfl
  refine ⟨hlabels, fun m hm hnone => ?_, fun m hm a ha b hb => ?_, fun b => ?_, fun b hb => ?_⟩
  · rw [haddress] at hnone
    have hchain : Chained (s.code.modify site fun i => { i with q }) (sites calls m).reverse :=
      (h.chained m hm hnone).congr fun b hb => by
        rw [hget, if_neg (hold (List.mem_reverse.1 hb))]
    rw [hsites]
    by_cases hnm : n = m
    · -- the site becomes the latest of its chain
      subst hnm
      rw [if_pos rfl, List.reverse_append, List.reverse_singleton, List.singleton_append]
      refine ⟨⟨_, by rw [hplaced, Array.getElem?_eq_getElem hinside, Option.map_some], ?_⟩, hsmall, hchain⟩
      rw [hq, hnone]
      rfl
    · rw [if_neg hnm, List.append_nil]
      exact hchain
  · rw [haddress] at ha
    rw [hsites, List.mem_append] at hb
    rcases hb with hb | hb
    · rw [hget, if_neg (hold hb)]
      exact h.resolved m hm a ha b hb
    · by_cases hnm : n = m
      · subst hnm
        rw [if_pos rfl, List.mem_singleton] at hb
        rw [hb, hplaced, hq, ha]
        rfl
      · rw [if_neg hnm] at hb
        cases hb
  · by_cases hb : site = b
    · subst hb
      exact ⟨q, hplaced⟩
    · rw [hget, if_neg hb]
      exact h.operands b
  · have hne : site ≠ b := by
      rintro rfl
      refine hb n hn ?_
      rw [hsites, if_pos rfl]
      exact List.mem_append_right _ List.mem_cons_self
    rw [hget, if_neg hne]
    refine h.rest b fun m hm hin => hb m hm ?_
    rw [hsites]
    exact List.mem_append_left _ hin

/-- **A reference** takes the address of its label or becomes the latest of its chain. -/
theorem reference (h : Linked max code calls s) (hn : n ≤ max) (hfresh : site ∉ places calls)
    (hinside : site < code.size) (hsmall : site < 0x8000000000000000) :
    ∃ s', (LabelCall.reference n site).perform s = .ok () s' ∧
      Linked max code (calls ++ [.reference n site]) s' := by
  have hlabel := h.labels n
  rw [if_pos hn, labelState] at hlabel
  have hlabels : ∀ {m}, n ≠ m → labelState (calls ++ [.reference n site]) m = labelState calls m := by
    intro m hm
    rw [labelState, labelState, address?_append, sites_append, site?, if_neg hm, declared?, Option.or_none,
      Option.toList_none, List.append_nil]
  cases ha : address? calls n with
  | some a =>
    rw [ha] at hlabel
    refine ⟨⟨s.labels, s.code.modify site fun i => { i with q := Address.toWord a }⟩, ?_, ?_⟩
    · simp only [perform, Action.bind_apply, Action.zoom, Labels.reference, hlabel]
      rfl
    · refine h.place hn hfresh hinside hsmall (fun m => ?_) (by rw [ha]; rfl)
      rw [h.labels]
      by_cases hm : n = m
      · subst hm
        rw [labelState, labelState, address?_append, ha]
        rfl
      · rw [hlabels hm]
  | none =>
    rw [ha] at hlabel
    refine ⟨⟨s.labels.set n (.pending (some site)), s.code.modify site fun i =>
      { i with q := chainOperand (sites calls n).reverse }⟩, ?_, ?_⟩
    · simp only [perform, Action.bind_apply, Action.zoom, Labels.reference, hlabel]
      rfl
    · refine h.place hn hfresh hinside hsmall (fun m => ?_) (by rw [ha]; rfl)
      rw [Labels.get?_set hlabel]
      by_cases hm : m = n
      · subst hm
        rw [if_pos rfl, if_pos hn, labelState, address?_append, ha, sites_append, site?, if_pos rfl]
        simp [declared?]
      · rw [if_neg hm, h.labels, hlabels (Ne.symm hm)]

/-- **The first declaration** of a label goes to its sites, from the latest to the first, and gives them
its address. -/
theorem declare (h : Linked max code calls s) (hd : (places calls).Nodup) (hn : n ≤ max)
    (hnone : address? calls n = none) (a : Nat) :
    ∃ s', declareTrail n a s = .ok (sites calls n).reverse s' ∧
      Linked max code (calls ++ [.declare n a]) s' ∧
      ∀ b, s'.code[b]? = if b ∈ sites calls n then s.code[b]?.map ({ · with q := Address.toWord a })
        else s.code[b]? := by
  have hlabel := h.labels n
  rw [if_pos hn, labelState, hnone] at hlabel
  obtain ⟨code', hrun, -, hget⟩ := Linking.declareTrail_pending hlabel (h.chained n hn hnone)
    (List.nodup_reverse.2 (hd.sublist (sites_sublist calls n))) a
  simp only [List.mem_reverse] at hget
  have haddress : ∀ m, address? (calls ++ [.declare n a]) m =
      (address? calls m).or (if n = m then some a else none) := fun m => address?_append ..
  have hsites : ∀ m, sites (calls ++ [.declare n a]) m = sites calls m := fun m => by
    rw [sites_append, site?, Option.toList_none, List.append_nil]
  have hothers : ∀ {m b}, n ≠ m → b ∈ sites calls m → code'[b]? = s.code[b]? := by
    intro m b hm hb
    rw [hget, if_neg fun hin => hm (eq_of_mem_sites hd hin hb)]
  refine ⟨⟨s.labels.set n (.declared a), code'⟩, hrun, ⟨fun m => ?_, fun m hm hm' => ?_,
    fun m hm a' ha' b hb => ?_, fun b => ?_, fun b hb => ?_⟩, hget⟩
  · rw [Labels.get?_set hlabel]
    by_cases hm : m = n
    · subst hm
      rw [if_pos rfl, if_pos hn, labelState, haddress, hnone, if_pos rfl]
      rfl
    · rw [if_neg hm, h.labels, labelState, labelState, haddress, if_neg (Ne.symm hm), Option.or_none, hsites]
  · rw [haddress, Option.or_eq_none_iff] at hm'
    have hne : n ≠ m := by
      rintro rfl
      rw [if_pos rfl] at hm'
      cases hm'.2
    rw [hsites]
    exact (h.chained m hm hm'.1).congr fun b hb => hothers hne (List.mem_reverse.1 hb)
  · rw [hsites] at hb
    rw [haddress] at ha'
    by_cases hm' : n = m
    · subst hm'
      rw [hnone, if_pos rfl] at ha'
      cases ha'
      obtain ⟨q, hq⟩ := h.operands b
      rw [hget, if_pos hb, hq, Option.map_map]
      rfl
    · rw [if_neg hm', Option.or_none] at ha'
      rw [hothers hm' hb]
      exact h.resolved m hm a' ha' b hb
  · obtain ⟨q, hq⟩ := h.operands b
    by_cases hb : b ∈ sites calls n
    · refine ⟨Address.toWord a, ?_⟩
      rw [hget, if_pos hb, hq, Option.map_map]
      rfl
    · exact ⟨q, by rw [hget, if_neg hb, hq]⟩
  · simp only [hsites] at hb
    rw [hget, if_neg (hb n hn)]
    exact h.rest b hb

/-- A reference to a label out of range is refused. -/
theorem reference_outOfRange (h : Linked max code calls s) (hn : max < n) (site : Nat) :
    (LabelCall.reference n site).perform s = .error .labelOutOfRange s := by
  have hlabel := h.labels n
  rw [if_neg (Nat.not_le.2 hn)] at hlabel
  simp only [perform, Action.bind_apply, Action.zoom, Labels.reference, hlabel]

/-- A declaration of a label out of range is refused. -/
theorem declare_outOfRange (h : Linked max code calls s) (hn : max < n) (a : Nat) :
    (LabelCall.declare n a).perform s = .error .labelOutOfRange s := by
  have hlabel := h.labels n
  rw [if_neg (Nat.not_le.2 hn)] at hlabel
  exact Linking.declare_outOfRange hlabel a

/-- A second declaration of a label is refused. -/
theorem declare_again (h : Linked max code calls s) (hn : n ≤ max) {a : Nat}
    (ha : address? calls n = some a) (a' : Nat) :
    (LabelCall.declare n a').perform s = .error .duplicateLabel s := by
  have hlabel := h.labels n
  rw [if_pos hn, labelState, ha] at hlabel
  exact Linking.declare_declared hlabel a'

/-- Every call keeps labels and code linked. -/
theorem perform (h : Linked max code calls s) (hcode : code.size ≤ 0x8000000000000000) {call : LabelCall}
    (hcalls : Proper code.size (calls ++ [call])) :
    Linked max code (calls ++ [call]) (call.perform.after s) := by
  have happart := hcalls.apart
  have hinside := hcalls.inside
  rw [places_append] at happart hinside
  cases call with
  | reference n site =>
    have hin : site < code.size := hinside site (List.mem_append_right _ List.mem_cons_self)
    have hfresh : site ∉ places calls := fun hmem =>
      List.disjoint_of_nodup_append happart hmem List.mem_cons_self
    by_cases hn : n ≤ max
    · obtain ⟨s', hrun, hlinked⟩ := h.reference hn hfresh hin (by omega)
      rw [Action.after_of_ok hrun]
      exact hlinked
    · rw [Action.after_of_error (h.reference_outOfRange (Nat.not_le.1 hn) site)]
      refine h.skip (fun m hm => if_neg ?_) fun m _ => Option.or_none
      rintro rfl
      exact hn hm
  | declare n a =>
    by_cases hn : n ≤ max
    · cases ha : address? calls n with
      | none =>
        obtain ⟨s', hrun, hlinked, -⟩ := h.declare happart.of_append_left hn ha a
        have hdeclare : (LabelCall.declare n a).perform s = .ok () s' := Linking.declare_of_trail hrun
        rw [Action.after_of_ok hdeclare]
        exact hlinked
      | some a' =>
        rw [Action.after_of_error (h.declare_again hn ha a)]
        refine h.skip (fun m _ => rfl) fun m _ => ?_
        by_cases hm : n = m
        · rw [← hm, ha]
          rfl
        · rw [declared?, if_neg hm, Option.or_none]
    · rw [Action.after_of_error (h.declare_outOfRange (Nat.not_le.1 hn) a)]
      refine h.skip (fun m _ => rfl) fun m hm => ?_
      have hne : n ≠ m := by
        rintro rfl
        exact hn hm
      rw [declared?, if_neg hne, Option.or_none]

/-- The label that is reported as unresolved is the least one that was referred to and not declared. -/
theorem unresolved_iff (h : Linked max code calls s) :
    s.labels.unresolved? = some n ↔
      IsLeast {n | n ≤ max ∧ (∃ site, .reference n site ∈ calls) ∧ ∀ a, .declare n a ∉ calls} n := by
  have hfind : s.labels.unresolved? = (List.range (max + 1)).find? fun n =>
      (sites calls n ≠ [] ∧ address? calls n = none : Bool) := by
    refine Labels.unresolved?_eq_find ?_ ?_ fun m x hx => ?_
    · rw [h.labels, if_pos le_rfl]
      rfl
    · rw [h.labels, if_neg (by omega)]
    · rw [h.labels] at hx
      split at hx
      · cases hx
        rw [labelState]
        cases address? calls m with
        | some a => simp [Label.isWaiting]
        | none => cases hs : (sites calls m).reverse <;> simp_all [Label.isWaiting]
      · cases hx
  have hwaits : ∀ m, ((∃ site, .reference m site ∈ calls) ∧ ∀ a, .declare m a ∉ calls) ↔
      sites calls m ≠ [] ∧ address? calls m = none := fun m => by
    rw [address?_eq_none, ne_eq, List.eq_nil_iff_forall_not_mem, not_forall_not]
    simp only [mem_sites]
  rw [hfind, List.find?_range_eq_some]
  simp only [IsLeast, lowerBounds, Set.mem_ofPred_eq, hwaits, decide_eq_true_eq, List.mem_range]
  constructor
  · rintro ⟨hn, hlt, hmin⟩
    refine ⟨⟨by omega, hn⟩, fun m hm => ?_⟩
    by_contra hlt'
    have hnot := hmin m (by omega)
    simp [hm.2] at hnot
  · rintro ⟨⟨hle, hn⟩, hmin⟩
    refine ⟨hn, by omega, fun m hm => ?_⟩
    by_contra hwait
    have hle' := hmin (a := m) ⟨by omega, by simpa using hwait⟩
    omega

end Linked

/-- The calls before the last one are proper if all are. -/
theorem Proper.left {size : Nat} {call : LabelCall} (h : Proper size (calls ++ [call])) :
    Proper size calls := by
  obtain ⟨hd, hin, hsmall⟩ := h
  rw [places_append] at hd hin
  exact ⟨hd.of_append_left, fun b hb => hin b (List.mem_append_left _ hb),
    fun n a ha => hsmall n a (List.mem_append_left _ ha)⟩

/-- **Every run of calls**, from new labels on, leaves labels and code linked. -/
theorem linked_performAll (max : Nat) (hcode : code.size ≤ 0x8000000000000000) :
    ∀ {calls : List LabelCall}, Proper code.size calls →
      Linked max code calls (performAll calls ⟨.new max, code⟩) := by
  intro calls
  induction calls using List.reverseRecOn with
  | nil => exact fun _ => linked_new max code
  | append_singleton calls call ih =>
    intro hcalls
    rw [performAll, List.foldl_append]
    exact (ih hcalls.left).perform hcode hcalls

/-- **The chains are sound** after every run of calls, in whatever order they refer to labels and declare
them. (No code of a machine is as large as `2 ^ 63` instructions.) The first declaration of a label
succeeds; its walk goes to exactly the sites that refer to the label so far, to each once, and changes no
other operand. A second one is refused and changes nothing, as is every call for a label out of range, and
no call fails otherwise. The sites of a declared label hold the address of its first declaration, also
those that came after it; what is no site is as it was. The label that is reported as unresolved is the
least one that was referred to and not declared. -/
theorem chains_sound (max : Nat) (hcode : code.size ≤ 0x8000000000000000)
    (hcalls : Proper code.size calls) (hs : s = performAll calls ⟨.new max, code⟩) :
    (∀ n ≤ max, (∀ a, .declare n a ∉ calls) → ∀ a, ∃ visited s',
      declareTrail n a s = .ok visited s' ∧ (declare n a).perform s = .ok () s' ∧
      visited.Nodup ∧ (∀ site, site ∈ visited ↔ .reference n site ∈ calls) ∧
      ∀ b, s'.code[b]? = if b ∈ visited then s.code[b]?.map ({ · with q := Address.toWord a })
        else s.code[b]?) ∧
    (∀ n ≤ max, ∀ a, .declare n a ∈ calls → ∀ a',
      (declare n a').perform s = .error .duplicateLabel s) ∧
    (∀ n ≤ max, ∀ site < code.size, site ∉ places calls → ∃ s', (reference n site).perform s = .ok () s') ∧
    (∀ n > max, (∀ a, (declare n a).perform s = .error .labelOutOfRange s) ∧
      ∀ site, (reference n site).perform s = .error .labelOutOfRange s) ∧
    (∀ n ≤ max, ∀ a, address? calls n = some a → ∀ site, .reference n site ∈ calls →
      s.code[site]? = code[site]?.map ({ · with q := Address.toWord a }) ∧ (Address.toWord a).toInt = a) ∧
    (∀ b, (∀ n ≤ max, .reference n b ∉ calls) → s.code[b]? = code[b]?) ∧
    ∀ n, s.labels.unresolved? = some n ↔
      IsLeast {n | n ≤ max ∧ (∃ site, .reference n site ∈ calls) ∧ ∀ a, .declare n a ∉ calls} n := by
  subst hs
  have h := linked_performAll max hcode hcalls
  refine ⟨fun n hn hnone a => ?_, fun n hn a ha a' => ?_, fun n hn site hin hfresh => ?_, fun n hn => ?_,
    fun n hn a ha site hsite => ?_, fun b hb => ?_, fun n => h.unresolved_iff⟩
  · obtain ⟨s', hrun, -, hget⟩ := h.declare hcalls.apart hn (address?_eq_none.2 hnone) a
    refine ⟨_, s', hrun, Linking.declare_of_trail hrun, ?_, fun site => ?_, fun b => ?_⟩
    · exact List.nodup_reverse.2 (hcalls.apart.sublist (sites_sublist calls n))
    · rw [List.mem_reverse, mem_sites]
    · simp only [List.mem_reverse]
      exact hget b
  · cases ha' : address? calls n with
    | none => exact absurd ha (address?_eq_none.1 ha' a)
    | some a₁ => exact h.declare_again hn ha' a'
  · obtain ⟨s', hrun, -⟩ := h.reference hn hfresh hin (by omega)
    exact ⟨s', hrun⟩
  · exact ⟨h.declare_outOfRange hn, h.reference_outOfRange hn⟩
  · exact ⟨h.resolved n hn a ha site (mem_sites.2 hsite),
      Address.toInt_toWord (hcalls.small n a (mem_of_address? ha))⟩
  · refine h.rest b fun n hn hin => hb n hn (mem_sites.1 hin)

/-- Two labels whose chains cross, one of them declared on the way. -/
def crossing : List LabelCall :=
  [.reference 1 4, .reference 2 0, .reference 1 2, .reference 2 3, .declare 1 7, .reference 1 5]

/-- What they make of six instructions. -/
def crossed : Linking := performAll crossing ⟨.new 2, Array.replicate 6 default⟩

theorem chains_sound_crossing :
    Proper 6 crossing ∧
    (∃ visited s', declareTrail 2 9 crossed = .ok visited s' ∧ (declare 2 9).perform crossed = .ok () s' ∧
      visited.Nodup ∧ ∀ site, site ∈ visited ↔ site = 0 ∨ site = 3) ∧
    (declare 1 8).perform crossed = .error .duplicateLabel crossed ∧
    (∀ site ∈ [2, 4, 5], crossed.code[site]? = some ⟨.lod, 0, 7⟩) ∧
    crossed.code[1]? = some default ∧
    crossed.labels.unresolved? = some 2 := by
  have hproper : Proper 6 crossing := by
    refine ⟨by decide, by decide, fun n a h => ?_⟩
    simp only [crossing, List.mem_cons, List.not_mem_nil, reduceCtorEq, declare.injEq, false_or, or_false]
      at h
    omega
  obtain ⟨hfirst, hsecond, -, -, hsites, hrest, hleast⟩ :=
    @chains_sound crossing (Array.replicate 6 default) crossed 2 (by decide) hproper rfl
  refine ⟨hproper, ?_, hsecond 1 (by decide) 7 (by decide) 8, fun site hsite => ?_, ?_, ?_⟩
  · obtain ⟨visited, s', htrail, hrun, hnodup, hmem, -⟩ := hfirst 2 le_rfl (by simp [crossing]) 9
    refine ⟨visited, s', htrail, hrun, hnodup, fun site => ?_⟩
    rw [hmem]
    simp [crossing]
  · have hin : reference 1 site ∈ crossing := by
      revert site
      decide
    have hlt : site < 6 := hproper.inside site (mem_places (mem_sites.2 hin))
    rw [(hsites 1 (by decide) 7 rfl site hin).1, Array.getElem?_replicate, if_pos hlt]
    rfl
  · rw [hrest 1 (by simp [crossing])]
    rfl
  · rw [hleast]
    refine ⟨⟨le_rfl, ⟨0, by decide⟩, by simp [crossing]⟩, fun m ⟨hle, ⟨site, hsite⟩, hnone⟩ => ?_⟩
    -- label 0 is nowhere referred to, and label 1 is declared
    interval_cases m
    · simp [crossing] at hsite
    · exact absurd (by decide) (hnone 7)
    · rfl

example : (declareTrail 2 9).outcome crossed = .ok [3, 0] := by decide +kernel

end LabelCall

end PMachine
