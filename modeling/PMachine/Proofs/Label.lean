import PMachine.Proofs.Action
import PMachine.Label

/-!
# Chains of references

The references to a label that is not declared yet form a chain through their operands, from the
latest to the first. The chain of a label is the list of its sites; walking it visits each site once
and touches no other instruction.

* `Labels.get?_set`: the label table after one entry changed.
* `Linking.Endless`: a walk that never ends; `Linking.patch_endless_iff`: when a walk is one.
* `Linking.trail`: the walk of a declaration, with the places that it goes to.
* `Linking.Chained`: the operands at a list of sites form a chain.
* `Linking.trail_chained`: the walk along a chain puts the address into exactly its operands.
* `Linking.declareTrail_pending`: so a declaration resolves the chain of its label.
-/

namespace PMachine

namespace Address

/-- An address below `2 ^ 63` is a word with the same number. -/
theorem toInt_toWord {a : Nat} (h : a < 0x8000000000000000) : (toWord a).toInt = a := signed_of_lt h

/-- An address below `2 ^ 63` that is written as a word is read back. -/
theorem toAddress?_toWord {a : Nat} (h : a < 0x8000000000000000) : (toWord a).toAddress? = some a := by
  unfold Word.toAddress?
  rw [toInt_toWord h, if_pos (by omega)]
  rfl

/-- No address below `2 ^ 63` is taken for the end of a chain. -/
theorem toWord_ne_chainEnd {a : Nat} (h : a < 0x8000000000000000) : toWord a ≠ Labels.chainEnd := by
  intro he
  have ht := toInt_toWord h
  rw [he] at ht
  have : (Labels.chainEnd : Word).toInt = -1 := by decide
  omega

end Address

/-- Whether a label is referred to and not declared. -/
def Label.isWaiting : Label → Bool
  | pending (some _) => true
  | _ => false

namespace Labels

/-- At first no label up to the largest one is declared, and none is referred to. -/
theorem get?_new (max n : Nat) : (new max).get? n = if n ≤ max then some (.pending none) else none := by
  unfold get? new
  rw [Array.getElem?_replicate]
  by_cases h : n ≤ max
  · rw [if_pos h, if_pos (by omega)]
  · rw [if_neg h, if_neg (by omega)]

/-- To enter a label changes no other one. -/
theorem get?_set {ls : Labels} {n : Nat} {old : Label} (h : ls.get? n = some old) (x : Label) (m : Nat) :
    (ls.set n x).get? m = if m = n then some x else ls.get? m := by
  unfold get? at h ⊢
  unfold set
  have hlt := (Array.getElem?_eq_some_iff.1 h).1
  by_cases hm : m = n
  · subst hm; rw [if_pos rfl, Array.getElem?_setIfInBounds_self_of_lt hlt]
  · rw [if_neg hm, Array.getElem?_setIfInBounds_ne (Ne.symm hm)]

/-- The unresolved label is the least one that is waiting. -/
theorem unresolved?_eq_find {ls : Labels} {max : Nat} {p : Nat → Bool}
    (hlast : (ls.get? max).isSome) (hend : ls.get? (max + 1) = none)
    (hp : ∀ n x, ls.get? n = some x → x.isWaiting = p n) :
    ls.unresolved? = (List.range (max + 1)).find? p := by
  have hsize : ls.entries.size = max + 1 := by
    have h1 : max < ls.entries.size := by simpa [get?] using hlast
    have h2 : ls.entries.size ≤ max + 1 := by simpa [get?] using hend
    omega
  have hwait : ∀ n (h : n < ls.entries.size), ls.entries[n].isWaiting = p n := fun n h =>
    hp n _ (Array.getElem?_eq_getElem h)
  have hdef : ls.unresolved? = ls.entries.findIdx? Label.isWaiting := rfl
  rw [hdef]
  cases hf : (List.range (max + 1)).find? p with
  | none =>
    rw [Array.findIdx?_eq_none_iff]
    intro x hx
    obtain ⟨n, hn, rfl⟩ := Array.mem_iff_getElem.1 hx
    rw [hwait n hn]
    simpa using List.find?_eq_none.1 hf n (List.mem_range.2 (by omega))
  | some n =>
    obtain ⟨hpn, hlt, hmin⟩ := List.find?_range_eq_some.1 hf
    have hn : n < ls.entries.size := by rw [hsize]; exact List.mem_range.1 hlt
    rw [Array.findIdx?_eq_some_iff_getElem]
    refine ⟨hn, by rw [hwait n hn]; exact hpn, fun j hj => ?_⟩
    rw [hwait j (by omega)]
    simpa using hmin j hj

end Labels

namespace Linking

/-! ### Chains that never end

Startup code may take the place of a reference before its label is declared. The walk goes wherever the
operand there leads, and may come back to where it was. -/

/-- The walk from a site on never ends: no number of steps is enough. -/
def Endless (address : Word) (site : Nat) (code : Array Instruction) : Prop :=
  ∀ steps, ∃ code', patch address steps site code = .error .endless code'

/-- The number of instructions that do not have the address. -/
def unpatched (address : Word) (code : Array Instruction) : Nat := code.countP (·.q ≠ address)

variable {address : Word} {site next a : Nat} {steps : Nat} {code code' : Array Instruction}

/-- One step of the walk. -/
theorem patch_succ (steps site : Nat) (code : Array Instruction) : patch address (steps + 1) site code =
    match code[site]? with
    | none => .error .brokenLabelChain code
    | some i =>
      if i.q = Labels.chainEnd then .ok () (code.modify site fun i => { i with q := address })
      else match i.q.toAddress? with
        | some next => patch address steps next (code.modify site fun i => { i with q := address })
        | none => .error .brokenLabelChain (code.modify site fun i => { i with q := address }) := by
  rw [patch]
  by_cases hlt : site < code.size
  · rw [Array.getElem?_eq_getElem hlt]
    exact dif_pos hlt
  · rw [Array.getElem?_eq_none (Nat.not_lt.1 hlt)]
    exact dif_neg hlt

/-- The walk goes on where the operand leads, from code in which the operand has the address. -/
theorem patch_succ_of_next {i : Instruction} (hi : code[site]? = some i) (hend : i.q ≠ Labels.chainEnd)
    (hnext : i.q.toAddress? = some next) (steps : Nat) :
    patch address (steps + 1) site code =
      patch address steps next (code.modify site fun i => { i with q := address }) := by
  simp only [patch_succ, hi, if_neg hend, hnext]

/-- A walk that has not ended after a step has gone to where the operand led. -/
theorem patch_succ_endless (h : patch address (steps + 1) site code = .error .endless code') :
    ∃ i next, code[site]? = some i ∧ i.q ≠ Labels.chainEnd ∧ i.q.toAddress? = some next ∧
      patch address steps next (code.modify site fun i => { i with q := address }) =
        .error .endless code' := by
  have hbroken : Fault.brokenLabelChain ≠ .endless := by decide
  rw [patch_succ] at h
  split at h
  · injection h with hf
    exact absurd hf hbroken
  · rename_i i hi
    split at h
    · cases h
    · rename_i hend
      split at h
      · rename_i next hnext
        exact ⟨i, next, hi, hend, hnext, h⟩
      · injection h with hf
        exact absurd hf hbroken

/-- A walk that never ends from the next place on never ends. -/
theorem endless_of_next {i : Instruction} (hi : code[site]? = some i) (hend : i.q ≠ Labels.chainEnd)
    (hnext : i.q.toAddress? = some next)
    (h : Endless address next (code.modify site fun i => { i with q := address })) :
    Endless address site code := by
  intro steps
  cases steps with
  | zero => exact ⟨code, rfl⟩
  | succ steps =>
    rw [patch_succ_of_next hi hend hnext]
    exact h steps

/-- An operand that has the address already is not changed. -/
theorem modify_of_patched {i : Instruction} (hi : code[site]? = some i) (hq : i.q = address) :
    (code.modify site fun i => { i with q := address }) = code := by
  refine Array.ext_getElem? fun b => ?_
  rw [Array.getElem?_modify]
  split
  · rename_i hb
    rw [← hb, hi, ← hq]
    rfl
  · rfl

/-- A place that leads to itself is never left. -/
theorem endless_of_self {i : Instruction} (hi : code[site]? = some i) (hq : i.q = address)
    (hend : address ≠ Labels.chainEnd) (hself : address.toAddress? = some site) :
    Endless address site code := by
  intro steps
  induction steps with
  | zero => exact ⟨code, rfl⟩
  | succ steps ih =>
    rw [patch_succ_of_next hi (hq ▸ hend) (hq ▸ hself), modify_of_patched hi hq]
    exact ih

/-- One instruction less is without the address once it is put there. -/
theorem unpatched_modify {i : Instruction} (hi : code[site]? = some i) (hq : i.q ≠ address) :
    unpatched address (code.modify site fun i => { i with q := address }) + 1 = unpatched address code := by
  obtain ⟨hlt, rfl⟩ := Array.getElem?_eq_some_iff.1 hi
  have hset : (code.modify site fun i => { i with q := address }) =
      code.set site { code[site] with q := address } := by
    refine Array.ext_getElem? fun b => ?_
    rw [Array.getElem?_modify, Array.getElem?_set]
    split
    · rename_i hb
      rw [← hb, Array.getElem?_eq_getElem hlt]
      rfl
    · rfl
  have hpos : 0 < unpatched address code :=
    Array.countP_pos_iff.2 ⟨code[site], Array.getElem_mem hlt, by simpa using hq⟩
  unfold unpatched at hpos ⊢
  rw [hset, Array.countP_set hlt, if_pos (by simpa using hq), if_neg (by simp)]
  omega

/-- Once the place that the address names has the address itself, the walk ends at an instruction that
did not have it, or never. -/
theorem endless_of_patched (hend : address ≠ Labels.chainEnd) (ha : address.toAddress? = some a) :
    ∀ (steps site : Nat) (code : Array Instruction), (code[a]?.map (·.q)) = some address →
      unpatched address code < steps → patch address steps site code = .error .endless code' →
      Endless address site code := by
  intro steps
  induction steps with
  | zero => intro site code _ hlt; omega
  | succ steps ih =>
    intro site code hpatched hlt h
    obtain ⟨i, next, hi, hq, hnext, hrest⟩ := patch_succ_endless h
    obtain ⟨j, hj, hjq⟩ := Option.map_eq_some_iff.1 hpatched
    refine endless_of_next hi hq hnext ?_
    by_cases hback : i.q = address
    · -- a place that has been visited leads to the one that the address names
      rw [hback, ha] at hnext
      cases hnext
      rw [modify_of_patched hi hback]
      exact endless_of_self hj hjq hend ha
    · have hless := unpatched_modify hi hback
      refine ih next _ ?_ (by omega) hrest
      rw [Array.getElem?_modify]
      split
      · rw [hj]
        rfl
      · exact hpatched

/-- **A walk that goes on long enough never ends**: one step for each instruction that does not have the
address yet, and two more. -/
theorem endless_of_unpatched : ∀ (steps site : Nat) (code : Array Instruction),
    unpatched address code + 2 ≤ steps → patch address steps site code = .error .endless code' →
    Endless address site code := by
  intro steps
  induction steps with
  | zero => intro site code hle; omega
  | succ steps ih =>
    intro site code hle h
    obtain ⟨i, next, hi, hq, hnext, hrest⟩ := patch_succ_endless h
    refine endless_of_next hi hq hnext ?_
    by_cases hback : i.q = address
    · rw [modify_of_patched hi hback] at hrest ⊢
      rw [hback] at hq hnext
      -- the next place is the one that the address names; the one after it is the last that is new
      obtain ⟨steps, rfl⟩ : ∃ n, steps = n + 1 := ⟨steps - 1, by omega⟩
      obtain ⟨j, after, hj, hjend, hafter, hrest'⟩ := patch_succ_endless hrest
      by_cases hself : j.q = address
      · exact endless_of_self hj hself hq hnext
      · have hless := unpatched_modify hj hself
        refine endless_of_next hj hjend hafter (endless_of_patched hq hnext steps after _ ?_ (by omega) hrest')
        rw [Array.getElem?_modify, if_pos rfl, hj]
        rfl
    · have hless := unpatched_modify hi hback
      exact ih next _ (by omega) hrest

/-- **The bound on the steps is right**: a walk that has not ended after as many steps as there are
instructions, and two more, never ends. -/
theorem patch_endless_iff (h : code.size + 2 ≤ steps) :
    (∃ code', patch address steps site code = .error .endless code') ↔ Endless address site code := by
  refine ⟨fun ⟨code', hrun⟩ => ?_, fun hendless => hendless steps⟩
  have hle : unpatched address code ≤ code.size := Array.countP_le_size
  exact endless_of_unpatched steps site code (by omega) hrun

/-- A walk that has ended does not depend on the bound. -/
theorem patch_stable : ∀ {steps site : Nat} {code : Array Instruction},
    (∀ code', patch address steps site code ≠ .error .endless code') → ∀ more,
      patch address (steps + more) site code = patch address steps site code := by
  intro steps
  induction steps with
  | zero => intro site code h; exact absurd rfl (h code)
  | succ steps ih =>
    intro site code h more
    rw [Nat.add_right_comm, patch_succ]
    rw [patch_succ] at h ⊢
    split
    · rfl
    · rename_i i hi
      simp only [hi] at h
      split
      · rfl
      · rename_i hend
        rw [if_neg hend] at h
        split
        · rename_i next hnext
          simp only [hnext] at h
          exact ih h more
        · rfl

/-- **A declaration never ends** just if the chain of its label does not. -/
theorem declare_endless_iff {label address : Nat} {s : Linking} :
    (∃ s', declare label address s = .error .endless s') ↔
      ∃ site, s.labels.get? label = some (.pending (some site)) ∧
        Endless (Address.toWord address) site s.code := by
  have hlabels : Fault.labelOutOfRange ≠ .endless ∧ Fault.duplicateLabel ≠ .endless := by decide
  cases hlabel : s.labels.get? label with
  | none => simp [declare, hlabel, hlabels.1]
  | some known =>
    cases known with
    | declared v => simp [declare, hlabel, hlabels.2]
    | pending latest =>
      cases latest with
      | none => simp [declare, hlabel]
      | some site =>
        simp only [declare, hlabel, Action.zoom, Option.some.injEq, Label.pending.injEq, exists_eq_left']
        rw [← patch_endless_iff (Nat.le_refl _)]
        cases patch (Address.toWord address) (s.code.size + 2) site s.code with
        | ok a code => simp
        | error f code => simp

/-! ### The walk with its places -/

/-- The walk of `patch`, with the places that it goes to in their order. -/
def trail (address : Word) : (steps : Nat) → (site : Nat) → Action (Array Instruction) (List Nat)
  | 0, _ => throw .endless
  | steps + 1, site => fun code =>
    if h : site < code.size then
      let previous := code[site].q
      let code := code.modify site fun i => { i with q := address }
      if previous = Labels.chainEnd then .ok [site] code
      else match previous.toAddress? with
        | some next => (do
            let more ← trail address steps next
            return site :: more) code
        | none => .error .brokenLabelChain code
    else .error .brokenLabelChain code

/-- The declaration of a label, with the places that its walk goes to in their order. -/
def declareTrail (label address : Nat) : Action Linking (List Nat) := fun s =>
  match s.labels.get? label with
  | none => .error .labelOutOfRange s
  | some (.declared _) => .error .duplicateLabel s
  | some (.pending latest) =>
    let s := { s with labels := s.labels.set label (.declared address) }
    match latest with
    | none => .ok [] s
    | some site =>
      let resolve := trail (Address.toWord address) (s.code.size + 2) site
      resolve.zoom (·.code) (fun code s => { s with code }) s

/-- To note the places does not change the walk. -/
theorem patch_eq_trail (address : Word) : ∀ (steps site : Nat) (code : Array Instruction),
    patch address steps site code = (do
      let _ ← trail address steps site
      return) code := by
  intro steps
  induction steps with
  | zero => intro site code; rfl
  | succ steps ih =>
    intro site code
    rw [patch, Action.bind_apply, trail]
    by_cases hlt : site < code.size
    · simp only [dif_pos hlt]
      by_cases hend : code[site].q = Labels.chainEnd
      · simp only [if_pos hend]
        rfl
      · simp only [if_neg hend]
        cases code[site].q.toAddress? with
        | none => rfl
        | some next =>
          simp only [ih, Action.bind_apply]
          cases trail address steps next _ <;> rfl
    · simp only [dif_neg hlt]

/-- A declaration with its places is the declaration. -/
theorem declare_of_trail {label address : Nat} {s s' : Linking} {visited : List Nat}
    (h : declareTrail label address s = .ok visited s') : declare label address s = .ok () s' := by
  unfold declareTrail at h
  unfold declare
  cases hlabel : s.labels.get? label with
  | none =>
    rw [hlabel] at h
    cases h
  | some known =>
    rw [hlabel] at h
    cases known with
    | declared a => cases h
    | pending latest =>
      cases latest with
      | none => cases h; rfl
      | some site =>
        have hpatch := patch_eq_trail (Address.toWord address) (s.code.size + 2) site s.code
        simp only [Action.zoom] at h ⊢
        rw [hpatch, Action.bind_apply]
        cases hrun : trail (Address.toWord address) (s.code.size + 2) site s.code with
        | ok places code =>
          rw [hrun] at h
          cases h
          rfl
        | error f code =>
          rw [hrun] at h
          cases h

/-! ### Chains -/

/-- The operand of a reference after earlier ones, which are listed latest first. -/
def chainOperand (earlier : List Nat) : Word := earlier.head?.elim Labels.chainEnd Address.toWord

/-- The operands at the sites, latest first, form a chain. -/
def Chained (code : Array Instruction) : List Nat → Prop
  | [] => True
  | site :: earlier =>
    (∃ i, code[site]? = some i ∧ i.q = chainOperand earlier) ∧ site < 0x8000000000000000 ∧
      Chained code earlier

/-- The places of a chain are in the code. -/
theorem Chained.lt_size : ∀ {sites : List Nat}, Chained code sites → ∀ a ∈ sites, a < code.size := by
  intro sites
  induction sites with
  | nil => intro _ a ha; simp at ha
  | cons site earlier ih =>
    rintro ⟨⟨i, hi, -⟩, -, hrest⟩ a ha
    rcases List.mem_cons.1 ha with rfl | ha
    · exact (Array.getElem?_eq_some_iff.1 hi).1
    · exact ih hrest a ha

/-- A chain only depends on the instructions at its sites. -/
theorem Chained.congr : ∀ {sites : List Nat}, Chained code sites →
    (∀ a ∈ sites, code'[a]? = code[a]?) → Chained code' sites := by
  intro sites
  induction sites with
  | nil => intro _ _; trivial
  | cons site earlier ih =>
    rintro ⟨⟨i, hi, hq⟩, hlt, hrest⟩ hcode
    refine ⟨⟨i, ?_, hq⟩, hlt, ih hrest fun a ha => hcode a (List.mem_cons_of_mem _ ha)⟩
    rw [hcode site List.mem_cons_self, hi]

/-- A chain has no more sites than there are instructions. -/
theorem Chained.length_le {sites : List Nat} (h : Chained code sites) (hn : sites.Nodup) :
    sites.length ≤ code.size := by
  have hsub : sites ⊆ List.range code.size := fun a ha => List.mem_range.2 (h.lt_size a ha)
  have := (hn.subperm hsub).length_le
  rwa [List.length_range] at this

/-- **Walking a chain** goes to each of its sites once, from the latest to the first. It puts the address
into the operand there, and changes nothing else. -/
theorem trail_chained (address : Word) : ∀ (earlier : List Nat) (site steps : Nat)
    (code : Array Instruction), Chained code (site :: earlier) → (site :: earlier).Nodup →
      (site :: earlier).length ≤ steps →
      ∃ code', trail address steps site code = .ok (site :: earlier) code' ∧ code'.size = code.size ∧
        ∀ a, code'[a]? = if a ∈ site :: earlier then code[a]?.map ({ · with q := address })
          else code[a]? := by
  intro earlier
  induction earlier with
  | nil =>
    rintro site steps code ⟨⟨i, hi, hq⟩, -, -⟩ - hsteps
    obtain ⟨steps, rfl⟩ : ∃ n, steps = n + 1 := ⟨steps - 1, by simp at hsteps; omega⟩
    obtain ⟨hlt, hget⟩ := Array.getElem?_eq_some_iff.1 hi
    refine ⟨code.modify site fun i => { i with q := address }, ?_, Array.size_modify .., ?_⟩
    · have hend : code[site].q = Labels.chainEnd := by rw [hget, hq]; rfl
      rw [trail]
      simp only [dif_pos hlt, hend, if_true]
    · intro a
      rw [Array.getElem?_modify]
      by_cases ha : site = a
      · rw [if_pos ha, if_pos (List.mem_singleton.2 ha.symm)]
      · rw [if_neg ha, if_neg fun h => ha (List.mem_singleton.1 h).symm]
  | cons next earlier ih =>
    rintro site steps code ⟨⟨i, hi, hq⟩, -, hrest⟩ hnodup hsteps
    obtain ⟨steps, rfl⟩ : ∃ n, steps = n + 1 := ⟨steps - 1, by simp at hsteps; omega⟩
    obtain ⟨hlt, hget⟩ := Array.getElem?_eq_some_iff.1 hi
    obtain ⟨hsite, hnodup⟩ := List.nodup_cons.1 hnodup
    have hnext : next < 0x8000000000000000 := hrest.2.1
    have hprev : code[site].q = Address.toWord next := by rw [hget, hq]; rfl
    set code₁ := code.modify site fun i => { i with q := address } with hcode₁
    have hget₁ : ∀ a, code₁[a]? = if site = a then code[a]?.map ({ · with q := address })
        else code[a]? := fun a => by rw [hcode₁, Array.getElem?_modify]
    -- the rest of the chain does not come back to this site
    have hrest₁ : Chained code₁ (next :: earlier) := by
      refine hrest.congr fun a ha => ?_
      rw [hget₁, if_neg (by rintro rfl; exact hsite ha)]
    obtain ⟨code', hrun, hsize, hget'⟩ := ih next steps code₁ hrest₁ hnodup (by simp at hsteps ⊢; omega)
    refine ⟨code', ?_, by rw [hsize, hcode₁, Array.size_modify], ?_⟩
    · rw [trail]
      simp only [dif_pos hlt, hprev, if_neg (Address.toWord_ne_chainEnd hnext),
        Address.toAddress?_toWord hnext]
      exact Action.bind_of_ok hrun
    · intro a
      rw [hget', hget₁]
      by_cases ha : site = a
      · subst ha
        rw [if_neg hsite, if_pos rfl, if_pos List.mem_cons_self]
      · rw [if_neg ha]
        by_cases hm : a ∈ next :: earlier
        · rw [if_pos hm, if_pos (List.mem_cons_of_mem _ hm)]
        · rw [if_neg hm, if_neg (by simpa [Ne.symm ha] using hm)]

/-- **A declaration resolves the chain of its label**: it goes to the sites of the chain, puts the address
into the operands there and into no other, and the label has its value from then on. -/
theorem declareTrail_pending {ls : Labels} {n : Nat} {sites : List Nat}
    (hn : ls.get? n = some (.pending sites.head?)) (hc : Chained code sites) (hd : sites.Nodup)
    (address : Nat) :
    ∃ code', declareTrail n address ⟨ls, code⟩ = .ok sites ⟨ls.set n (.declared address), code'⟩ ∧
      code'.size = code.size ∧
      ∀ a, code'[a]? = if a ∈ sites then code[a]?.map ({ · with q := Address.toWord address })
        else code[a]? := by
  cases sites with
  | nil =>
    refine ⟨code, ?_, rfl, fun a => (if_neg List.not_mem_nil).symm⟩
    simp only [declareTrail, hn, List.head?_nil]
  | cons site earlier =>
    have hlen := hc.length_le hd
    obtain ⟨code', hrun, hsize, hget⟩ :=
      trail_chained (Address.toWord address) earlier site (code.size + 2) code hc hd (by omega)
    refine ⟨code', ?_, hsize, hget⟩
    simp only [declareTrail, hn, List.head?_cons]
    exact Action.zoom_of_ok hrun

/-- The first declaration resolves the references in the chain and nothing else. -/
theorem declare_pending {ls : Labels} {n : Nat} {sites : List Nat}
    (hn : ls.get? n = some (.pending sites.head?)) (hc : Chained code sites) (hd : sites.Nodup)
    (address : Nat) :
    ∃ code', declare n address ⟨ls, code⟩ = .ok () ⟨ls.set n (.declared address), code'⟩ ∧
      code'.size = code.size ∧
      ∀ a, code'[a]? = if a ∈ sites then code[a]?.map ({ · with q := Address.toWord address })
        else code[a]? := by
  obtain ⟨code', hrun, hsize, hget⟩ := declareTrail_pending hn hc hd address
  exact ⟨code', declare_of_trail hrun, hsize, hget⟩

/-- A label that is declared is refused the second time. -/
theorem declare_declared {ls : Labels} {n v : Nat} (hn : ls.get? n = some (.declared v))
    (address : Nat) : declare n address ⟨ls, code⟩ = .error .duplicateLabel ⟨ls, code⟩ := by
  simp only [declare, hn]

/-- A label that is out of range is refused. -/
theorem declare_outOfRange {ls : Labels} {n : Nat} (hn : ls.get? n = none) (address : Nat) :
    declare n address ⟨ls, code⟩ = .error .labelOutOfRange ⟨ls, code⟩ := by
  simp only [declare, hn]

end Linking

end PMachine
