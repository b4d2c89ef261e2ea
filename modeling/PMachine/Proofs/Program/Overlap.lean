import PMachine.Proofs.Program.Agreement
import PMachine.Proofs.Program.Induction

/-!
# Parts that meet

The startup code is assembled last and from address 0 on. Nothing keeps it from going on past the
place that is left for it, and then it takes the addresses at which the main part starts. What the
code shows at an address is the line that took the address last.

* `Assembly.Stands`: the code shows every line whose address no later line has taken.
* `Program.main_stands`: so an instruction of the main part is lost where the startup part reaches it
  with another one, and only there.
-/

namespace PMachine

open Entry
open Instruction (outline)

namespace Assembly

/-- The code shows every line whose address no later line has taken. -/
structure Stands (es : List Entry) (s : Assembly) : Prop where
  code : ∀ before e after st, es = before ++ e :: after → e.statement? = some st →
    e.address ∉ addresses after → s.code[e.address]?.map outline = some (st.op, st.p)
  statements : ∀ e ∈ es, e.isInstruction = true → ∃ st, e.statement? = some st
  pc_le : s.pc ≤ s.code.size

variable {es : List Entry} {s s' : Assembly} {e : Entry}

/-- A line that is no instruction leaves the code standing. -/
theorem Stands.skip (h : Stands es s) (hst : e.statement? = none) (hi : e.isInstruction = false)
    (hcode : s'.code.map outline = s.code.map outline) (hpc : s'.pc = s.pc) :
    Stands (es ++ [e]) s' := by
  have hget : ∀ a : Nat, s'.code[a]?.map outline = s.code[a]?.map outline := by
    intro a
    rw [← Array.getElem?_map, ← Array.getElem?_map, hcode]
  refine ⟨?_, ?_, ?_⟩
  · intro before x after st hes hx hfree
    rcases split_append hes with ⟨-, rfl, -⟩ | ⟨rest, rfl, hes'⟩
    · rw [hst] at hx
      cases hx
    · rw [hget]
      refine h.code before x rest st hes' hx fun hin => hfree ?_
      rw [addresses_append]
      exact List.mem_append_left _ hin
  · intro x hx hxi
    rcases List.mem_append.1 hx with hx | hx
    · exact h.statements x hx hxi
    · rw [List.mem_singleton.1 hx, hi] at hxi
      cases hxi
  · have hsize : s'.code.size = s.code.size := by
      simpa using congrArg Array.size hcode
    rw [hpc, hsize]
    exact h.pc_le

/-- An instruction takes its address from whatever stood there. -/
theorem Stands.place (h : Stands es s) {st : Statement} {i : Instruction} (hst : e.statement? = some st)
    (ha : e.address = s.pc) (hi : i.outline = (st.op, st.p))
    (hcode : s'.code = Assembly.place s.pc i s.code) (hpc : s'.pc = s.pc + 1) :
    Stands (es ++ [e]) s' := by
  refine ⟨?_, ?_, ?_⟩
  · intro before x after st' hes hx hfree
    rw [hcode, getElem?_place h.pc_le]
    rcases split_append hes with ⟨-, rfl, -⟩ | ⟨rest, rfl, hes'⟩
    · rw [hst] at hx
      cases hx
      rw [if_pos ha, Option.map_some, hi]
    · rw [addresses_append, if_pos (isInstruction_of_statement? hst), List.mem_append, not_or,
        List.mem_singleton, ha] at hfree
      -- only a line that no later one has replaced is claimed to stand
      rw [if_neg hfree.2]
      exact h.code before x rest st' hes' hx hfree.1
  · intro x hx hxi
    rcases List.mem_append.1 hx with hx | hx
    · exact h.statements x hx hxi
    · rw [List.mem_singleton.1 hx]
      exact ⟨st, hst⟩
  · rw [hpc, hcode]
    exact lt_size_place h.pc_le i

/-- Before the first line nothing has to stand. -/
theorem stands_new (l : Limits) : Stands [] { new l with pc := Program.mainStart } := by
  refine ⟨?_, ?_, by simp [new]⟩
  · intro before e after st h; simp at h
  · intro e he; simp at he

/-- A line leaves standing all that it does not replace. -/
theorem survives_stands : Survives Stands where
  restart := by
    intro es s s' h hcode _ _ hpc
    refine ⟨by rw [hcode]; exact h.code, h.statements, ?_⟩
    have := h.pc_le
    rw [hcode]
    omega
  line := by
    intro es s text s' h hrun
    rcases line_cases hrun with ⟨hread, rfl⟩ | ⟨n, value, hread, hdecl⟩ | ⟨st, hread, -, hplace⟩
    · have hc : content? ⟨s'.lines, s'.pc, text⟩ = some .comment := content?_of_read hread
      exact h.skip (by rw [statement?, hc]) (isInstruction_eq hc) rfl rfl
    · have hc : content? ⟨s.lines, s.pc, text⟩ = some (.declaration n value) := content?_of_read hread
      obtain ⟨hcode, hpc, -⟩ := declareLabel_ok hdecl
      exact h.skip (by rw [statement?, hc]) (isInstruction_eq hc) hcode hpc
    · have hc : content? ⟨s.lines, s.pc, text⟩ = some (.instruction st) := content?_of_read hread
      obtain ⟨i, hi, hcode, hpc, -⟩ := placeStatement_ok hplace
      exact h.place (by rw [statement?, hc]) rfl hi hcode hpc

theorem follows_start (l : Limits) : Follows l [] { new l with pc := Program.mainStart } :=
  (follows_new l).restart rfl rfl rfl (by simp [new])

/-- With no address taken twice, a program under construction is what the accepted lines make it. -/
theorem survives_follows {l : Limits} {all : List Entry} (hapart : Apart l all) :
    Survives fun es s => es <+: all → Follows l es s ∧ ∀ a ∈ addresses es, a < l.codeSize where
  restart := by
    intro es s s' h hcode hstore hlabels hpc hpre
    obtain ⟨hfol, hroom⟩ := h hpre
    have := hfol.pc_le
    exact ⟨hfol.restart hstore hlabels hcode (by omega), hroom⟩
  line := by
    intro es s text s' h hrun hpre
    obtain ⟨hfol, hroom⟩ := h ((List.prefix_append _ _).trans hpre)
    have hsub : Apart l (es ++ [⟨s.lines, s.pc, text⟩]) := by
      obtain ⟨more, rfl⟩ := hpre
      exact hapart.left
    cases hf : fault? l es ⟨s.lines, s.pc, text⟩ with
    | some f =>
      have hbad : Assembly.line text s = .error f s := hfol.line_fault rfl hf
      rw [hbad] at hrun
      cases hrun
    | none =>
      have hsmall : ∀ a ∈ addresses es, a < 0x8000000000000000 := fun a ha =>
        hsub.left.small a ha (hroom a ha)
      obtain ⟨s₁, hrun₁, hfol₁, -⟩ := hfol.line rfl hsub.nodup hsmall hf
      have hsame : Assembly.line text s = .ok () s₁ := hrun₁
      rw [hsame] at hrun
      cases hrun
      refine ⟨hfol₁, fun a ha => ?_⟩
      rw [addresses_append, List.mem_append] at ha
      rcases ha with ha | ha
      · exact hroom a ha
      · exact room_of_fault? hf ha

end Assembly

namespace Program

variable {l : Limits} {text : Source} {p : Program} {rest : List UInt8}

/-- Two lines of one part do not share an address. -/
theorem nodup_addresses_number (texts : List LineText) (line start : Nat) :
    (addresses (number line start texts)).Nodup := by
  rw [addresses_number]
  exact List.nodup_range'

/-- In numbered lines no later line has the address of an earlier one. -/
theorem not_mem_addresses_after {line start : Nat} {texts : List LineText} {before after : List Entry}
    {e : Entry} (h : number line start texts = before ++ e :: after) (hi : e.isInstruction = true) :
    e.address ∉ addresses after := by
  have hd := nodup_addresses_number texts line start
  rw [h, ← List.singleton_append, addresses_append_list, addresses_append_list] at hd
  have hone : e.address ∈ addresses [e] :=
    List.mem_map_of_mem (List.mem_filter.2 ⟨List.mem_cons_self, hi⟩)
  exact fun hin => List.disjoint_of_nodup_append (List.Nodup.of_append_right hd) hone hin

/-- A loaded program shows every line of its startup part. -/
theorem startup_stands (h : load l text = .ok (p, rest)) {e : Entry} (he : e ∈ startupLayout text.bytes)
    {st : Statement} (hst : e.statement? = some st) :
    p.code[e.address]?.map outline = some (st.op, st.p) := by
  obtain ⟨s, hs, rfl⟩ := load_induction Assembly.survives_stands (Assembly.stands_new l) h
  obtain ⟨before, after, hsplit⟩ := List.append_of_mem he
  refine hs.code (mainLayout text.bytes ++ before) e after st ?_ hst
    (not_mem_addresses_after hsplit (isInstruction_of_statement? hst))
  rw [layout, hsplit, List.append_assoc]

/-- It shows a line of its main part that the startup part does not reach. -/
theorem main_stands_of_not_mem (h : load l text = .ok (p, rest)) {e : Entry}
    (he : e ∈ mainLayout text.bytes) {st : Statement} (hst : e.statement? = some st)
    (hfree : e.address ∉ addresses (startupLayout text.bytes)) :
    p.code[e.address]?.map outline = some (st.op, st.p) := by
  obtain ⟨s, hs, rfl⟩ := load_induction Assembly.survives_stands (Assembly.stands_new l) h
  obtain ⟨before, after, hsplit⟩ := List.append_of_mem he
  refine hs.code before e (after ++ startupLayout text.bytes) st ?_ hst ?_
  · rw [layout, hsplit, List.append_assoc, List.cons_append]
  · rw [addresses_append_list, List.mem_append, not_or]
    exact ⟨not_mem_addresses_after hsplit (isInstruction_of_statement? hst), hfree⟩

/-- In a text that was loaded, every instruction can be read. -/
theorem statement?_of_load (h : load l text = .ok (p, rest)) {e : Entry} (he : e ∈ layout text.bytes)
    (hi : e.isInstruction = true) : ∃ st, e.statement? = some st := by
  obtain ⟨s, hs, -⟩ := load_induction Assembly.survives_stands (Assembly.stands_new l) h
  exact hs.statements e he hi

/-- **An instruction of the main part is still in place** where the startup part does not reach its
address, or reaches it with the same operation and first operand, and nowhere else. Where the parts
do not meet, all instructions are complete but for the operands that stand for labels. -/
theorem main_stands_iff (l : Limits) (text : Source) (p : Program) (rest : List UInt8)
    (h : load l text = .ok (p, rest)) :
    (∀ e ∈ mainLayout text.bytes, ∀ st, e.statement? = some st →
      (p.code[e.address]?.map outline = some (st.op, st.p) ↔
        ∀ e' ∈ startupLayout text.bytes, e'.address = e.address → ∀ st', e'.statement? = some st' →
          (st'.op, st'.p) = (st.op, st.p))) ∧
    (addresses (mainLayout text.bytes) = [] ∨ (addresses (startupLayout text.bytes)).length ≤ mainStart →
      min l.codeSize (mainStart + text.bytes.length) ≤ 0x8000000000000000 →
      ∀ before e after st, layout text.bytes = before ++ e :: after → e.statement? = some st →
        ∃ label, p.code[e.address]? = some (st.instruction l label (constants before))) := by
  constructor
  · intro e he st hst
    constructor
    · intro hin e' he' haddr st' hst'
      have hstartup := startup_stands h he' hst'
      rw [haddr, hin, Option.some.injEq] at hstartup
      exact hstartup.symm
    · intro hsame
      by_cases hreach : e.address ∈ addresses (startupLayout text.bytes)
      · -- a line of the startup part stands there now, and it shows the same
        obtain ⟨e', hf, haddr⟩ := List.mem_map.1 hreach
        obtain ⟨he', hi⟩ := List.mem_filter.1 hf
        obtain ⟨st', hst'⟩ := statement?_of_load h (List.mem_append_right _ he') hi
        rw [← hsame e' he' haddr st' hst', ← haddr]
        exact startup_stands h he' hst'
      · exact main_stands_of_not_mem h he hst hreach
  · intro hmeet hsize before e after st hsplit hst
    obtain ⟨s, hs, rfl⟩ := load_induction (Assembly.survives_follows (apart_layout hmeet hsize))
      (fun _ => ⟨Assembly.follows_start l, by simp [addresses]⟩) h
    exact ⟨_, (hs List.prefix_rfl).1.code before e after st hsplit hst⟩

/-- A main part of one instruction, and a startup part of four. -/
def meetingText : List Char := " ADI\n\n STP\n STP\n STP\n STP\n".toList

/-- Limits with room for this text and for no constant or label besides. -/
def meetingLimits : Limits := { stackSize := 8, pools := {}, codeSize := 8, maxLabel := 0 }

theorem main_stands_iff_meetingText : ∃ p rest,
    load meetingLimits ⟨Lines.encode meetingText, none⟩ = .ok (p, rest) ∧
      p.code[3]?.map outline ≠ some (.adi, 0) := by
  obtain ⟨⟨p, rest⟩, h⟩ : ∃ x, load meetingLimits ⟨Lines.encode meetingText, none⟩ = .ok x := by
    cases hl : load meetingLimits ⟨Lines.encode meetingText, none⟩ with
    | ok x => exact ⟨x, rfl⟩
    | error f =>
      have hok : (load meetingLimits ⟨Lines.encode meetingText, none⟩).isOk = true := by decide +kernel
      rw [hl] at hok
      cases hok
  refine ⟨p, rest, h, fun hin => ?_⟩
  have hall := ((main_stands_iff _ _ p rest h).1 ⟨1, 3, " ADI".toList⟩ (by decide +kernel)
    (.plain ⟨.adi, 0, 0⟩) (by decide +kernel)).1 hin
  have hsame := hall ⟨6, 3, " STP".toList⟩ (by decide +kernel) rfl (.plain ⟨.stp, 0, 0⟩) (by decide +kernel)
  cases hsame

end Program

end PMachine
