import PMachine.Proofs.Program.Loading

/-!
# Induction over a loaded text

A text that is loaded is one whose lines were all accepted, whatever its bytes are and however its
source ends. What holds before the first line and survives every line that is accepted holds of the
program.

* `Assembly.line_cases`: what an accepted line does.
* `Program.load_induction`: induction over the lines of a loaded text.
-/

namespace PMachine

open Entry

/-- An instruction without its second operand. -/
def Instruction.outline (i : Instruction) : Opcode × Nat := (i.op, i.p)

open Instruction (outline)

/-! ### Accepted lines -/

namespace Linking

variable {code code' : Array Instruction}

/-- Walking a chain changes second operands only, wherever it leads. -/
theorem patch_outline {address : Word} : ∀ {steps site : Nat} {code : Array Instruction},
    patch address steps site code = .ok () code' → code'.map outline = code.map outline := by
  intro steps
  -- each round changes the operand at one site and goes on to another
  induction steps with
  | zero => intro site code h; cases h
  | succ steps ih =>
    intro site code h
    have hmodify : (code.modify site fun i => { i with q := address }).map outline =
        code.map outline := by
      refine Array.ext_getElem? fun a => ?_
      rw [Array.getElem?_map, Array.getElem?_map, Array.getElem?_modify]
      split
      · rw [Option.map_map]; rfl
      · rfl
    rw [patch] at h
    by_cases hlt : site < code.size
    · simp only [dif_pos hlt] at h
      split at h
      · cases h
        exact hmodify
      · split at h
        · rw [ih h, hmodify]
        · cases h
    · simp only [dif_neg hlt] at h
      cases h

theorem declare_outline {n address : Nat} {t t' : Linking} (h : declare n address t = .ok () t') :
    t'.code.map outline = t.code.map outline := by
  unfold declare at h
  split at h
  · cases h
  · cases h
  · split at h
    · cases h; rfl
    · simp only [Action.zoom] at h
      split at h
      · rename_i hrun
        cases h
        exact patch_outline hrun
      · cases h

theorem patch_error {address : Word} {f : Fault} : ∀ {steps site : Nat} {code : Array Instruction},
    patch address steps site code = .error f code' → f = .brokenLabelChain ∨ f = .endless := by
  intro steps
  induction steps with
  | zero => intro site code h; cases h; exact Or.inr rfl
  | succ steps ih =>
    intro site code h
    rw [patch] at h
    by_cases hlt : site < code.size
    · simp only [dif_pos hlt] at h
      split at h
      · cases h
      · split at h
        · exact ih h
        · cases h; exact Or.inl rfl
    · simp only [dif_neg hlt] at h
      cases h
      exact Or.inl rfl

/-- A declaration that is refused has changed nothing, unless a chain is broken or endless. -/
theorem declare_error {n address : Nat} {f : Fault} {t t' : Linking}
    (h : declare n address t = .error f t') : (f = .brokenLabelChain ∨ f = .endless) ∨ t' = t := by
  unfold declare at h
  split at h
  · cases h; exact Or.inr rfl
  · cases h; exact Or.inr rfl
  · split at h
    · cases h
    · simp only [Action.zoom] at h
      split at h
      · cases h
      · rename_i hrun
        cases h
        exact Or.inl (patch_error hrun)

end Linking

namespace Statement

/-- However a statement is assembled, its operation and its first operand are its own. -/
theorem assemble_outline {st : Statement} {pc : Nat} {t t' : Tables} {i : Instruction}
    (h : st.assemble pc t = .ok i t') : i.outline = (st.op, st.p) := by
  cases href : st.reference? with
  | some n =>
    rw [assemble_reference href] at h
    split at h
    · cases h; rfl
    · cases h
  | none =>
    cases hc : st.constant? with
    | some c =>
      rw [assemble_constant hc] at h
      split at h
      · cases h; rfl
      · cases h
    | none =>
      rw [assemble_plain (l := default) href hc (fun _ => 0) []] at h
      cases h
      rfl

end Statement

namespace Assembly

variable {l : Limits} {es : List Entry} {s s' : Assembly}

/-- A declaration that is accepted, also one that is ignored, leaves the code as it is but for second
operands. -/
theorem declareLabel_ok {n : Nat} {value : Option Nat} (h : declareLabel n value s = .ok () s') :
    s'.code.map outline = s.code.map outline ∧ s'.pc = s.pc ∧ s'.lines = s.lines := by
  simp only [declareLabel, Action.recover, onLinking, Action.zoom] at h
  cases hrun : Linking.declare n (value.getD s.pc) ⟨s.labels, s.code⟩ with
  | ok _ t =>
    simp only [hrun] at h
    cases h
    exact ⟨Linking.declare_outline hrun, rfl, rfl⟩
  | error f t =>
    simp only [hrun] at h
    -- only a duplicate is not fatal, and it has changed nothing
    by_cases hf : f.isFatal = true
    · rw [if_pos hf] at h
      cases h
    · rw [if_neg hf] at h
      cases h
      rcases Linking.declare_error hrun with (rfl | rfl) | rfl
      · exact absurd rfl hf
      · exact absurd rfl hf
      · exact ⟨rfl, rfl, rfl⟩

/-- An instruction that is accepted goes to the next address. -/
theorem placeStatement_ok {st : Statement} (h : placeStatement st s = .ok () s') :
    ∃ i : Instruction, i.outline = (st.op, st.p) ∧ s'.code = place s.pc i s.code ∧
      s'.pc = s.pc + 1 ∧ s'.lines = s.lines := by
  simp only [placeStatement, onTables, Action.zoom] at h
  cases hrun : st.assemble s.pc ⟨s.store, s.labels⟩ with
  | ok i t =>
    simp only [hrun] at h
    cases h
    exact ⟨i, Statement.assemble_outline hrun, rfl, rfl, rfl⟩
  | error f t =>
    simp only [hrun] at h
    cases h

/-- **An accepted line** is a comment, a declaration or an instruction. -/
theorem line_cases {text : LineText} (h : line text s = .ok () s') :
    (Line.read text = .ok .comment ∧ s' = s) ∨
    (∃ n value, Line.read text = .ok (.declaration n value) ∧ declareLabel n value s = .ok () s') ∨
    ∃ st, Line.read text = .ok (.instruction st) ∧ s.pc < s.store.limits.codeSize ∧
      placeStatement st s = .ok () s' := by
  rw [line_eq] at h
  by_cases hfull : text.head? = some ' ' ∧ s.store.limits.codeSize ≤ s.pc
  · rw [if_pos hfull] at h
    cases h
  rw [if_neg hfull] at h
  cases hread : Line.read text with
  | error f => rw [hread] at h; cases h
  | ok x =>
    rw [hread] at h
    cases x with
    | comment => cases h; exact Or.inl ⟨rfl, rfl⟩
    | declaration n value => exact Or.inr (Or.inl ⟨n, value, rfl, h⟩)
    | instruction st =>
      have hhead : text.head? = some ' ' := (Line.head?_of_read hread).2 rfl
      exact Or.inr (Or.inr ⟨st, rfl, by by_contra hge; exact hfull ⟨hhead, by omega⟩, h⟩)

/-- An accepted line takes an address if it is an instruction. -/
theorem line_pc {text : LineText} (h : line text s = .ok () s') :
    s'.pc = (if text.head? = some ' ' then s.pc + 1 else s.pc) ∧ s'.lines = s.lines := by
  rcases line_cases h with ⟨hread, rfl⟩ | ⟨n, value, hread, hrun⟩ | ⟨st, hread, -, hrun⟩
  · rw [if_neg (by rw [Line.head?_of_read hread]; exact Bool.false_ne_true)]
    exact ⟨rfl, rfl⟩
  · obtain ⟨-, hpc, hlines⟩ := declareLabel_ok hrun
    rw [if_neg (by rw [Line.head?_of_read hread]; exact Bool.false_ne_true)]
    exact ⟨hpc, hlines⟩
  · obtain ⟨-, -, -, hpc, hlines⟩ := placeStatement_ok hrun
    rw [if_pos ((Line.head?_of_read hread).2 rfl)]
    exact ⟨hpc, hlines⟩

/-! ### Accepted texts -/

open Program (lineText partTexts)

theorem decoded_of_readLines {failure : Option String} {bytes : List UInt8}
    {lines rest : List (List UInt8)} (h : readLines failure (bytes :: lines) s = .ok rest s') :
    isCut failure bytes = false ∧ ∃ cs, Lines.decode? bytes = some cs := by
  rw [readLines] at h
  cases hcut : isCut failure bytes with
  | true =>
    rw [hcut, if_pos rfl] at h
    cases h
  | false =>
    rw [hcut, if_neg Bool.false_ne_true] at h
    cases hcs : Lines.decode? bytes with
    | none => rw [hcs] at h; cases h
    | some cs => exact ⟨rfl, cs, rfl⟩

/-- Reading a part that is accepted goes through the lines before the first blank one. -/
theorem readLines_ok {failure : Option String} {rest : List (List UInt8)} :
    ∀ {lines : List (List UInt8)} {s : Assembly}, readLines failure lines s = .ok rest s' →
      ∃ s₁, readAll (partTexts lines) s = .ok () s₁ ∧
        rest = lines.drop ((partTexts lines).length + 1) ∧
        s' = { s₁ with
          lines := s₁.lines + if (partTexts lines).length < lines.length then 1 else 0 } := by
  intro lines
  induction lines with
  | nil =>
    intro s h
    cases failure with
    | some reason => cases h
    | none => cases h; exact ⟨_, rfl, rfl, rfl⟩
  | cons bytes more ih =>
    intro s h
    obtain ⟨hcut, cs, hcs⟩ := decoded_of_readLines h
    rw [readLines_cons hcut hcs] at h
    by_cases hb : Lines.isBlank (lineText bytes) = true
    · have hpart : partTexts (bytes :: more) = [] := by simp [partTexts, hb]
      rw [if_pos hb] at h
      cases h
      refine ⟨s, by rw [hpart]; rfl, by rw [hpart]; rfl, by simp [hpart]⟩
    · have hpart : partTexts (bytes :: more) = lineText bytes :: partTexts more := by
        simp [partTexts, hb]
      rw [if_neg hb] at h
      cases hl : line (lineText bytes) { s with lines := s.lines + 1 } with
      | error f s₁ => rw [hl] at h; cases h
      | ok _ s₁ =>
        rw [hl] at h
        obtain ⟨s₂, hrun, hrest, hs'⟩ := ih h
        refine ⟨s₂, ?_, ?_, ?_⟩
        · rw [hpart, readAll_of_ok hl]; exact hrun
        · rw [hpart, hrest]; rfl
        · rw [hpart, hs']; simp

/-- A property of the lines read so far and the program under construction that survives every line
that is accepted; of the program it sees the code, the tables and the next address. -/
structure Survives (I : List Entry → Assembly → Prop) : Prop where
  restart : ∀ {es s s'}, I es s → s'.code = s.code → s'.store = s.store → s'.labels = s.labels →
    (s'.pc = s.pc ∨ s'.pc = 0) → I es s'
  line : ∀ {es s text s'}, I es s → Assembly.line text s = .ok () s' →
    I (es ++ [⟨s.lines, s.pc, text⟩]) s'

variable {I : List Entry → Assembly → Prop}

/-- **Many lines.** -/
theorem Survives.readAll (hI : Survives I) : ∀ {texts : List LineText} {es : List Entry} {s : Assembly},
    I es s → Assembly.readAll texts s = .ok () s' →
      I (es ++ number (s.lines + 1) s.pc texts) s' ∧ s'.lines = s.lines + texts.length := by
  intro texts
  induction texts with
  | nil =>
    intro es s h hrun
    cases hrun
    rw [number, List.append_nil]
    exact ⟨h, rfl⟩
  | cons t more ih =>
    intro es s h hrun
    -- a line is counted before it is read
    have h₁ : I es { s with lines := s.lines + 1 } := hI.restart h rfl rfl rfl (Or.inl rfl)
    cases hl : Assembly.line t { s with lines := s.lines + 1 } with
    | error f s₁ => rw [readAll_of_error hl] at hrun; cases hrun
    | ok _ s₁ =>
      rw [readAll_of_ok hl] at hrun
      obtain ⟨hpc, hlines⟩ := line_pc hl
      obtain ⟨hend, hlen⟩ := ih (hI.line h₁ hl) hrun
      rw [hpc, hlines, List.append_assoc, List.singleton_append] at hend
      exact ⟨hend, by rw [hlen, hlines, List.length_cons]; simp only; omega⟩

/-- One part of the text. -/
theorem Survives.part (hI : Survives I) {failure : Option String} {start : Nat}
    {lines rest : List (List UInt8)} (hrun : Assembly.part failure start lines s = .ok rest s')
    (h : I es { s with pc := start }) :
    I (es ++ number (s.lines + 1) start (partTexts lines)) s' ∧
      rest = lines.drop ((partTexts lines).length + 1) ∧
      s'.lines = s.lines + (partTexts lines).length +
        if (partTexts lines).length < lines.length then 1 else 0 := by
  have hread : readLines failure lines
      { s with notices := s.notices.push (.part start (s.lines + 1)), pc := start } = .ok rest s' := hrun
  obtain ⟨s₁, hall, hrest, rfl⟩ := readLines_ok hread
  have h₁ : I es { s with notices := s.notices.push (.part start (s.lines + 1)), pc := start } :=
    hI.restart h rfl rfl rfl (Or.inl rfl)
  obtain ⟨hend, hlen⟩ := hI.readAll h₁ hall
  exact ⟨hI.restart hend rfl rfl rfl (Or.inl rfl), hrest, by simp only [hlen]⟩

theorem finish_ok {p : Program} (h : finish s = .ok p s') : p = ⟨s.code, s.store⟩ := by
  rw [finish, Action.bind_of_ok (Action.get_apply s)] at h
  cases hu : s.labels.unresolved? with
  | some n =>
    simp only [hu] at h
    cases h
  | none =>
    simp only [hu] at h
    cases h
    rfl

end Assembly

/-- **Induction over a loaded text.** What holds of no lines and survives every line that is accepted
holds of all lines and the program. -/
theorem Program.load_induction {l : Limits} {I : List Entry → Assembly → Prop}
    (hI : Assembly.Survives I) (hnew : I [] { Assembly.new l with pc := mainStart }) {text : Source}
    {p : Program} {rest : List UInt8} (h : load l text = .ok (p, rest)) :
    ∃ s, I (layout text.bytes) s ∧ p = ⟨s.code, s.store⟩ := by
  obtain ⟨s₃, hrun⟩ := Action.outcome_eq_ok.1 h
  obtain ⟨lines₁, s₁, hmain, hrun₁⟩ := Action.bind_eq_ok.1 hrun
  obtain ⟨lines₂, s₂, hstartup, hrun₂⟩ := Action.bind_eq_ok.1 hrun₁
  obtain ⟨h₁, rfl, hlen⟩ := hI.part hmain hnew
  obtain ⟨h₂, -, -⟩ := hI.part hstartup (hI.restart h₁ rfl rfl rfl (Or.inr rfl))
  have hlayout : I (layout text.bytes) s₂ := by
    rw [layout, ← Assembly.number_startup hlen]
    exact h₂
  obtain ⟨q, s₄, hfinish, hlast⟩ := Action.bind_eq_ok.1 hrun₂
  cases hlast
  exact ⟨s₂, hlayout, Assembly.finish_ok hfinish⟩

end PMachine
