import PMachine.Proofs.Program.Linking

/-!
# Loading a program text

The loader goes through the lines of both parts one after another. A run over lines that are not
blank ends with the fault of the first line that has one, or else in what the lines make of it; the
rest of loading is cutting the text into these lines.

* `Assembly.line_eq`: what one line does, by what it says.
* `Assembly.Follows.line`, `Assembly.Follows.readAll`: one line, and a run over many.
* `Assembly.readLines_eq`: reading a part is a run over the lines before the first blank one.
-/

namespace PMachine

open Entry

/-! ### Lines with their places -/

namespace Entry

/-- The instructions of numbered lines take one address after the other. -/
theorem addresses_number (texts : List LineText) : ∀ line start,
    addresses (number line start texts) =
      List.range' start (texts.countP fun t => t.head? = some ' ') := by
  induction texts with
  | nil => intro _ _; rfl
  | cons t more ih =>
    intro line start
    rw [number, addresses, List.filter_cons]
    by_cases ht : t.head? = some ' '
    · have hi : isInstruction ⟨line, start, t⟩ = true := by simp [isInstruction, ht]
      rw [if_pos hi, List.map_cons, ← addresses, if_pos ht, ih,
        List.countP_cons_of_pos (by simpa using ht), List.range'_succ]
    · have hi : ¬ isInstruction ⟨line, start, t⟩ = true := by simp [isInstruction, ht]
      rw [if_neg hi, ← addresses, if_neg ht, ih, List.countP_cons_of_neg (by simpa using ht)]

theorem addresses_append_list (es more : List Entry) :
    addresses (es ++ more) = addresses es ++ addresses more := by
  unfold addresses
  rw [List.filter_append, List.map_append]

/-- The first fault of two stretches of lines is one of the first stretch, or else of the second. -/
theorem firstFault?_append (l : Limits) (more : List Entry) : ∀ es before,
    firstFault? l before (es ++ more) =
      (firstFault? l before es).or (firstFault? l (before ++ es) more) := by
  intro es
  induction es with
  | nil => intro before; simp [firstFault?]
  | cons e es ih =>
    intro before
    rw [List.cons_append, firstFault?, firstFault?]
    cases e.fault? l before with
    | some f => rfl
    | none => simp only [ih, List.append_assoc, List.singleton_append]

/-- No address is taken twice, and those that the code has room for are addresses of the machine. -/
structure Apart (l : Limits) (es : List Entry) : Prop where
  nodup : (addresses es).Nodup
  small : ∀ a ∈ addresses es, a < l.codeSize → a < 0x8000000000000000

theorem Apart.left {l : Limits} {es more : List Entry} (h : Apart l (es ++ more)) : Apart l es := by
  obtain ⟨hn, hs⟩ := h
  rw [addresses_append_list] at hn hs
  exact ⟨hn.of_append_left, fun a ha => hs a (List.mem_append_left _ ha)⟩

/-- A line without a fault has found room in the code. -/
theorem room_of_fault? {l : Limits} {before : List Entry} {e : Entry} (hf : e.fault? l before = none)
    {a : Nat} (ha : a ∈ if e.isInstruction then [e.address] else []) : a < l.codeSize := by
  by_cases hi : e.isInstruction = true
  · rw [if_pos hi, List.mem_singleton] at ha
    rw [fault?] at hf
    by_contra hge
    rw [if_pos ⟨hi, by omega⟩] at hf
    cases hf
  · rw [if_neg hi] at ha
    simp at ha

/-- Where no line has a fault, every address is in the code. -/
theorem room_of_firstFault? {l : Limits} : ∀ {es before : List Entry}, firstFault? l before es = none →
    ∀ a ∈ addresses es, a < l.codeSize := by
  intro es
  induction es with
  | nil => intro before _ a ha; simp [addresses] at ha
  | cons e es ih =>
    intro before h a ha
    rw [firstFault?] at h
    cases hf : e.fault? l before with
    | some f => rw [hf] at h; cases h
    | none =>
      rw [hf] at h
      rw [← List.singleton_append, addresses_append_list, List.mem_append] at ha
      rcases ha with ha | ha
      · have hone := addresses_append [] e
        rw [List.nil_append] at hone
        rw [hone] at ha
        exact room_of_fault? hf (by simpa [addresses] using ha)
      · exact ih h a ha

end Entry

namespace Assembly

variable {l : Limits} {es : List Entry} {s : Assembly} {e : Entry}

/-! ### One line -/

/-- What a line does, by what it says. An instruction has to find room in the code before it is
read. -/
theorem line_eq (text : LineText) (s : Assembly) :
    line text s =
      if text.head? = some ' ' ∧ s.store.limits.codeSize ≤ s.pc then .error (.tableFull "CODE") s
      else match Line.read text with
        | .ok .comment => .ok () s
        | .ok (.declaration n value) => declareLabel n value s
        | .ok (.instruction st) => placeStatement st s
        | .error f => .error f s := by
  unfold line
  split
  · rfl
  · rename_i t
    rw [if_neg (by simp)]
    cases h : labelLine.outcome t with
    | ok x =>
      obtain ⟨n, value⟩ := x
      simp only [declaration_eq h, Line.read, h]
    | error f => simp only [declaration_error h, Line.read, h]
  · rename_i t
    by_cases hfull : s.store.limits.codeSize ≤ s.pc
    · rw [if_pos ⟨rfl, hfull⟩, instruction, Action.bind_of_ok (Action.get_apply s)]
      simp only [if_pos hfull]
      rfl
    · rw [if_neg (by simp [hfull])]
      cases h : Statement.parse t with
      | ok st => simp only [instruction_eq h (Nat.not_le.1 hfull), Line.read, h]
      | error f => simp only [instruction_error h (Nat.not_le.1 hfull), Line.read, h]
  · rename_i hI hL hB
    have hhead : text.head? ≠ some ' ' := by
      cases text with
      | nil => simp
      | cons c t =>
        intro hc
        rw [List.head?_cons, Option.some.injEq] at hc
        exact hB t (by rw [hc])
    have hread : Line.read text = .error .badLineMarker := by
      unfold Line.read
      split
      · exact (hI _ rfl).elim
      · exact (hL _ rfl).elim
      · exact (hB _ rfl).elim
      · rfl
    rw [if_neg (by simp [hhead]), hread]
    rfl

namespace Follows

/-- Only the code, the tables and the next address matter. -/
theorem restart (h : Follows l es s) {s' : Assembly} (hstore : s'.store = s.store)
    (hlabels : s'.labels = s.labels) (hcode : s'.code = s.code) (hpc : s'.pc ≤ s.code.size) :
    Follows l es s' := by
  refine ⟨by rw [hstore]; exact h.store, by rw [hlabels]; exact h.labels, ?_, ?_, by rw [hcode]; exact hpc⟩
  · rw [hcode]; exact h.code
  · rw [hcode]; exact h.rest

/-- The room that an instruction has to find in the code. -/
theorem full_iff (h : Follows l es s) (ha : e.address = s.pc) :
    (e.isInstruction = true ∧ l.codeSize ≤ e.address) ↔
      (e.text.head? = some ' ' ∧ s.store.limits.codeSize ≤ s.pc) := by
  rw [h.store.limits, ha, isInstruction, decide_eq_true_eq]

/-- **A line with a fault** is refused for it, and nothing changes. -/
theorem line_fault (h : Follows l es s) (ha : e.address = s.pc) {f : Fault}
    (hf : e.fault? l es = some f) : Assembly.line e.text s = .error f s := by
  rw [line_eq]
  rw [Entry.fault?] at hf
  by_cases hfull : e.text.head? = some ' ' ∧ s.store.limits.codeSize ≤ s.pc
  · rw [if_pos ((h.full_iff ha).2 hfull)] at hf
    cases hf
    rw [if_pos hfull]
  rw [if_neg (mt (h.full_iff ha).1 hfull)] at hf
  rw [if_neg hfull]
  cases hread : Line.read e.text with
  | error f' =>
    rw [hread] at hf
    cases hf
    rfl
  | ok x =>
    rw [hread] at hf
    cases x with
    | comment => simp [Line.fault?, Line.label?, Line.constant?] at hf
    | declaration n value =>
      have hlab := h.labels n
      simp only [Line.fault?_declaration] at hf
      by_cases hmax : l.maxLabel < n
      · rw [if_pos hmax] at hf
        cases hf
        rw [if_neg (by omega)] at hlab
        exact declareLabel_outOfRange hlab value
      · rw [if_neg hmax] at hf
        cases hf
    | instruction st => exact h.assemble_fault hf

/-- **A line without a fault** is followed. -/
theorem line (h : Follows l es s) (ha : e.address = s.pc) (hd : (addresses (es ++ [e])).Nodup)
    (hsmall : ∀ a ∈ addresses es, a < 0x8000000000000000) (hf : e.fault? l es = none) :
    ∃ s', Assembly.line e.text s = .ok () s' ∧ Follows l (es ++ [e]) s' ∧
      s'.pc = (if e.text.head? = some ' ' then s.pc + 1 else s.pc) ∧ s'.lines = s.lines := by
  rw [line_eq]
  rw [Entry.fault?] at hf
  by_cases hfull : e.text.head? = some ' ' ∧ s.store.limits.codeSize ≤ s.pc
  · rw [if_pos ((h.full_iff ha).2 hfull)] at hf
    cases hf
  rw [if_neg (mt (h.full_iff ha).1 hfull)] at hf
  rw [if_neg hfull]
  rw [addresses_append] at hd
  cases hread : Line.read e.text with
  | error f =>
    rw [hread] at hf
    cases hf
  | ok x =>
    rw [hread] at hf
    have hc : e.content? = some x := content?_of_read hread
    have hi := isInstruction_eq hc
    cases x with
    | comment =>
      have hhead : e.text.head? ≠ some ' ' := of_decide_eq_false hi
      refine ⟨s, rfl, h.skip hi (by rw [statement?, hc]) (by rw [hc]; rfl) ?_ rfl rfl rfl rfl, ?_, rfl⟩
      · intro n
        rw [labelValue?_append, declared?, hc, Option.or_none]
      · rw [if_neg hhead]
    | declaration n value =>
      have hhead : e.text.head? ≠ some ' ' := of_decide_eq_false hi
      have hmax : n ≤ l.maxLabel := by
        by_contra hgt
        simp only [Line.fault?_declaration, if_pos (Nat.not_le.1 hgt)] at hf
        cases hf
      obtain ⟨s', hrun, hfol, hpc, hl⟩ := h.declare (List.Nodup.of_append_left hd) hsmall hc ha hmax
      exact ⟨s', hrun, hfol, by rw [hpc, if_neg hhead], hl⟩
    | instruction st =>
      have hi : e.isInstruction = true := hi
      have hhead : e.text.head? = some ' ' := of_decide_eq_true hi
      rw [if_pos hi, ha] at hd
      have hfresh : s.pc ∉ addresses es := fun hin =>
        List.disjoint_of_nodup_append hd hin (List.mem_singleton_self _)
      obtain ⟨s', hrun, hfol, hpc, hl⟩ := h.assemble hc ha hfresh hf
      exact ⟨s', hrun, hfol, by rw [hpc, if_pos hhead], hl⟩

end Follows

/-! ### Many lines -/

/-- Goes through lines that are not blank. -/
def readAll : List LineText → Action Assembly Unit
  | [] => fun s => .ok () s
  | text :: more => fun s =>
    match line text { s with lines := s.lines + 1 } with
    | .ok _ s' => readAll more s'
    | .error f s' => .error (f.inLine (s.lines + 1)) s'

theorem readAll_of_ok {text : LineText} {s' : Assembly}
    (h : line text { s with lines := s.lines + 1 } = .ok () s') (more : List LineText) :
    readAll (text :: more) s = readAll more s' := by
  simp only [readAll, h]

theorem readAll_of_error {text : LineText} {f : Fault} {s' : Assembly}
    (h : line text { s with lines := s.lines + 1 } = .error f s') (more : List LineText) :
    readAll (text :: more) s = .error (f.inLine (s.lines + 1)) s' := by
  simp only [readAll, h]

namespace Follows

/-- **Many lines.** The run ends with the first fault, or else follows all lines. -/
theorem readAll : ∀ (texts : List LineText) {es : List Entry} {s : Assembly}, Follows l es s →
    Apart l (es ++ number (s.lines + 1) s.pc texts) → (∀ a ∈ addresses es, a < l.codeSize) →
    (∀ f, firstFault? l es (number (s.lines + 1) s.pc texts) = some f →
      ∃ s', Assembly.readAll texts s = .error f s') ∧
    (firstFault? l es (number (s.lines + 1) s.pc texts) = none →
      ∃ s', Assembly.readAll texts s = .ok () s' ∧
        Follows l (es ++ number (s.lines + 1) s.pc texts) s' ∧ s'.lines = s.lines + texts.length) := by
  intro texts
  -- the lines read so far grow at their end by what the induction takes off the rest
  induction texts with
  | nil =>
    intro es s h _ _
    refine ⟨fun f hf => by simp [number, firstFault?] at hf, fun _ => ⟨s, rfl, ?_, rfl⟩⟩
    rw [number, List.append_nil]
    exact h
  | cons t more ih =>
    intro es s h hapart hroom
    set e : Entry := ⟨s.lines + 1, s.pc, t⟩
    have h₁ : Follows l es { s with lines := s.lines + 1 } := h.restart rfl rfl rfl h.pc_le
    have hnum : number (s.lines + 1) s.pc (t :: more) = e ::
        number (s.lines + 2) (if t.head? = some ' ' then s.pc + 1 else s.pc) more := rfl
    rw [hnum] at hapart ⊢
    rw [firstFault?]
    cases hf : e.fault? l es with
    | some f =>
      refine ⟨fun g hg => ?_, fun hg => by cases hg⟩
      cases hg
      exact ⟨_, readAll_of_error (h₁.line_fault rfl hf) more⟩
    | none =>
      have hsplit : es ++ e :: number (s.lines + 2) (if t.head? = some ' ' then s.pc + 1 else s.pc) more =
          es ++ [e] ++ number (s.lines + 2) (if t.head? = some ' ' then s.pc + 1 else s.pc) more := by
        rw [List.append_assoc, List.singleton_append]
      rw [hsplit] at hapart ⊢
      have hsmall : ∀ a ∈ addresses es, a < 0x8000000000000000 := fun a ha =>
        hapart.left.left.small a ha (hroom a ha)
      obtain ⟨s', hrun, hfol, hpc, hlines⟩ := h₁.line rfl hapart.left.nodup hsmall hf
      have hpc : s'.pc = if t.head? = some ' ' then s.pc + 1 else s.pc := hpc
      have hlines : s'.lines = s.lines + 1 := hlines
      have hroom' : ∀ a ∈ addresses (es ++ [e]), a < l.codeSize := by
        intro a ha
        rw [addresses_append, List.mem_append] at ha
        rcases ha with ha | ha
        · exact hroom a ha
        · exact room_of_fault? hf ha
      -- the rest is numbered on from the state after this line
      rw [← hpc, show s.lines + 2 = s'.lines + 1 by omega] at hapart ⊢
      have hstep : Assembly.readAll (t :: more) s = Assembly.readAll more s' := readAll_of_ok hrun more
      obtain ⟨hbad, hgood⟩ := ih hfol hapart hroom'
      refine ⟨fun f hg => ?_, fun hg => ?_⟩
      · rw [hstep]
        exact hbad f hg
      · obtain ⟨s₂, hrun₂, hfol₂, hlines₂⟩ := hgood hg
        refine ⟨s₂, by rw [hstep, hrun₂], hfol₂, ?_⟩
        rw [hlines₂, hlines, List.length_cons]
        omega

end Follows

/-! ### Cutting the text -/

open Program (lineText partTexts)

/-- One line is read, and then the others unless it is blank. -/
theorem readLines_cons {failure : Option String} {bytes : List UInt8} {rest : List (List UInt8)}
    (hcut : isCut failure bytes = false) {cs : List Char} (hcs : Lines.decode? bytes = some cs)
    (s : Assembly) :
    readLines failure (bytes :: rest) s =
      if Lines.isBlank (lineText bytes) then .ok rest { s with lines := s.lines + 1 }
      else match line (lineText bytes) { s with lines := s.lines + 1 } with
        | .ok _ s' => readLines failure rest s'
        | .error f s' => .error (f.inLine (s.lines + 1)) s' := by
  have htext : lineText bytes = Lines.strip cs := by rw [lineText, hcs, Option.getD_some]
  rw [readLines, hcut, htext, hcs, if_neg Bool.false_ne_true]
  simp only [Action.bind_apply, Action.orFault_some, Action.modify_apply]
  by_cases hb : Lines.isBlank (Lines.strip cs) = true
  · rw [if_pos hb, if_pos hb]
    rfl
  · rw [if_neg hb, if_neg hb]
    simp only [Action.bind_apply, Action.get_apply, Action.mapFault]
    cases line (Lines.strip cs) { s with lines := s.lines + 1 } <;> rfl

/-- **Reading a part** goes through the lines before the first blank one and leaves the lines after
it unread. -/
theorem readLines_eq : ∀ (lines : List (List UInt8)) (s : Assembly),
    (∀ bytes ∈ lines, ∃ cs, bytes = Lines.encode cs) →
    readLines none lines s = match readAll (partTexts lines) s with
      | .ok _ s' => .ok (lines.drop ((partTexts lines).length + 1))
          { s' with lines := s'.lines + if (partTexts lines).length < lines.length then 1 else 0 }
      | .error f s' => .error f s' := by
  intro lines
  induction lines with
  | nil => intro s _; rfl
  | cons bytes rest ih =>
    intro s hlines
    obtain ⟨cs, hcs⟩ := hlines bytes List.mem_cons_self
    have hdec : Lines.decode? bytes = some cs := by rw [hcs, Lines.decode?_encode]
    rw [readLines_cons rfl hdec]
    by_cases hb : Lines.isBlank (lineText bytes) = true
    · have hpart : partTexts (bytes :: rest) = [] := by simp [partTexts, hb]
      rw [if_pos hb, hpart]
      simp [readAll]
    · have hpart : partTexts (bytes :: rest) = lineText bytes :: partTexts rest := by
        simp [partTexts, hb]
      rw [if_neg hb, hpart]
      cases hl : line (lineText bytes) { s with lines := s.lines + 1 } with
      | ok _ s' =>
        rw [readAll_of_ok hl]
        simp only [List.length_cons, List.drop_succ_cons, Nat.add_lt_add_iff_right]
        exact ih s' fun b hbm => hlines b (List.mem_cons_of_mem _ hbm)
      | error f s' => rw [readAll_of_error hl]

/-- **One part of the text**, from a code address on. -/
theorem Follows.part (h : Follows l es s) {start : Nat} (hstart : start ≤ s.code.size)
    {lines : List (List UInt8)} (hlines : ∀ bytes ∈ lines, ∃ cs, bytes = Lines.encode cs)
    (hapart : Apart l (es ++ number (s.lines + 1) start (partTexts lines)))
    (hroom : ∀ a ∈ addresses es, a < l.codeSize) :
    (∀ f, firstFault? l es (number (s.lines + 1) start (partTexts lines)) = some f →
      ∃ s', Assembly.part none start lines s = .error f s') ∧
    (firstFault? l es (number (s.lines + 1) start (partTexts lines)) = none →
      ∃ s', Assembly.part none start lines s = .ok (lines.drop ((partTexts lines).length + 1)) s' ∧
        Follows l (es ++ number (s.lines + 1) start (partTexts lines)) s' ∧
        s'.lines = s.lines + (partTexts lines).length +
          if (partTexts lines).length < lines.length then 1 else 0) := by
  set s₁ : Assembly :=
    { s with notices := s.notices.push (.part start (s.lines + 1)), pc := start } with hs₁
  have hpart : Assembly.part none start lines s = readLines none lines s₁ := rfl
  have h₁ : Follows l es s₁ := h.restart rfl rfl rfl hstart
  obtain ⟨hbad, hgood⟩ := h₁.readAll (partTexts lines) hapart hroom
  rw [hpart, readLines_eq lines s₁ hlines]
  constructor
  · intro f hf
    obtain ⟨s', hrun⟩ := hbad f hf
    exact ⟨s', by rw [hrun]⟩
  · intro hf
    obtain ⟨s', hrun, hfol, hlen⟩ := hgood hf
    rw [hrun]
    refine ⟨_, rfl, hfol.restart rfl rfl rfl hfol.pc_le, ?_⟩
    simp only [hlen, hs₁]

/-- A label that waits at the end is one that is nowhere declared. -/
theorem Follows.unresolved (h : Follows l es s) : s.labels.unresolved? = undefined? l es := by
  refine Labels.unresolved?_eq_find ?_ ?_ ?_
  · rw [h.labels, if_pos le_rfl]; rfl
  · rw [h.labels, if_neg (by omega)]
  · intro n x hx
    rw [h.labels] at hx
    by_cases hn : n ≤ l.maxLabel
    · rw [if_pos hn, Option.some.injEq] at hx
      rw [← hx, labelState]
      cases labelValue? es n with
      | some v => rfl
      | none =>
        cases hr : references es n using List.reverseRecOn with
        | nil => simp [Label.isWaiting]
        | append_singleton more a => simp [Label.isWaiting]
    · rw [if_neg hn] at hx
      cases hx

/-- A label without a place refuses the text at its end. -/
theorem Follows.finish_error (h : Follows l es s) {n : Nat} (hn : undefined? l es = some n) :
    Assembly.finish s = .error (.undefinedLabel n) s := by
  rw [Assembly.finish, Action.bind_of_ok (Action.get_apply s), h.unresolved, hn]
  rfl

/-- With a place for each label the text is accepted. -/
theorem Follows.finish (h : Follows l es s) (hn : undefined? l es = none) :
    ∃ s', Assembly.finish s = .ok ⟨s.code, s.store⟩ s' := by
  rw [Assembly.finish, Action.bind_of_ok (Action.get_apply s), h.unresolved, hn]
  exact ⟨_, rfl⟩

/-- The lines of the startup part are numbered on from where the main part ends. -/
theorem number_startup {bytes : List UInt8} {n : Nat} (hn : n = (new l).lines +
      (Program.mainTexts bytes).length +
        if (Program.mainTexts bytes).length < (Lines.split bytes).length then 1 else 0) :
    number (n + 1) 0 (partTexts ((Lines.split bytes).drop ((Program.mainTexts bytes).length + 1))) =
      Program.startupLayout bytes := by
  have hzero : (new l).lines = 0 := rfl
  by_cases h : (Program.mainTexts bytes).length < (Lines.split bytes).length
  · rw [hn, if_pos h, hzero, Nat.zero_add]
    rfl
  · have hnone : (Lines.split bytes).drop ((Program.mainTexts bytes).length + 1) = [] :=
      List.drop_eq_nil_of_le (by omega)
    rw [Program.startupLayout, Program.startupTexts, hnone]
    rfl

/-- **Loading a text** ends with what is wrong with it, or else with what its lines make of it. -/
theorem run_follows {text : List Char} (hapart : Apart l (Program.layout (Lines.encode text))) :
    (∀ f, Program.fault? l (Lines.encode text) = some f →
      ∃ s', run ⟨Lines.encode text, none⟩ (new l) = .error f s') ∧
    (Program.fault? l (Lines.encode text) = none →
      ∃ s' s'', run ⟨Lines.encode text, none⟩ (new l) =
          .ok (⟨s'.code, s'.store⟩, Program.unread (Lines.encode text)) s'' ∧
        Follows l (Program.layout (Lines.encode text)) s') := by
  set bytes := Lines.encode text
  have hlines : ∀ b ∈ Lines.split bytes, ∃ cs, b = Lines.encode cs := Lines.encoded_of_mem_split text
  have hfault : firstFault? l [] (Program.layout bytes) =
      (firstFault? l [] (Program.mainLayout bytes)).or
        (firstFault? l (Program.mainLayout bytes) (Program.startupLayout bytes)) := by
    rw [Program.layout, firstFault?_append, List.nil_append]
  rw [Program.fault?, hfault]
  have hstart : Program.mainStart ≤ (new l).code.size := by simp [new]
  obtain ⟨hbad, hgood⟩ := (follows_new l).part hstart hlines hapart.left (by simp [addresses])
  cases hm : firstFault? l [] (Program.mainLayout bytes) with
  | some f =>
    -- a line of the main part
    obtain ⟨s', hrun⟩ := hbad f hm
    refine ⟨fun g hg => ?_, fun hg => by cases hg⟩
    cases hg
    exact ⟨s', Action.bind_of_error hrun⟩
  | none =>
    obtain ⟨s₂, hrun, hfol, hlen⟩ := hgood hm
    have hnum := number_startup hlen
    have hrest : ∀ b ∈ (Lines.split bytes).drop ((Program.mainTexts bytes).length + 1),
        ∃ cs, b = Lines.encode cs := fun b hb => hlines b (List.mem_of_mem_drop hb)
    obtain ⟨hbad₂, hgood₂⟩ := hfol.part (Nat.zero_le _) hrest (hnum ▸ hapart)
      (room_of_firstFault? hm)
    rw [hnum] at hbad₂ hgood₂
    rw [Option.none_or]
    cases hs : firstFault? l (Program.mainLayout bytes) (Program.startupLayout bytes) with
    | some f =>
      -- a line of the startup part
      obtain ⟨s', hrun₂⟩ := hbad₂ f hs
      refine ⟨fun g hg => ?_, fun hg => by cases hg⟩
      cases hg
      exact ⟨s', (Action.bind_of_ok hrun).trans (Action.bind_of_error hrun₂)⟩
    | none =>
      obtain ⟨s₃, hrun₂, hfol₂, -⟩ := hgood₂ hs
      have hfol₂ : Follows l (Program.layout bytes) s₃ := hfol₂
      rw [Option.none_or]
      cases hu : undefined? l (Program.layout bytes) with
      | some n =>
        -- a label, once all lines are read
        refine ⟨fun g hg => ?_, fun hg => by cases hg⟩
        cases hg
        exact ⟨s₃, (Action.bind_of_ok hrun).trans
          ((Action.bind_of_ok hrun₂).trans (Action.bind_of_error (hfol₂.finish_error hu)))⟩
      | none =>
        obtain ⟨s₄, hfin⟩ := hfol₂.finish hu
        refine ⟨fun g hg => (by cases hg), fun _ => ⟨s₃, s₄, ?_, hfol₂⟩⟩
        exact (Action.bind_of_ok hrun).trans
          ((Action.bind_of_ok hrun₂).trans (Action.bind_of_ok hfin))

end Assembly

end PMachine
