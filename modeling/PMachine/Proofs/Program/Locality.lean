import PMachine.Proofs.Program.Induction

/-!
# Loading is a matter of the lines that are read

A part of a program ends with its blank line, and what comes after the second one is not looked at. A
fault in a line is reported before the next line is read. So a text that has both blank lines loads in
the same way whatever follows it, and a fault with the number of a line is that of every text with the
same lines up to there.

* `Lines.split_append`: whole lines in front of a text are its first lines.
* `Assembly.readLines_closed`: a part with its blank line.
* `Assembly.readLines_error`, `Assembly.readLines_open`: how far a part is read.
* `Program.load_local`: both for whole texts.
-/

namespace PMachine

namespace Lines

/-- A line with an end. -/
def Ended (line : List UInt8) : Prop := line.getLast? = some newline

instance (line : List UInt8) : Decidable (Ended line) :=
  inferInstanceAs (Decidable (line.getLast? = some newline))

/-- A line that ends a part. -/
def isBlankLine (line : List UInt8) : Bool :=
  match decode? line with
  | some cs => isBlank (strip cs)
  | none => false

/-- What follows an ended text is cut into lines of its own. -/
theorem foldr_consByte_append {l : List UInt8} (h : Ended l) (lines : List (List UInt8)) :
    l.foldr consByte lines = split l ++ lines ∧ split l ≠ [] := by
  induction l with
  | nil => cases h
  | cons b l ih =>
    have hcons : ∀ lines, (b :: l).foldr consByte lines = consByte b (l.foldr consByte lines) :=
      fun _ => rfl
    have hsplit : split (b :: l) = consByte b (split l) := rfl
    rw [hcons, hsplit]
    by_cases hl : l = []
    · subst hl
      have hb : b = newline := Option.some.inj h
      rw [hb]
      exact ⟨rfl, List.cons_ne_nil _ _⟩
    · have hended : Ended l := by
        unfold Ended at h ⊢
        rwa [List.getLast?_cons_of_ne_nil hl] at h
      obtain ⟨happend, hne⟩ := ih hended
      obtain ⟨first, more, hfirst⟩ := List.exists_cons_of_ne_nil hne
      rw [happend, hfirst]
      unfold consByte
      split <;> exact ⟨rfl, List.cons_ne_nil _ _⟩

/-- Whole lines in front of a text are its first lines. -/
theorem split_append {l : List UInt8} (h : Ended l) (r : List UInt8) :
    split (l ++ r) = split l ++ split r := by
  have happend := (foldr_consByte_append h (split r)).1
  rw [split, List.foldr_append]
  exact happend

end Lines

namespace Assembly

open Lines (Ended isBlankLine)
open Program (lineText)

variable {failure : Option String} {bytes : List UInt8} {lines rest : List (List UInt8)}
  {s s' : Assembly} {f : Fault} {n : Nat}

/-- An ended line is not cut off. -/
theorem isCut_of_ended (h : Ended bytes) (failure : Option String) : isCut failure bytes = false := by
  unfold Ended at h
  rw [isCut, h]
  simp

/-- A line that is no text refuses everything. -/
theorem readLines_of_undecoded (hcut : isCut failure bytes = false) (hcs : Lines.decode? bytes = none)
    (s : Assembly) : readLines failure (bytes :: rest) s = .error .notUtf8 s := by
  rw [readLines, hcut, hcs, if_neg Bool.false_ne_true]
  rfl

theorem isBlankLine_eq {cs : List Char} (hcs : Lines.decode? bytes = some cs) :
    isBlankLine bytes = Lines.isBlank (lineText bytes) := by
  rw [isBlankLine, hcs, lineText, hcs, Option.getD_some]

/-- After a line that is accepted the next one is read. -/
theorem readLines_of_line_ok {cs : List Char} {s₁ : Assembly} (hcut : isCut failure bytes = false)
    (hcs : Lines.decode? bytes = some cs) (hb : ¬ Lines.isBlank (lineText bytes) = true)
    (hl : line (lineText bytes) { s with lines := s.lines + 1 } = .ok () s₁) :
    readLines failure (bytes :: rest) s = readLines failure rest s₁ := by
  rw [readLines_cons hcut hcs, if_neg hb, hl]

/-- A line that is refused leaves the lines behind it unread. -/
theorem readLines_of_line_error {cs : List Char} {s₁ : Assembly} (hcut : isCut failure bytes = false)
    (hcs : Lines.decode? bytes = some cs) (hb : ¬ Lines.isBlank (lineText bytes) = true)
    (hl : line (lineText bytes) { s with lines := s.lines + 1 } = .error f s₁) :
    readLines failure (bytes :: rest) s = .error (f.inLine (s.lines + 1)) s₁ := by
  rw [readLines_cons hcut hcs, if_neg hb, hl]

/-- **A part with its blank line** is read in the same way whatever follows it. -/
theorem readLines_closed {blank : List UInt8} (hblank : isBlankLine blank = true) (hended : Ended blank) :
    ∀ {part : List (List UInt8)}, (∀ line ∈ part, isBlankLine line = false ∧ Ended line) → ∀ s,
      (∃ s', ∀ failure rest, readLines failure (part ++ blank :: rest) s = .ok rest s') ∨
      ∃ f s', ∀ failure rest, readLines failure (part ++ blank :: rest) s = .error f s' := by
  intro part
  induction part with
  | nil =>
    intro _ s
    cases hcs : Lines.decode? blank with
    | none =>
      rw [isBlankLine, hcs] at hblank
      cases hblank
    | some cs =>
      rw [isBlankLine_eq hcs] at hblank
      refine Or.inl ⟨{ s with lines := s.lines + 1 }, fun failure rest => ?_⟩
      rw [List.nil_append, readLines_cons (isCut_of_ended hended failure) hcs, if_pos hblank]
  | cons bytes part ih =>
    intro hpart s
    obtain ⟨hnot, hend⟩ := hpart bytes List.mem_cons_self
    have hcut := isCut_of_ended hend
    cases hcs : Lines.decode? bytes with
    | none => exact Or.inr ⟨.notUtf8, s, fun failure rest => readLines_of_undecoded (hcut failure) hcs s⟩
    | some cs =>
      have hmore : ¬ Lines.isBlank (lineText bytes) = true := by
        rw [← isBlankLine_eq hcs, hnot]
        exact Bool.false_ne_true
      cases hl : line (lineText bytes) { s with lines := s.lines + 1 } with
      | error f s₁ =>
        exact Or.inr ⟨_, s₁, fun failure rest => readLines_of_line_error (hcut failure) hcs hmore hl⟩
      | ok _ s₁ =>
        have hread : ∀ failure rest, readLines failure (bytes :: part ++ blank :: rest) s =
            readLines failure (part ++ blank :: rest) s₁ :=
          fun failure rest => readLines_of_line_ok (hcut failure) hcs hmore hl
        rcases ih (fun line hl => hpart line (List.mem_cons_of_mem _ hl)) s₁ with ⟨s', hs'⟩ | ⟨f, s', hs'⟩
        · exact Or.inl ⟨s', fun failure rest => (hread failure rest).trans (hs' failure rest)⟩
        · exact Or.inr ⟨f, s', fun failure rest => (hread failure rest).trans (hs' failure rest)⟩

/-- A fault with the number of a line is found in this line; only lines up to there were read. -/
theorem readLines_error : ∀ {lines : List (List UInt8)} {s : Assembly},
    readLines failure lines s = .error f s' → f.line = some n →
      ∃ read rest, lines = read ++ rest ∧ read ≠ [] ∧ n = s.lines + read.length ∧
        ((∀ line ∈ read, Ended line) → ∀ failure' rest',
          readLines failure' (read ++ rest') s = .error f s') := by
  intro lines
  induction lines with
  | nil =>
    intro s h hn
    cases failure with
    | none => cases h
    | some reason =>
      cases h
      cases hn
  | cons bytes lines ih =>
    intro s h hn
    -- neither a cut line nor one that is not in UTF-8 has a number in its fault
    cases hcut : isCut failure bytes with
    | true =>
      rw [readLines, hcut, if_pos rfl] at h
      cases h
      cases hn
    | false =>
      cases hcs : Lines.decode? bytes with
      | none =>
        rw [readLines_of_undecoded hcut hcs] at h
        cases h
        cases hn
      | some cs =>
        by_cases hb : Lines.isBlank (lineText bytes) = true
        · rw [readLines_cons hcut hcs, if_pos hb] at h
          cases h
        · cases hl : line (lineText bytes) { s with lines := s.lines + 1 } with
          | error g s₁ =>
            rw [readLines_of_line_error hcut hcs hb hl] at h
            cases h
            cases hn
            exact ⟨[bytes], lines, rfl, List.cons_ne_nil _ _, rfl, fun hended failure' rest' =>
              readLines_of_line_error (isCut_of_ended (hended bytes List.mem_cons_self) failure') hcs hb hl⟩
          | ok _ s₁ =>
            rw [readLines_of_line_ok hcut hcs hb hl] at h
            have hlines : s₁.lines = s.lines + 1 := (line_pc hl).2
            obtain ⟨read, rest, rfl, -, hcount, hsame⟩ := ih h hn
            refine ⟨bytes :: read, rest, rfl, List.cons_ne_nil _ _, ?_, fun hended failure' rest' => ?_⟩
            · rw [hcount, hlines, List.length_cons]
              omega
            · have hcut' := isCut_of_ended (hended bytes List.mem_cons_self) failure'
              rw [List.cons_append, readLines_of_line_ok hcut' hcs hb hl]
              exact hsame (fun line hl => hended line (List.mem_cons_of_mem _ hl)) failure' rest'

/-- A part after which there are more lines was read up to its blank line. -/
theorem readLines_open (hrest : rest ≠ []) : ∀ {lines : List (List UInt8)} {s : Assembly},
    readLines failure lines s = .ok rest s' →
      ∃ read, lines = read ++ rest ∧ s'.lines = s.lines + read.length ∧
        ((∀ line ∈ read, Ended line) → ∀ failure' rest',
          readLines failure' (read ++ rest') s = .ok rest' s') := by
  intro lines
  induction lines with
  | nil =>
    intro s h
    cases failure with
    | none => cases h; exact absurd rfl hrest
    | some reason => cases h
  | cons bytes lines ih =>
    intro s h
    obtain ⟨hcut, cs, hcs⟩ := decoded_of_readLines h
    by_cases hb : Lines.isBlank (lineText bytes) = true
    · rw [readLines_cons hcut hcs, if_pos hb] at h
      cases h
      refine ⟨[bytes], rfl, rfl, fun hended failure' rest' => ?_⟩
      rw [List.singleton_append,
        readLines_cons (isCut_of_ended (hended bytes List.mem_cons_self) failure') hcs, if_pos hb]
    · cases hl : line (lineText bytes) { s with lines := s.lines + 1 } with
      | error f s₁ =>
        rw [readLines_of_line_error hcut hcs hb hl] at h
        cases h
      | ok _ s₁ =>
        rw [readLines_of_line_ok hcut hcs hb hl] at h
        have hlines : s₁.lines = s.lines + 1 := (line_pc hl).2
        obtain ⟨read, rfl, hcount, hsame⟩ := ih h
        refine ⟨bytes :: read, rfl, ?_, fun hended failure' rest' => ?_⟩
        · rw [hcount, hlines, List.length_cons]
          omega
        · have hcut' := isCut_of_ended (hended bytes List.mem_cons_self) failure'
          rw [List.cons_append, readLines_of_line_ok hcut' hcs hb hl]
          exact hsame (fun line hl => hended line (List.mem_cons_of_mem _ hl)) failure' rest'

/-! ### Both parts -/

/-- The state in front of a part. -/
def begun (start : Nat) (s : Assembly) : Assembly :=
  { s with notices := s.notices.push (.part start (s.lines + 1)), pc := start }

/-- What is left of a load once the main part is read. -/
def rerun (failure : Option String) (lines : List (List UInt8)) : Action Assembly (Program × List UInt8) := do
  let rest ← part failure 0 lines
  let program ← finish
  return (program, rest.flatten)

theorem run_of_main {text : Source} {s s₁ : Assembly} {rest : List (List UInt8)}
    (h : readLines text.failure (Lines.split text.bytes) (begun Program.mainStart s) = .ok rest s₁) :
    run text s = rerun text.failure rest s₁ := Action.bind_of_ok h

theorem run_of_main_error {text : Source} {s s₁ : Assembly} {f : Fault}
    (h : readLines text.failure (Lines.split text.bytes) (begun Program.mainStart s) = .error f s₁) :
    run text s = .error f s₁ := Action.bind_of_error h

/-- A fault at the end of the text has no line. -/
theorem line_of_finish {f : Fault} (h : finish s = .error f s') : f.line = none := by
  rw [finish, Action.bind_of_ok (Action.get_apply s)] at h
  cases hu : s.labels.unresolved? with
  | some n =>
    simp only [hu] at h
    cases h
    rfl
  | none =>
    simp only [hu] at h
    cases h

end Assembly

namespace Program

open Assembly
open Lines (Ended isBlankLine split)

variable {l : Limits}

/-- A text of whole lines that ends with the blank line of its second part. -/
structure Closed (c : List UInt8) : Prop where
  ended : ∀ line ∈ split c, Ended line
  parts : ∃ main blank startup blank', split c = main ++ blank :: (startup ++ [blank']) ∧
    isBlankLine blank = true ∧ isBlankLine blank' = true ∧
    ∀ line ∈ main ++ startup, isBlankLine line = false

theorem Closed.whole {c : List UInt8} (h : Closed c) : Ended c := by
  obtain ⟨main, blank, startup, blank', hsplit, -⟩ := h.parts
  have hlast : Ended blank' := h.ended blank' (by rw [hsplit]; simp)
  have hflat : c = (main ++ blank :: startup).flatten ++ blank' := by
    rw [← Lines.flatten_split c, hsplit]
    simp
  unfold Ended at hlast ⊢
  rw [hflat, List.getLast?_append, hlast]
  rfl

/-- A closed text loads, or fails, in the same way whatever follows it. -/
theorem Closed.load {c : List UInt8} (h : Closed c) (l : Limits) :
    (∃ p, ∀ r failure, Program.load l ⟨c ++ r, failure⟩ = .ok (p, r)) ∨
      ∃ f, ∀ r failure, Program.load l ⟨c ++ r, failure⟩ = .error f := by
  obtain ⟨main, blank, startup, blank', hsplit, hblank, hblank', hnot⟩ := h.parts
  have hended := h.ended
  rw [hsplit] at hended
  have hmain : ∀ line ∈ main, isBlankLine line = false ∧ Ended line := fun line hl =>
    ⟨hnot line (List.mem_append_left _ hl), hended line (List.mem_append_left _ hl)⟩
  have hstartup : ∀ line ∈ startup, isBlankLine line = false ∧ Ended line := fun line hl =>
    ⟨hnot line (List.mem_append_right _ hl), hended line (by simp [hl])⟩
  have hlines : ∀ r, split (c ++ r) = main ++ blank :: (startup ++ blank' :: split r) := by
    intro r
    rw [Lines.split_append h.whole, hsplit]
    simp only [List.append_assoc, List.cons_append, List.nil_append]
  rcases readLines_closed hblank (hended blank (by simp)) hmain (begun mainStart (Assembly.new l)) with
    ⟨s₁, hread⟩ | ⟨f, s₁, hread⟩
  · have hrun : ∀ r failure, run ⟨c ++ r, failure⟩ (Assembly.new l) =
        rerun failure (startup ++ blank' :: split r) s₁ := fun r failure =>
      run_of_main (by rw [hlines]; exact hread failure _)
    rcases readLines_closed hblank' (hended blank' (by simp)) hstartup (begun 0 s₁) with
      ⟨s₂, hread'⟩ | ⟨f, s₂, hread'⟩
    · have hpart : ∀ r failure, part failure 0 (startup ++ blank' :: split r) s₁ = .ok (split r) s₂ :=
        fun r failure => hread' failure (split r)
      -- the labels are looked at when all lines are read, and they do not depend on the rest
      cases hfinish : finish s₂ with
      | ok p s₃ =>
        refine Or.inl ⟨p, fun r failure => Action.outcome_eq_ok.2 ⟨s₃, ?_⟩⟩
        rw [hrun, rerun, Action.bind_of_ok (hpart r failure), Action.bind_of_ok hfinish, Action.pure_apply,
          Lines.flatten_split]
      | error f s₃ =>
        refine Or.inr ⟨f, fun r failure => Action.outcome_eq_error.2 ⟨s₃, ?_⟩⟩
        rw [hrun, rerun, Action.bind_of_ok (hpart r failure), Action.bind_of_error hfinish]
    · refine Or.inr ⟨f, fun r failure => Action.outcome_eq_error.2 ⟨s₂, ?_⟩⟩
      rw [hrun]
      exact Action.bind_of_error (hread' failure _)
  · refine Or.inr ⟨f, fun r failure => Action.outcome_eq_error.2 ⟨s₁, run_of_main_error ?_⟩⟩
    rw [hlines]
    exact hread failure _

/-- A fault with the number of a line is that of every text that starts with the lines up to there. -/
theorem load_error {text : Source} {f : Fault} {n : Nat} (h : load l text = .error f)
    (hn : f.line = some n) :
    ∃ read rest, split text.bytes = read ++ rest ∧ n = read.length ∧
      ((∀ line ∈ read, Ended line) → ∀ text' rest', split text'.bytes = read ++ rest' →
        load l text' = .error f) := by
  obtain ⟨s', hrun⟩ := Action.outcome_eq_error.1 h
  cases hmain : readLines text.failure (split text.bytes) (begun mainStart (Assembly.new l)) with
  | error g s₁ =>
    rw [run_of_main_error hmain] at hrun
    cases hrun
    obtain ⟨read, rest, hsplit, -, hcount, hsame⟩ := readLines_error hmain hn
    refine ⟨read, rest, hsplit, ?_, fun hended text' rest' hsplit' => ?_⟩
    · rw [hcount]
      exact Nat.zero_add _
    · refine Action.outcome_eq_error.2 ⟨s', run_of_main_error ?_⟩
      rw [hsplit']
      exact hsame hended _ _
  | ok rest s₁ =>
    rw [run_of_main hmain] at hrun
    cases hstartup : readLines text.failure rest (begun 0 s₁) with
    | ok rest₂ s₂ =>
      -- then only a label can be missing, and that is not the fault of a line
      have hpart : part text.failure 0 rest s₁ = .ok rest₂ s₂ := hstartup
      rw [rerun, Action.bind_of_ok hpart] at hrun
      cases hfinish : finish s₂ with
      | ok p s₃ =>
        rw [Action.bind_of_ok hfinish] at hrun
        cases hrun
      | error g s₃ =>
        rw [Action.bind_of_error hfinish] at hrun
        cases hrun
        rw [line_of_finish hfinish] at hn
        cases hn
    | error g s₂ =>
      -- lines were left for the second part, so the first one was read up to its blank line
      have hpart : part text.failure 0 rest s₁ = .error g s₂ := hstartup
      rw [rerun, Action.bind_of_error hpart] at hrun
      cases hrun
      obtain ⟨read₂, rest₂, hrest, hne, hcount₂, hsame₂⟩ := readLines_error hstartup hn
      have hopen : rest ≠ [] := by
        rw [hrest]
        exact List.append_ne_nil_of_left_ne_nil hne _
      obtain ⟨read₁, hsplit, hcount₁, hsame₁⟩ := readLines_open hopen hmain
      refine ⟨read₁ ++ read₂, rest₂, ?_, ?_, fun hended text' rest' hsplit' => ?_⟩
      · rw [hsplit, hrest, List.append_assoc]
      · have hzero : (begun mainStart (Assembly.new l)).lines = 0 := rfl
        have hkeep : (begun 0 s₁).lines = s₁.lines := rfl
        rw [List.length_append, hcount₂, hkeep, hcount₁, hzero]
        omega
      · have hmain' := hsame₁ (fun line hl => hended line (List.mem_append_left _ hl)) text'.failure
          (read₂ ++ rest')
        have hpart' : part text'.failure 0 (read₂ ++ rest') s₁ = .error f s' :=
          hsame₂ (fun line hl => hended line (List.mem_append_right _ hl)) text'.failure rest'
        rw [← List.append_assoc, ← hsplit'] at hmain'
        refine Action.outcome_eq_error.2 ⟨s', ?_⟩
        rw [run_of_main hmain', rerun, Action.bind_of_error hpart']

/-- **Loading is determined by the lines that it reads.** A text that ends with the blank line of its
second part gives the same program or the same fault whatever follows it, and what follows is left
unread. A fault with the number of a line is that of every text with the same lines up to there. The
end of the source, whether it fails or not, has no part in either. -/
theorem load_local (l : Limits) :
    (∀ c, Closed c → ∀ r failure,
      load l ⟨c ++ r, failure⟩ = (load l ⟨c, none⟩).map fun x => (x.1, r)) ∧
    ∀ text f n, load l text = .error f → f.line = some n →
      (∀ line ∈ (split text.bytes).take n, Ended line) →
        ∀ text' : Source, (split text'.bytes).take n = (split text.bytes).take n →
          load l text' = .error f := by
  constructor
  · intro c hc r failure
    rcases hc.load l with ⟨p, hload⟩ | ⟨f, hload⟩
    · have halone := hload [] none
      rw [List.append_nil] at halone
      rw [hload, halone]
      rfl
    · have halone := hload [] none
      rw [List.append_nil] at halone
      rw [hload, halone]
      rfl
  · intro text f n h hn hended text' hsame
    obtain ⟨read, rest, hsplit, hlength, hall⟩ := load_error h hn
    have htake : (split text.bytes).take n = read := by
      rw [hsplit, hlength]
      exact List.take_left
    rw [htake] at hended hsame
    refine hall hended text' ((split text'.bytes).drop n) ?_
    rw [← hsame, List.take_append_drop]

/-- A text of two parts, with a label that is declared after its use. -/
def closedText : List Char := " UJP L1\nL1\n STP\n \n MST 0\n STP\n\n".toList

/-- A text with a fault in its second part. -/
def faultyText : List Char := " ADI\n\n FOO\n STP\n".toList

/-- Limits with room for these texts. -/
def shortLimits : Limits := { stackSize := 8, pools := {}, codeSize := 8, maxLabel := 1 }

theorem load_local_closedText :
    load shortLimits ⟨Lines.encode (closedText ++ "DATA\n".toList), none⟩ =
      (load shortLimits ⟨Lines.encode closedText, none⟩).map (fun x => (x.1, Lines.encode "DATA\n".toList)) ∧
    (load shortLimits ⟨Lines.encode closedText, none⟩).isOk = true ∧
    ∀ failure, load shortLimits ⟨Lines.encode " ADI\n\n FOO\n\n".toList, failure⟩ =
      .error ((Fault.unknownName "FOO").inLine 3) := by
  have hclosed : Closed (Lines.encode closedText) :=
    ⟨by decide +kernel, [Lines.encode " UJP L1\n".toList, Lines.encode "L1\n".toList,
      Lines.encode " STP\n".toList], Lines.encode " \n".toList, [Lines.encode " MST 0\n".toList,
      Lines.encode " STP\n".toList], Lines.encode "\n".toList, by decide +kernel, by decide +kernel,
      by decide +kernel, by decide +kernel⟩
  obtain ⟨hfollowed, hfault⟩ := load_local shortLimits
  have hencode : Lines.encode (closedText ++ "DATA\n".toList) =
      Lines.encode closedText ++ Lines.encode "DATA\n".toList := List.flatMap_append
  have hsame : (split (Lines.encode " ADI\n\n FOO\n\n".toList)).take 3 =
      (split (Lines.encode faultyText)).take 3 := by decide +kernel
  refine ⟨?_, by decide +kernel, fun failure => ?_⟩
  · rw [hencode]
    exact hfollowed _ hclosed _ none
  · exact hfault ⟨Lines.encode faultyText, none⟩ _ 3 (by decide +kernel) rfl (by decide +kernel) _ hsame

end Program

end PMachine
