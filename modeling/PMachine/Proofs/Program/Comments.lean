import PMachine.Proofs.Program.Agreement
import PMachine.Proofs.Program.Locality

/-!
# Comments and the ends of lines do not count

A comment is read and forgotten: it takes no code address and ends no part. The characters at the end of
a line do not belong to its text. So two texts that have the same lines but for comments and ends of
lines are the same program; all that may differ is at which line a fault is found. A load that never ends
goes on for ever with comments as it does without.

* `Program.significant`: the lines of a text that count.
* `Assembly.core`: a program under construction without the count of its lines.
* `Assembly.digest_line`, `Assembly.digest_readAll`: one line, and many of them with comments or without.
* `Assembly.digest_part_eq`: a part of each text.
* `Program.NeverLoads`: a text whose load never ends.
* `Program.load_significant`: the whole texts.
-/

namespace PMachine

/-- The fault without the number of its line; that it has one still shows. -/
def Fault.unnumbered (f : Fault) : Fault := { f with line := f.line.map fun _ => 0 }

theorem Fault.isEndless_of_unnumbered {f g : Fault} (h : f.unnumbered = g.unnumbered) :
    f.isEndless = g.isEndless := by
  have hsame : f.unnumbered.isEndless = g.unnumbered.isEndless := congrArg Fault.isEndless h
  exact hsame

namespace Lines

/-- Whether a line is a comment. -/
def isComment (text : LineText) : Bool := text.head? = some 'I'

/-- The lines before the `n`-th blank one, counted from 0; all of them if there are not so many. -/
def beforeBlank : Nat → List LineText → List LineText
  | _, [] => []
  | 0, text :: more => if isBlank text then [] else text :: beforeBlank 0 more
  | n + 1, text :: more => text :: beforeBlank (if isBlank text then n else n + 1) more

/-- A blank line is no comment. -/
theorem not_isComment_of_isBlank {text : LineText} (h : isBlank text = true) : isComment text = false := by
  cases text with
  | nil => rfl
  | cons c text =>
    rw [isComment, List.head?_cons, decide_eq_false_iff_not, Option.some.injEq]
    rintro rfl
    rw [isBlank, List.all_cons, Bool.and_eq_true] at h
    exact absurd h.1 (by decide)

/-- With no blank line to go the lines up to the first one are taken. -/
theorem beforeBlank_zero (texts : List LineText) :
    beforeBlank 0 texts = texts.takeWhile fun text => !isBlank text := by
  induction texts with
  | nil => rfl
  | cons text more ih =>
    rw [beforeBlank, List.takeWhile_cons, ih]
    cases isBlank text <;> rfl

/-- With one to go the lines behind it are taken as well. -/
theorem beforeBlank_one (texts : List LineText) :
    beforeBlank 1 texts = (texts.takeWhile fun text => !isBlank text) ++
      match texts.dropWhile fun text => !isBlank text with
      | [] => []
      | blank :: rest => blank :: rest.takeWhile fun text => !isBlank text := by
  induction texts with
  | nil => rfl
  | cons text more ih =>
    rw [beforeBlank, List.takeWhile_cons, List.dropWhile_cons]
    cases hb : isBlank text with
    | true => simp only [beforeBlank_zero, if_true, Bool.not_true, Bool.false_eq_true, if_false, List.nil_append]
    | false => simp only [ih, Bool.false_eq_true, if_false, Bool.not_false, if_true, List.cons_append]

end Lines

namespace Program

open Lines (isBlank isComment beforeBlank)

/-- The lines that count: those before the second blank one, each without its end, and no comments. -/
def significant (bytes : List UInt8) : List LineText :=
  (beforeBlank 1 ((Lines.split bytes).map lineText)).filter fun text => !isComment text

/-- The second part lies between the first two blank lines. -/
theorem startupTexts_eq (bytes : List UInt8) : startupTexts bytes =
    (((Lines.split bytes).map lineText).dropWhile fun text => !isBlank text).tail.takeWhile
      fun text => !isBlank text := by
  have hdrop : ∀ texts : List LineText, texts.drop (texts.takeWhile fun text => !isBlank text).length =
      texts.dropWhile fun text => !isBlank text := fun texts => by
    have hleft : (texts.takeWhile (fun text => !isBlank text) ++
        texts.dropWhile fun text => !isBlank text).drop
          (texts.takeWhile fun text => !isBlank text).length = _ := List.drop_left
    rwa [List.takeWhile_append_dropWhile] at hleft
  unfold startupTexts mainTexts partTexts
  rw [List.map_drop, ← List.tail_drop, hdrop]

/-- The lines that count are those of the main part and, after a blank one, those of the startup part. -/
theorem significant_eq (bytes : List UInt8) : ∃ tail : List LineText,
    significant bytes = (mainTexts bytes).filter (fun text => !isComment text) ++ tail ∧
    tail.tail = (startupTexts bytes).filter (fun text => !isComment text) ∧
    ∀ blank ∈ tail.head?, isBlank blank = true := by
  rw [significant, Lines.beforeBlank_one, List.filter_append, startupTexts_eq]
  refine ⟨_, rfl, ?_⟩
  cases hrest : ((Lines.split bytes).map lineText).dropWhile fun text => !isBlank text with
  | nil => exact ⟨rfl, nofun⟩
  | cons blank rest =>
    have hblank : isBlank blank = true := by
      have hnot := List.head?_dropWhile_not (fun text => !isBlank text) ((Lines.split bytes).map lineText)
      rw [hrest] at hnot
      simpa using hnot
    simp only [List.filter_cons, Lines.not_isComment_of_isBlank hblank, Bool.not_false, if_true]
    refine ⟨rfl, fun b hb => ?_⟩
    cases hb
    exact hblank

/-- The two parts can be told from the lines that count. -/
theorem parts_of_significant (bytes : List UInt8) :
    (significant bytes).takeWhile (fun text => !isBlank text) =
      (mainTexts bytes).filter (fun text => !isComment text) ∧
    ((significant bytes).dropWhile fun text => !isBlank text).tail =
      (startupTexts bytes).filter fun text => !isComment text := by
  obtain ⟨tail, hsig, hstartup, hblank⟩ := significant_eq bytes
  have hmain : ∀ text ∈ (mainTexts bytes).filter (fun text => !isComment text), (!isBlank text) = true :=
    fun text ht => by
      have hin : text ∈ ((Lines.split bytes).map lineText).takeWhile fun text => !isBlank text :=
        (List.mem_filter.1 ht).1
      exact List.mem_takeWhile_imp (p := fun text => !isBlank text) hin
  rw [hsig, List.takeWhile_append_of_pos hmain, List.dropWhile_append_of_pos hmain, ← hstartup]
  -- what follows the main part is nothing or starts with a blank line
  cases tail with
  | nil => exact ⟨List.append_nil _, rfl⟩
  | cons blank rest =>
    have hb : (!isBlank blank) = false := by simp [hblank blank rfl]
    rw [List.takeWhile_cons, List.dropWhile_cons, hb]
    exact ⟨List.append_nil _, rfl⟩

end Program

namespace Assembly

open Lines (isBlank isComment)
open Program (lineText partTexts)

/-- A program under construction, without the count of its lines and the reports. -/
def core (s : Assembly) : Assembly := { s with lines := 0, notices := #[] }

/-- What a run comes to, the numbers of lines apart. -/
def digest {α : Type} : EStateM.Result Fault Assembly α → Except Fault Assembly
  | .ok _ s => .ok s.core
  | .error f _ => .error f.unnumbered

variable {α β : Type} {s t : Assembly} {x : EStateM.Result Fault Assembly α}
  {y : EStateM.Result Fault Assembly β}

/-- Two runs that come to the same both succeed, or both fail with the same fault. -/
theorem cases_of_digest (h : digest x = digest y) :
    (∃ a b s t, x = .ok a s ∧ y = .ok b t ∧ s.core = t.core) ∨
      ∃ f g s t, x = .error f s ∧ y = .error g t ∧ f.unnumbered = g.unnumbered := by
  cases x with
  | ok a s =>
    cases y with
    | ok b t => exact Or.inl ⟨a, b, s, t, rfl, rfl, Except.ok.inj h⟩
    | error g t => cases h
  | error f s =>
    cases y with
    | ok b t => cases h
    | error g t => exact Or.inr ⟨f, g, s, t, rfl, rfl, Except.error.inj h⟩

/-! ### Lines -/

theorem digest_declareLabel (n : Nat) (value : Option Nat) (s : Assembly) :
    digest (declareLabel n value s) = digest (declareLabel n value s.core) := by
  simp only [declareLabel, Action.recover, onLinking, Action.zoom, core]
  cases Linking.declare n (value.getD s.pc) ⟨s.labels, s.code⟩ with
  | ok _ t => rfl
  | error f t =>
    simp only
    split <;> rfl

theorem digest_placeStatement (st : Statement) (s : Assembly) :
    digest (placeStatement st s) = digest (placeStatement st s.core) := by
  simp only [placeStatement, onTables, Action.zoom, core]
  cases st.assemble s.pc ⟨s.store, s.labels⟩ <;> rfl

/-- What a line does to a program does not depend on how many lines were read before. -/
theorem digest_line (text : LineText) (s : Assembly) : digest (line text s) = digest (line text s.core) := by
  rw [line_eq, line_eq]
  have hstore : s.core.store = s.store := rfl
  have hpc : s.core.pc = s.pc := rfl
  rw [hstore, hpc]
  split
  · rfl
  · cases Line.read text with
    | error f => rfl
    | ok x =>
      cases x with
      | comment => rfl
      | declaration n value => exact digest_declareLabel n value s
      | instruction st => exact digest_placeStatement st s

/-- A comment does nothing. -/
theorem line_comment {text : LineText} (h : isComment text = true) (s : Assembly) :
    line text s = .ok () s := by
  cases text with
  | nil => cases h
  | cons c text =>
    have hc : c = 'I' := by simpa [isComment] using h
    subst hc
    rfl

theorem unnumbered_inLine {f g : Fault} (h : f.unnumbered = g.unnumbered) (m n : Nat) :
    (f.inLine m).unnumbered = (g.inLine n).unnumbered := by
  unfold Fault.unnumbered at h
  unfold Fault.unnumbered Fault.inLine
  simp only [Fault.mk.injEq] at h ⊢
  exact ⟨h.1, h.2.1, rfl, h.2.2.2⟩

/-- **Comments do not count**: a run over many lines comes to the same without them. -/
theorem digest_readAll : ∀ (texts : List LineText) (s t : Assembly), s.core = t.core →
    digest (readAll texts s) = digest (readAll (texts.filter fun text => !isComment text) t) := by
  intro texts
  induction texts with
  | nil => exact fun s t h => congrArg Except.ok h
  | cons text more ih =>
    intro s t h
    rw [List.filter_cons]
    by_cases hc : isComment text = true
    · rw [if_neg (by simp [hc]), readAll_of_ok (line_comment hc _)]
      exact ih _ t h
    · rw [if_pos (by simpa using hc)]
      have hline : digest (line text { s with lines := s.lines + 1 }) =
          digest (line text { t with lines := t.lines + 1 }) := by
        rw [digest_line, digest_line text { t with lines := t.lines + 1 }]
        exact congrArg (fun s => digest (line text s)) h
      rcases cases_of_digest hline with ⟨_, _, s', t', hs, ht, hcore⟩ | ⟨f, g, s', t', hs, ht, hfault⟩
      · rw [readAll_of_ok hs, readAll_of_ok ht]
        exact ih s' t' hcore
      · rw [readAll_of_error hs, readAll_of_error ht]
        exact congrArg Except.error (unnumbered_inLine hfault _ _)

/-! ### Parts -/

/-- A part comes to what a run over its lines comes to. -/
theorem digest_part {lines : List (List UInt8)} (hlines : ∀ bytes ∈ lines, ∃ cs, bytes = Lines.encode cs)
    (start : Nat) (s : Assembly) :
    digest (part none start lines s) = digest (readAll (partTexts lines) (begun start s)) ∧
      ∀ rest s', part none start lines s = .ok rest s' → rest = lines.drop ((partTexts lines).length + 1) := by
  have hpart : part none start lines s = readLines none lines (begun start s) := rfl
  rw [hpart, readLines_eq lines _ hlines]
  cases readAll (partTexts lines) (begun start s) with
  | ok _ s₁ =>
    refine ⟨rfl, fun rest s' h => ?_⟩
    cases h
    rfl
  | error f s₁ => exact ⟨rfl, fun rest s' h => by cases h⟩

variable {lines lines' : List (List UInt8)}

/-- **Parts with the same lines that count** come to the same. -/
theorem digest_part_eq (hlines : ∀ bytes ∈ lines, ∃ cs, bytes = Lines.encode cs)
    (hlines' : ∀ bytes ∈ lines', ∃ cs, bytes = Lines.encode cs)
    (hsame : (partTexts lines).filter (fun text => !isComment text) =
      (partTexts lines').filter fun text => !isComment text)
    (h : s.core = t.core) (start : Nat) :
    digest (part none start lines s) = digest (part none start lines' t) := by
  have hbegun : (begun start s).core = (begun start t).core :=
    congrArg (fun s : Assembly => { s with pc := start }) h
  rw [(digest_part hlines start s).1, (digest_part hlines' start t).1,
    digest_readAll _ _ (begun start t) hbegun, digest_readAll (partTexts lines') _ _ rfl, hsame]

/-- Two loads end alike: with one program, or with faults that may differ in the number of the line. -/
def EndAlike (x y : EStateM.Result Fault Assembly (Program × List UInt8)) : Prop :=
  (∃ p rest rest' s t, x = .ok (p, rest) s ∧ y = .ok (p, rest') t) ∨
    ∃ f g s t, x = .error f s ∧ y = .error g t ∧ f.unnumbered = g.unnumbered

/-- Assemblies that differ only in the lines they have counted finish alike. -/
theorem finish_of_core (h : s.core = t.core) :
    (∃ p s' t', finish s = .ok p s' ∧ finish t = .ok p t') ∨
      ∃ f s' t', finish s = .error f s' ∧ finish t = .error f t' := by
  have hlabels : s.labels = t.labels := congrArg (·.labels) h
  have hcode : s.code = t.code := congrArg (·.code) h
  have hstore : s.store = t.store := congrArg (·.store) h
  rw [finish, Action.bind_of_ok (Action.get_apply s), Action.bind_of_ok (Action.get_apply t), hlabels, hcode,
    hstore]
  cases t.labels.unresolved? with
  | some n => exact Or.inr ⟨_, _, _, rfl, rfl⟩
  | none => exact Or.inl ⟨_, _, _, rfl, rfl⟩

/-- The second parts, after main parts that came to the same. -/
theorem rerun_alike (hlines : ∀ bytes ∈ lines, ∃ cs, bytes = Lines.encode cs)
    (hlines' : ∀ bytes ∈ lines', ∃ cs, bytes = Lines.encode cs)
    (hsame : (partTexts lines).filter (fun text => !isComment text) =
      (partTexts lines').filter fun text => !isComment text)
    (h : s.core = t.core) : EndAlike (rerun none lines s) (rerun none lines' t) := by
  rcases cases_of_digest (digest_part_eq hlines hlines' hsame h 0) with
    ⟨rest, rest', s₁, t₁, hs, ht, hcore⟩ | ⟨f, g, s₁, t₁, hs, ht, hfault⟩
  · rw [rerun, rerun, Action.bind_of_ok hs, Action.bind_of_ok ht]
    rcases finish_of_core hcore with ⟨p, s', t', hs, ht⟩ | ⟨f, s', t', hs, ht⟩
    · rw [Action.bind_of_ok hs, Action.bind_of_ok ht]
      exact Or.inl ⟨p, _, _, s', t', rfl, rfl⟩
    · rw [Action.bind_of_error hs, Action.bind_of_error ht]
      exact Or.inr ⟨f, f, s', t', rfl, rfl, rfl⟩
  · rw [rerun, rerun, Action.bind_of_error hs, Action.bind_of_error ht]
    exact Or.inr ⟨f, g, s₁, t₁, rfl, rfl, hfault⟩

end Assembly

namespace Program

open Assembly

/-- The load of a text never ends: a declaration goes round a chain of references for ever. -/
def NeverLoads (l : Limits) (text : List Char) : Prop :=
  ∃ f, load l ⟨Lines.encode text, none⟩ = .error f ∧ f.isEndless = true

/-- A text whose parts do not meet is loaded or refused. -/
theorem not_neverLoads {l : Limits} {text : List Char}
    (hmeet : Entry.addresses (mainLayout (Lines.encode text)) = [] ∨
      (Entry.addresses (startupLayout (Lines.encode text))).length ≤ mainStart)
    (hsize : min l.codeSize (mainStart + (Lines.encode text).length) ≤ 0x8000000000000000) :
    ¬ NeverLoads l text := by
  rintro ⟨f, hload, hendless⟩
  have hstop := stopsLoading_of_fault? ((load_eq_error_iff (apart_layout hmeet hsize) f).1 hload)
  have hkind : f.kind = .internal := by
    rw [Fault.isEndless, Bool.and_eq_true, decide_eq_true_eq] at hendless
    exact hendless.1
  rcases hstop with (hk | hk) | hk | hk <;> exact absurd (hk.symm.trans hkind) (by decide)

/-- A text with comments and carriage returns. -/
def remarkedText : List Char := "I main\r\n UJP L1\r\nIend\nL1\r\r\n STP\n\r\nI startup\n FOO\n\n".toList

/-- The same text without them. -/
def plainText : List Char := " UJP L1\nL1\n STP\n\n FOO".toList

/-- The startup part puts an integer in the place of a reference; the declaration takes it for one that
leads to itself. -/
example : NeverLoads shortLimits " UJP L1\n\n STP\n STP\n STP\n LDC I 3\nL1=3\n".toList :=
  ⟨Fault.endless.inLine 7, by decide +kernel⟩

end Program

end PMachine
