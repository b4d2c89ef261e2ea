import PMachine.Files.TextInput
import PMachine.Proofs.Action

/-!
# Text input is a flat cursor

A file is fetched line by line, when a byte of the next line is asked for. None of this shows: what is
read is what a cursor delivers that goes over all bytes of the file one after the other. To that cursor a
carriage return before the end of a line does not exist.

* `FlatText`: the cursor over bytes, with the operations of a file.
* `TextInput.view`: the bytes that a file still has, fetched or not.
* `TextInput.fill_view`: a fetch changes nothing in them, and brings the next one to the front.
* `TextInput.Reads`: an operation of a file does to its bytes what an operation of the cursor does.
* `TextCall.answers_flat`: all operations in any order, from the start of a file.
-/

namespace PMachine

namespace FlatText

/-- The bytes of a file without the carriage returns before the ends of lines. -/
def normalise : List UInt8 → List UInt8
  | [] => []
  | b :: l => if b = 13 ∧ l.head? = some newline then normalise l else b :: normalise l

/-- The character of a byte. -/
def character (b : UInt8) : Char := Char.ofNat b.toNat

/-- The code with which a byte is read. -/
def code (b : UInt8) : Word := if b = newline then 13 else Int64.ofNat b.toNat

/-- Whether no byte is left. -/
def atEnd : Action (List UInt8) Bool := do
  let l ← get
  return l.isEmpty

/-- Whether no byte is left or the next one is the end of a line. -/
def atLineEnd : Action (List UInt8) Bool := do
  let l ← get
  return l.head?.all (· = newline)

/-- The next byte, or 0 if there is none. -/
def read : Action (List UInt8) Word
  | [] => .ok 0 []
  | b :: l => .ok (code b) l

/-- Goes just past the next end of a line, or to the end. -/
def readLine : Action (List UInt8) Unit := modify fun l => (l.dropWhile (· ≠ newline)).tail

/-- The longest run of characters with a property. -/
def takeWhile (p : Char → Bool) : Action (List UInt8) (List Char) := fun l =>
  .ok ((l.takeWhile (p ∘ character)).map character) (l.dropWhile (p ∘ character))

/-- The next character, if it has a property. -/
def accept (p : Char → Bool) : Action (List UInt8) (Option Char)
  | [] => .ok none []
  | b :: l => if p (character b) then .ok (some (character b)) l else .ok none (b :: l)

/-- An optional sign; tells whether it is a minus. -/
def sign : Action (List UInt8) Bool := do
  let c ← accept fun c => c = '-' || c = '+'
  return c = some '-'

/-- Digits, at least one of them. -/
def digits (missing : Fault) : Action (List UInt8) (List Char) := do
  let cs ← takeWhile Char.isDigit
  if cs.isEmpty then throw missing
  return cs

/-- White space, then an optional sign and digits. -/
def readInteger : Action (List UInt8) Word := do
  let _ ← takeWhile TextInput.isSpace
  let negative ← sign
  let cs ← digits .integerExpected
  Action.orFault (Word.ofInt? (Cursor.signed negative (Cursor.value cs))) .integerInput

/-- A point and the digits after it, if there is a point. -/
def fraction : Action (List UInt8) (List Char) := do
  match ← accept (· = '.') with
  | some _ => takeWhile Char.isDigit
  | none => return []

/-- An exponent mark, an optional sign and digits, if there is a mark. -/
def exponent : Action (List UInt8) Int := do
  match ← accept fun c => c = 'e' || c = 'E' with
  | some _ =>
    let negative ← sign
    let cs ← digits .exponentExpected
    return Cursor.signed negative (Cursor.value cs)
  | none => return 0

/-- White space, then an optional sign, digits with an optional point among them, and an optional
exponent. -/
def readReal : Action (List UInt8) Binary64 := do
  let _ ← takeWhile TextInput.isSpace
  let negative ← sign
  let whole ← takeWhile Char.isDigit
  let part ← fraction
  if whole.isEmpty && part.isEmpty then throw .realExpected
  let power ← exponent
  return (⟨negative, Cursor.value (whole ++ part), power - part.length⟩ : Decimal).toBinary64

/-! ### Bytes -/

theorem character_eq_newline : ∀ b : UInt8, character b = '\n' ↔ b = newline := by decide +kernel

/-- Normalising makes no text longer. -/
theorem length_normalise_le : ∀ l : List UInt8, (normalise l).length ≤ l.length := by
  intro l
  induction l with
  | nil => rfl
  | cons b l ih =>
    unfold normalise
    split
    · exact ih.trans (Nat.le_succ _)
    · exact Nat.succ_le_succ ih

/-- Only what comes before the end of a line is dropped. -/
theorem normalise_of_no_newline {l : List UInt8} (h : ∀ b ∈ l, b ≠ newline) : normalise l = l := by
  induction l with
  | nil => rfl
  | cons b l ih =>
    have hhead : l.head? ≠ some newline := by
      intro hl
      exact h newline (List.mem_cons_of_mem _ (List.mem_of_mem_head? hl)) rfl
    rw [normalise, if_neg fun hb => hhead hb.2, ih fun x hx => h x (List.mem_cons_of_mem _ hx)]

theorem normalise_newline (rest : List UInt8) :
    normalise (newline :: rest) = newline :: normalise rest := by
  have hne : newline ≠ 13 := by decide
  rw [normalise, if_neg fun h => hne h.1]

/-- A line is normalised by itself. -/
theorem normalise_line {l : List UInt8} (h : ∀ b ∈ l, b ≠ newline) (rest : List UInt8) :
    normalise (l ++ newline :: rest) = TextInput.dropReturn (l ++ [newline]) ++ normalise rest := by
  induction l with
  | nil => exact normalise_newline rest
  | cons b l ih =>
    have ih := ih fun x hx => h x (List.mem_cons_of_mem _ hx)
    rw [List.cons_append, List.cons_append, normalise, TextInput.dropReturn]
    by_cases hb : b = 13 ∧ l = []
    · obtain ⟨rfl, rfl⟩ := hb
      rw [if_pos ⟨rfl, rfl⟩, if_pos ⟨rfl, rfl⟩]
      exact normalise_newline rest
    · -- a carriage return further to the left stays
      have hhead : ¬ (b = 13 ∧ (l ++ newline :: rest).head? = some newline) := by
        rintro ⟨rfl, hl⟩
        refine hb ⟨rfl, ?_⟩
        cases l with
        | nil => rfl
        | cons c l =>
          refine absurd (Option.some.inj hl) (h c ?_)
          exact List.mem_cons_of_mem _ List.mem_cons_self
      have hlast : ¬ (b = 13 ∧ l ++ [newline] = [newline]) := by
        rintro ⟨rfl, hl⟩
        exact hb ⟨rfl, List.append_left_eq_self.1 hl⟩
      rw [if_neg hhead, if_neg hlast, ih, List.cons_append]

/-- Without a newline nothing is dropped. -/
theorem dropReturn_of_no_newline {l : List UInt8} (h : ∀ b ∈ l, b ≠ newline) :
    TextInput.dropReturn l = l := by
  induction l with
  | nil => rfl
  | cons b l ih =>
    have hlast : l ≠ [newline] := by
      rintro rfl
      exact h newline (List.mem_cons_of_mem _ List.mem_cons_self) rfl
    rw [TextInput.dropReturn, if_neg fun hb => hlast hb.2, ih fun x hx => h x (List.mem_cons_of_mem _ hx)]

end FlatText

namespace TextInput

open FlatText (normalise character)

/-- The bytes that a file still has: the rest of the last line, and what was not fetched yet. -/
def view (t : TextInput) : List UInt8 := t.line ++ normalise t.source.bytes

/-- A file that does not fail. At its end nothing is left. -/
structure Steady (t : TextInput) : Prop where
  failure : t.source.failure = none
  ended : t.ended = true → t.line = [] ∧ t.source.bytes = []

variable {α β : Type} {t : TextInput}

theorem steady_ofSource (bytes : List UInt8) : (ofSource ⟨bytes, none⟩).Steady := ⟨rfl, nofun⟩

/-! ### Fetching -/

theorem eq_nil_of_dropReturn {l : List UInt8} (h : dropReturn l = []) : l = [] := by
  cases l with
  | nil => rfl
  | cons b l =>
    rw [dropReturn] at h
    split at h
    · rename_i hb
      rw [hb.2] at h
      cases h
    · cases h

/-- A fetch takes the next line with its end, or all that is left. -/
theorem fetch_cases (s : Source) :
    (∃ l rest, (∀ b ∈ l, b ≠ newline) ∧ s.bytes = l ++ newline :: rest ∧
      s.fetch = (⟨l ++ [newline], none⟩, { s with bytes := rest })) ∨
    (∀ b ∈ s.bytes, b ≠ newline) ∧ s.fetch = (⟨s.bytes, s.failure⟩, { s with bytes := [] }) := by
  have hsplit : s.bytes = s.bytes.takeWhile (· ≠ newline) ++ s.bytes.dropWhile (· ≠ newline) :=
    List.takeWhile_append_dropWhile.symm
  have hbefore : ∀ b ∈ s.bytes.takeWhile (· ≠ newline), b ≠ newline := fun b hb => by
    simpa using List.mem_takeWhile_imp hb
  rw [Source.fetch, List.span_eq_takeWhile_dropWhile]
  cases hrest : s.bytes.dropWhile (· ≠ newline) with
  | nil =>
    rw [hrest, List.append_nil] at hsplit
    rw [← hsplit] at hbefore ⊢
    exact Or.inr ⟨hbefore, rfl⟩
  | cons b rest =>
    have hb : b = newline := by
      have hnot := List.head?_dropWhile_not (· ≠ newline) s.bytes
      rw [hrest] at hnot
      simpa using hnot
    rw [hrest, hb] at hsplit
    exact Or.inl ⟨_, rest, hbefore, hsplit, by rw [hb]⟩

/-- A line that was fetched with its end stands in front of the bytes that are left. -/
theorem fetched_line {l : List UInt8} (h : ∀ b ∈ l, b ≠ newline) (rest : List UInt8) :
    normalise (l ++ newline :: rest) = dropReturn (l ++ [newline]) ++ normalise rest ∧
      dropReturn (l ++ [newline]) ≠ [] :=
  ⟨FlatText.normalise_line h rest, fun hnil =>
    List.append_ne_nil_of_right_ne_nil _ (List.cons_ne_nil newline []) (eq_nil_of_dropReturn hnil)⟩

/-- **A fetch does not show**: the bytes of the file are the same, and the next one is at hand. -/
theorem fill_view (h : t.Steady) :
    ∃ t', fill t = .ok () t' ∧ t'.Steady ∧ t'.view = t.view ∧ t'.line.head? = t.view.head? := by
  unfold fill
  by_cases hfetch : (t.line.isEmpty && !t.ended) = true
  · -- the last line is used up, and what is fetched takes its place
    have hline : t.line = [] := by
      have := (Bool.and_eq_true_iff.1 hfetch).1
      exact List.isEmpty_iff.1 this
    have hview : t.view = normalise t.source.bytes := by rw [view, hline, List.nil_append]
    rw [if_pos hfetch]
    rcases fetch_cases t.source with ⟨l, rest, hl, hbytes, hrun⟩ | ⟨hl, hrun⟩
    · obtain ⟨hsplit, hne⟩ := fetched_line hl rest
      rw [← hbytes, ← hview] at hsplit
      rw [hrun]
      refine ⟨_, rfl, ⟨h.failure, fun hended => ?_⟩, hsplit.symm, ?_⟩
      · simp at hended
      · rw [hsplit, List.head?_append_of_ne_nil _ hne]
    · -- the last bytes are no whole line, or there are none
      rw [FlatText.normalise_of_no_newline hl] at hview
      rw [hrun]
      simp only [h.failure, FlatText.dropReturn_of_no_newline hl]
      refine ⟨_, rfl, ⟨rfl, fun hended => ⟨List.isEmpty_iff.1 hended, rfl⟩⟩, ?_, ?_⟩
      · rw [hview, view, normalise, List.append_nil]
      · rw [hview]
  · -- there is a byte at hand, or there is none any more
    rw [if_neg hfetch]
    refine ⟨t, rfl, h, rfl, ?_⟩
    rw [Bool.and_eq_true_iff, not_and_or] at hfetch
    unfold view
    rcases hfetch with hline | hended
    · rw [List.head?_append_of_ne_nil]
      intro hnil
      rw [hnil] at hline
      exact hline rfl
    · have hended : t.ended = true := by simpa using hended
      obtain ⟨hline, hbytes⟩ := h.ended hended
      rw [hline, hbytes]
      rfl

/-! ### Operations -/

/-- An operation of a file does to the bytes that the file has what an operation of the cursor does, and
ends in the same way. -/
def Reads (act : Action TextInput α) (flat : Action (List UInt8) α) : Prop :=
  ∀ t : TextInput, t.Steady → ∃ t' : TextInput, t'.Steady ∧
    ((∃ a, act t = .ok a t' ∧ flat t.view = .ok a t'.view) ∨
      ∃ f, act t = .error f t' ∧ flat t.view = .error f t'.view)

namespace Reads

theorem pure (a : α) : Reads (Pure.pure a) (Pure.pure a) := fun t h =>
  ⟨t, h, Or.inl ⟨a, rfl, rfl⟩⟩

theorem throw (f : Fault) :
    Reads (MonadExcept.throw f : Action TextInput α) (MonadExcept.throw f) := fun t h =>
  ⟨t, h, Or.inr ⟨f, rfl, rfl⟩⟩

theorem orFault (x : Option α) (f : Fault) : Reads (Action.orFault x f) (Action.orFault x f) := by
  cases x with
  | some a => exact pure a
  | none => exact throw f

theorem bind {act : Action TextInput α} {flat : Action (List UInt8) α} {k : α → Action TextInput β}
    {k' : α → Action (List UInt8) β} (h : Reads act flat) (hk : ∀ a, Reads (k a) (k' a)) :
    Reads (act >>= k) (flat >>= k') := by
  intro t ht
  obtain ⟨t₁, ht₁, ⟨a, hact, hflat⟩ | ⟨f, hact, hflat⟩⟩ := h t ht
  · rw [Action.bind_of_ok hact, Action.bind_of_ok hflat]
    exact hk a t₁ ht₁
  · exact ⟨t₁, ht₁, Or.inr ⟨f, Action.bind_of_error hact, Action.bind_of_error hflat⟩⟩

theorem ite {c : Prop} [Decidable c] {x y : Action TextInput α} {x' y' : Action (List UInt8) α}
    (hx : Reads x x') (hy : Reads y y') : Reads (if c then x else y) (if c then x' else y') := by
  split
  · exact hx
  · exact hy

end Reads

/-- Looking at the next byte consumes nothing, and stepping over it consumes this byte. -/
theorem peekByte_view (h : t.Steady) :
    ∃ t', peekByte t = .ok t.view.head? t' ∧ t'.Steady ∧ t'.view = t.view ∧
      ∀ b l, t.view = b :: l → (Cursor.advance t').Steady ∧ (Cursor.advance t').view = l := by
  obtain ⟨t', hfill, ht', hview, hhead⟩ := fill_view h
  refine ⟨t', ?_, ht', hview, fun b l hcons => ?_⟩
  · rw [peekByte, Action.bind_of_ok hfill, Action.bind_of_ok (Action.get_apply t'), hhead,
      Action.pure_apply]
  · rw [hcons, List.head?_cons, List.head?_eq_some_iff] at hhead
    obtain ⟨line, hline⟩ := hhead
    have hadvance : Cursor.advance t' = { t' with line := line } := by
      show { t' with line := t'.line.tail } = { t' with line := line }
      rw [hline, List.tail_cons]
    rw [hadvance]
    refine ⟨⟨ht'.failure, fun hended => ?_⟩, ?_⟩
    · rw [(ht'.ended hended).1] at hline
      cases hline
    · have hsplit : b :: (line ++ normalise t'.source.bytes) = b :: l := by
        rw [← hcons, ← hview, view, hline, List.cons_append]
      exact (List.cons.inj hsplit).2

theorem atEnd_reads : Reads atEnd FlatText.atEnd := by
  intro t ht
  obtain ⟨t', hpeek, ht', hview, -⟩ := peekByte_view ht
  refine ⟨t', ht', Or.inl ⟨t.view.isEmpty, ?_, by rw [hview]; rfl⟩⟩
  rw [atEnd, Action.bind_of_ok hpeek]
  cases t.view <;> rfl

theorem atLineEnd_reads : Reads atLineEnd FlatText.atLineEnd := by
  intro t ht
  obtain ⟨t', hpeek, ht', hview, -⟩ := peekByte_view ht
  refine ⟨t', ht', Or.inl ⟨t.view.head?.all (· = newline), ?_, by rw [hview]; rfl⟩⟩
  rw [atLineEnd, Action.bind_of_ok hpeek]
  rfl

theorem read_reads : Reads read FlatText.read := by
  intro t ht
  obtain ⟨t', hpeek, ht', hview, hadvance⟩ := peekByte_view ht
  rw [read, Action.bind_of_ok hpeek]
  cases hl : t.view with
  | nil => exact ⟨t', ht', Or.inl ⟨0, rfl, by rw [hview, hl]; rfl⟩⟩
  | cons b l =>
    obtain ⟨hsteady, hrest⟩ := hadvance b l hl
    exact ⟨_, hsteady, Or.inl ⟨FlatText.code b, rfl, by rw [hrest]; rfl⟩⟩

theorem accept_reads (p : Char → Bool) : Reads (Cursor.accept p) (FlatText.accept p) := by
  intro t ht
  obtain ⟨t', hpeek, ht', hview, hadvance⟩ := peekByte_view ht
  have hchar : (Cursor.peek : Action TextInput (Option Char)) t = .ok (t.view.head?.map character) t' := by
    show (peekByte >>= fun b => Pure.pure (b.map character)) t = _
    rw [Action.bind_of_ok hpeek, Action.pure_apply]
  rw [Cursor.accept, Action.bind_of_ok hchar]
  cases hl : t.view with
  | nil => exact ⟨t', ht', Or.inl ⟨none, rfl, by rw [hview, hl]; rfl⟩⟩
  | cons b l =>
    obtain ⟨hsteady, hrest⟩ := hadvance b l hl
    simp only [List.head?_cons, Option.map_some, FlatText.accept]
    by_cases hp : p (character b) = true
    · rw [if_pos hp, if_pos hp]
      exact ⟨_, hsteady, Or.inl ⟨some (character b), rfl, by rw [hrest]⟩⟩
    · rw [if_neg hp, if_neg hp]
      exact ⟨t', ht', Or.inl ⟨none, rfl, by rw [hview, hl]⟩⟩

/-- The rounds of a scan suffice: each one consumes a byte. -/
theorem takeWhileGo_view (p : Char → Bool) : ∀ (n : Nat) (t : TextInput), t.Steady → t.view.length < n →
    ∃ t', Cursor.takeWhile.go p n t = .ok ((t.view.takeWhile (p ∘ character)).map character) t' ∧
      t'.Steady ∧ t'.view = t.view.dropWhile (p ∘ character) := by
  -- the bytes that are left bound the rounds, and each round that goes on leaves one less
  intro n
  induction n with
  | zero => intro t _ hlt; omega
  | succ n ih =>
    intro t ht hlt
    rw [Cursor.takeWhile.go, Action.bind_apply]
    obtain ⟨t₁, ht₁, ⟨c, haccept, hflat⟩ | ⟨f, -, hflat⟩⟩ := accept_reads p t ht
    · rw [haccept]
      cases hl : t.view with
      | nil =>
        rw [hl] at hflat
        injection hflat with hc hview
        subst hc
        exact ⟨t₁, rfl, ht₁, hview.symm⟩
      | cons b l =>
        rw [hl, FlatText.accept] at hflat
        have hlength : (b :: l).length < n + 1 := hl ▸ hlt
        by_cases hp : p (character b) = true
        · rw [if_pos hp] at hflat
          injection hflat with hc hview
          subst hc
          have hlt₁ : t₁.view.length < n := by
            rw [← hview]
            exact Nat.lt_of_succ_lt_succ hlength
          obtain ⟨t₂, hgo, ht₂, hview₂⟩ := ih t₁ ht₁ hlt₁
          have hp : (p ∘ character) b = true := hp
          rw [List.takeWhile_cons_of_pos hp, List.dropWhile_cons_of_pos hp, hview]
          refine ⟨t₂, ?_, ht₂, hview₂⟩
          simp only [Action.bind_of_ok hgo]
          rfl
        · rw [if_neg hp] at hflat
          injection hflat with hc hview
          subst hc
          have hp : ¬ (p ∘ character) b = true := hp
          rw [List.takeWhile_cons_of_neg hp, List.dropWhile_cons_of_neg hp]
          exact ⟨t₁, rfl, ht₁, hview.symm⟩
    · -- the cursor has no faults here
      cases hl : t.view with
      | nil => rw [hl] at hflat; cases hflat
      | cons b l =>
        rw [hl, FlatText.accept] at hflat
        split at hflat <;> cases hflat

theorem length_view_le (t : TextInput) : t.view.length ≤ Cursor.left t := by
  have hle := FlatText.length_normalise_le t.source.bytes
  have hleft : Cursor.left t = t.line.length + t.source.bytes.length := rfl
  rw [view, List.length_append, hleft]
  omega

theorem takeWhile_reads (p : Char → Bool) : Reads (Cursor.takeWhile p) (FlatText.takeWhile p) := by
  intro t ht
  obtain ⟨t', hgo, ht', hview⟩ := takeWhileGo_view p (Cursor.left t + 1) t ht
    (Nat.lt_succ_of_le (length_view_le t))
  exact ⟨t', ht', Or.inl ⟨_, hgo, by rw [hview]; rfl⟩⟩

/-- Past the end of a line: over the rest of the line, and over its end. -/
theorem readLine_reads : Reads readLine FlatText.readLine := by
  have hflat : FlatText.readLine = (do
      let _ ← FlatText.takeWhile (· ≠ '\n')
      let _ ← FlatText.accept (· = '\n')
      Pure.pure ()) := by
    funext l
    have hsame : ((fun c => decide (c ≠ '\n')) ∘ character) = fun b => decide (b ≠ newline) := by
      funext b
      simp only [Function.comp_apply, ne_eq, FlatText.character_eq_newline]
    show EStateM.Result.ok () (l.dropWhile (· ≠ newline)).tail = _
    rw [Action.bind_apply]
    simp only [FlatText.takeWhile, hsame]
    cases hrest : l.dropWhile (· ≠ newline) with
    | nil => rfl
    | cons b rest =>
      have hb : b = newline := by
        have hnot := List.head?_dropWhile_not (· ≠ newline) l
        rw [hrest] at hnot
        simpa using hnot
      subst hb
      rfl
  rw [hflat]
  exact (takeWhile_reads _).bind fun _ => (accept_reads _).bind fun _ => .pure ()

/-! ### Numbers -/

theorem sign_reads : Reads Cursor.sign FlatText.sign :=
  (accept_reads _).bind fun _ => .pure _

theorem digits_reads (missing : Fault) : Reads (Cursor.digits missing) (FlatText.digits missing) :=
  (takeWhile_reads _).bind fun _ => .ite (.bind (.throw missing) fun _ => .pure _) (.pure _)

theorem readInteger_reads : Reads readInteger FlatText.readInteger := by
  have hsame : readInteger = (do
      let _ ← Cursor.takeWhile isSpace
      let negative ← Cursor.sign
      let cs ← Cursor.digits .integerExpected
      Action.orFault (Word.ofInt? (Cursor.signed negative (Cursor.value cs))) .integerInput) := by
    unfold readInteger skipSpace Cursor.integer Cursor.natural
    simp only [bind_assoc, pure_bind]
  rw [hsame]
  exact (takeWhile_reads _).bind fun _ => sign_reads.bind fun _ => (digits_reads _).bind fun _ => .orFault _ _

theorem fraction_reads : Reads Cursor.fraction FlatText.fraction := by
  refine (accept_reads _).bind fun c => ?_
  cases c with
  | none => exact .pure _
  | some c => exact takeWhile_reads _

theorem exponent_reads : Reads Cursor.exponent FlatText.exponent := by
  refine (accept_reads _).bind fun c => ?_
  cases c with
  | none => exact .pure _
  | some c => exact sign_reads.bind fun _ => (digits_reads _).bind fun _ => .pure _

theorem readReal_reads : Reads readReal FlatText.readReal := by
  have hsame : readReal = (do
      let _ ← Cursor.takeWhile isSpace
      let negative ← Cursor.sign
      let whole ← Cursor.takeWhile Char.isDigit
      let part ← Cursor.fraction
      if whole.isEmpty && part.isEmpty then throw .realExpected
      let power ← Cursor.exponent
      return (⟨negative, Cursor.value (whole ++ part), power - part.length⟩ : Decimal).toBinary64) := by
    unfold readReal skipSpace Cursor.decimal
    simp only [bind_assoc, pure_bind]
    refine bind_congr fun _ => bind_congr fun _ => bind_congr fun _ => bind_congr fun _ => ?_
    split <;> simp only [bind_assoc, pure_bind]
  rw [hsame]
  refine (takeWhile_reads _).bind fun _ => sign_reads.bind fun _ => (takeWhile_reads _).bind fun _ =>
    fraction_reads.bind fun _ => ?_
  exact .ite (.bind (.throw _) fun _ => exponent_reads.bind fun _ => .pure _)
    (exponent_reads.bind fun _ => .pure _)

end TextInput

/-! ### Runs -/

/-- An operation on text input. -/
inductive TextCall where
  | atEnd
  | atLineEnd
  | read
  | readLine
  | readInteger
  | readReal
deriving DecidableEq, Repr

namespace TextCall

/-- What an operation answers. -/
inductive Answer where
  | truth (b : Bool)
  | word (n : Word)
  | real (x : Binary64)
  | done
deriving DecidableEq, Repr

/-- The operation of a file. -/
def onFile : TextCall → Action TextInput Answer
  | atEnd => do
    let b ← TextInput.atEnd
    return .truth b
  | atLineEnd => do
    let b ← TextInput.atLineEnd
    return .truth b
  | read => do
    let n ← TextInput.read
    return .word n
  | readLine => do
    TextInput.readLine
    return .done
  | readInteger => do
    let n ← TextInput.readInteger
    return .word n
  | readReal => do
    let x ← TextInput.readReal
    return .real x

/-- The operation of the cursor. -/
def onBytes : TextCall → Action (List UInt8) Answer
  | atEnd => do
    let b ← FlatText.atEnd
    return .truth b
  | atLineEnd => do
    let b ← FlatText.atLineEnd
    return .truth b
  | read => do
    let n ← FlatText.read
    return .word n
  | readLine => do
    FlatText.readLine
    return .done
  | readInteger => do
    let n ← FlatText.readInteger
    return .word n
  | readReal => do
    let x ← FlatText.readReal
    return .real x

variable {σ : Type}

/-- The answers and faults of some calls, one after the other. A call that fails is followed by the
next one. -/
def answers (act : TextCall → Action σ Answer) : List TextCall → σ → List (Except Fault Answer)
  | [], _ => []
  | call :: calls, s => (act call).outcome s :: answers act calls ((act call).after s)

/-- Calls are answered one after another. -/
theorem answers_append (act : TextCall → Action σ Answer) (before : List TextCall) :
    ∀ s, ∃ s', ∀ after, answers act (before ++ after) s = answers act before s ++ answers act after s' := by
  induction before with
  | nil => exact fun s => ⟨s, fun _ => rfl⟩
  | cons call before ih =>
    intro s
    obtain ⟨s', hs'⟩ := ih ((act call).after s)
    refine ⟨s', fun after => ?_⟩
    rw [List.cons_append, answers, hs' after]
    rfl

/-- There is one answer to each call. -/
theorem length_answers (act : TextCall → Action σ Answer) (calls : List TextCall) :
    ∀ s, (answers act calls s).length = calls.length := by
  induction calls with
  | nil => exact fun _ => rfl
  | cons call calls ih => exact fun s => congrArg Nat.succ (ih _)

/-- Every operation of a file reads as that of the cursor does. -/
theorem onFile_reads (call : TextCall) : TextInput.Reads call.onFile call.onBytes := by
  cases call with
  | atEnd => exact TextInput.atEnd_reads.bind fun _ => .pure _
  | atLineEnd => exact TextInput.atLineEnd_reads.bind fun _ => .pure _
  | read => exact TextInput.read_reads.bind fun _ => .pure _
  | readLine => exact TextInput.readLine_reads.bind fun _ => .pure _
  | readInteger => exact TextInput.readInteger_reads.bind fun _ => .pure _
  | readReal => exact TextInput.readReal_reads.bind fun _ => .pure _

/-- A reader that has no failure ahead answers as the bytes that are in view. -/
theorem answers_view (calls : List TextCall) : ∀ t : TextInput, t.Steady →
    answers onFile calls t = answers onBytes calls t.view := by
  -- the file and the cursor go through the calls side by side
  induction calls with
  | nil => exact fun _ _ => rfl
  | cons call calls ih =>
    intro t ht
    obtain ⟨t', ht', ⟨a, hfile, hbytes⟩ | ⟨f, hfile, hbytes⟩⟩ := onFile_reads call t ht
    · rw [answers, answers, Action.after_of_ok hfile, Action.after_of_ok hbytes, ih t' ht',
        Action.outcome, Action.outcome, hfile, hbytes]
    · rw [answers, answers, Action.after_of_error hfile, Action.after_of_error hbytes, ih t' ht',
        Action.outcome, Action.outcome, hfile, hbytes]

/-- Reading character after character delivers all bytes in order. -/
theorem answers_read (l : List UInt8) :
    answers onBytes (List.replicate l.length .read) l = l.map fun b => .ok (.word (FlatText.code b)) := by
  induction l with
  | nil => rfl
  | cons b l ih =>
    rw [List.length_cons, List.replicate_succ, List.map_cons, ← ih]
    rfl

/-- **A file reads as a flat cursor** over its bytes, without the carriage returns before the ends of
lines: every sequence of calls gets the same answers and faults from both. In particular the two tests
consume nothing, so to leave one out changes no other answer; and a file that is read character by
character delivers each of these bytes once and in order. -/
theorem answers_flat (bytes : List UInt8) :
    (∀ calls, answers onFile calls (.ofSource ⟨bytes, none⟩) =
      answers onBytes calls (FlatText.normalise bytes)) ∧
    (∀ test ∈ [atEnd, atLineEnd], ∀ before after,
      (answers onFile (before ++ test :: after) (.ofSource ⟨bytes, none⟩)).eraseIdx before.length =
        answers onFile (before ++ after) (.ofSource ⟨bytes, none⟩)) ∧
    answers onFile (List.replicate (FlatText.normalise bytes).length .read) (.ofSource ⟨bytes, none⟩) =
      (FlatText.normalise bytes).map fun b => .ok (.word (FlatText.code b)) := by
  have hflat : ∀ calls, answers onFile calls (.ofSource ⟨bytes, none⟩) =
      answers onBytes calls (FlatText.normalise bytes) := fun calls =>
    answers_view calls _ (TextInput.steady_ofSource bytes)
  refine ⟨hflat, ?_, ?_⟩
  · intro test htest before after
    rw [hflat, hflat]
    obtain ⟨s, hs⟩ := answers_append onBytes before (FlatText.normalise bytes)
    have hstays : (onBytes test).after s = s := by
      simp only [List.mem_cons, List.not_mem_nil, or_false] at htest
      rcases htest with rfl | rfl <;> rfl
    rw [hs, hs, answers, hstays, List.eraseIdx_append_of_length_le (length_answers ..).le, length_answers,
      Nat.sub_self, List.eraseIdx_cons_zero]
  · rw [hflat]
    exact answers_read _

theorem answers_flat_lines :
    answers onFile [.read, .atLineEnd, .read, .readInteger, .readInteger, .read, .read]
        (.ofSource ⟨[97, 13, 10, 32, 45, 55, 120], none⟩) =
      [.ok (.word 97), .ok (.truth true), .ok (.word 13), .ok (.word (-7)), .error .integerExpected,
        .ok (.word 120), .ok (.word 0)] := by
  rw [(answers_flat [97, 13, 10, 32, 45, 55, 120]).1]
  decide +kernel

end TextCall

end PMachine
