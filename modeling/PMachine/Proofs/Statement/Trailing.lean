import PMachine.Proofs.Numeral
import PMachine.Statement

/-!
# What follows the operands is ignored

Some readers look ahead for a sign, a fraction, an exponent or a letter, some skip blanks, and some skip
whatever comes before the place that they look for. But none is led past a blank once it has what it
needs. So a text that is accepted is also accepted with any other text behind a blank, as the same
instruction and with the same entries.

* `Lexeme.Carries`: what one reader takes from a text, another takes from the text with more behind it.
* `Lexeme.Stops`: a reader for which it makes no difference whether there is more.
* `Lexeme.NeedsText`: a reader that does not succeed at the end of a text.
* `Statement.operands_stops`, `Statement.read_stops`: the operands and whole statements.
* `Statement.assembleText_append`: assembling a text with more behind it.
-/

namespace PMachine

variable {α β : Type}

namespace Lexeme

/-- What `act` takes from a text, `act'` takes from the text with more behind a blank. Both leave the same
text, the second one with what is behind it. -/
def Carries (act act' : Action LineText α) : Prop :=
  ∀ cs a rest, act cs = .ok a rest → ∀ b more, isBlank b = true →
    act' (cs ++ b :: more) = .ok a (rest ++ b :: more)

/-- A reader takes the same from a text whether there is more behind a blank or not. -/
def Stops (act : Action LineText α) : Prop := Carries act act

/-- A reader fails at the end of a text. -/
def NeedsText (act : Action LineText α) : Prop := ∃ f rest, act [] = .error f rest

theorem NeedsText.not_ok {act : Action LineText α} (h : NeedsText act) {a : α} {rest : LineText} :
    act [] ≠ .ok a rest := by
  obtain ⟨f, rest', hrun⟩ := h
  rw [hrun]
  nofun

/-! ### Building readers -/

namespace Carries

theorem pure (a : α) : Stops (Pure.pure a) := by
  intro cs a' rest h b more _
  cases h
  rfl

theorem throw (f : Fault) : Stops (MonadExcept.throw f : Action LineText α) := by
  intro cs a rest h
  cases h

theorem orFault (x : Option α) (f : Fault) : Stops (Action.orFault x f) := by
  cases x with
  | some a => exact pure a
  | none => exact throw f

theorem bind {act act' : Action LineText α} {k k' : α → Action LineText β} (h : Carries act act')
    (hk : ∀ a, Carries (k a) (k' a)) : Carries (act >>= k) (act' >>= k') := by
  intro cs b rest hrun c more hc
  obtain ⟨a, cs₁, hact, hrest⟩ := Action.bind_eq_ok.1 hrun
  rw [Action.bind_of_ok (h cs a cs₁ hact c more hc)]
  exact hk a cs₁ b rest hrest c more hc

theorem ite {p : Prop} [Decidable p] {x y : Action LineText α} (hx : Stops x) (hy : Stops y) :
    Stops (if p then x else y) := by
  split
  · exact hx
  · exact hy

end Carries

/-! ### Runs of characters -/

/-- A run ends in front of a character that does not belong to it, whether this one is in the text or
behind it. -/
theorem span_append (p : Char → Bool) (cs more : List Char)
    (h : cs.dropWhile p = [] → ∀ c ∈ more.head?, p c = false) :
    (cs ++ more).takeWhile p = cs.takeWhile p ∧ (cs ++ more).dropWhile p = cs.dropWhile p ++ more := by
  induction cs with
  | nil =>
    cases more with
    | nil => exact ⟨rfl, rfl⟩
    | cons c more =>
      have hpc : ¬ p c = true := by rw [h rfl c rfl]; exact Bool.false_ne_true
      exact ⟨List.takeWhile_cons_of_neg hpc, List.dropWhile_cons_of_neg hpc⟩
  | cons c cs ih =>
    rw [List.cons_append]
    by_cases hpc : p c = true
    · rw [List.dropWhile_cons_of_pos hpc] at h ⊢
      obtain ⟨htake, hdrop⟩ := ih h
      rw [List.takeWhile_cons_of_pos hpc, List.takeWhile_cons_of_pos hpc,
        List.dropWhile_cons_of_pos hpc, htake]
      exact ⟨rfl, hdrop⟩
    · rw [List.takeWhile_cons_of_neg hpc, List.takeWhile_cons_of_neg hpc, List.dropWhile_cons_of_neg hpc,
        List.dropWhile_cons_of_neg hpc, List.cons_append]
      exact ⟨rfl, rfl⟩

variable {p : Char → Bool}

/-- What accepts no blank does not look behind one. -/
theorem accept_stops (hp : ∀ b, isBlank b = true → p b = false) :
    Stops (Cursor.accept p : Action LineText (Option Char)) := by
  intro cs a rest h b more hb
  cases cs with
  | nil =>
    cases h
    exact Cursor.accept_line_none fun c hc => by cases hc; exact hp b hb
  | cons c cs =>
    rw [Cursor.accept_line] at h
    rw [List.cons_append, Cursor.accept_line]
    by_cases hpc : p c = true
    · simp only [if_pos hpc] at h ⊢
      cases h
      rfl
    · simp only [if_neg hpc] at h ⊢
      cases h
      rfl

/-- Nor does what collects no blank. -/
theorem takeWhile_stops (hp : ∀ b, isBlank b = true → p b = false) :
    Stops (Cursor.takeWhile p : Action LineText (List Char)) := by
  intro cs a rest h b more hb
  rw [Cursor.takeWhile_line] at h
  cases h
  obtain ⟨htake, hdrop⟩ := span_append p cs (b :: more) fun _ c hc => by cases hc; exact hp b hb
  rw [Cursor.takeWhile_line, htake, hdrop]

/-- A reader may first skip a run, if it needs what comes after the run. -/
theorem skip_carries (p : Char → Bool) {k k' : PUnit → Action LineText α} (hk : Carries (k ⟨⟩) (k' ⟨⟩))
    (hneeds : NeedsText (k ⟨⟩)) :
    Carries (modify (List.dropWhile p) >>= k) (modify (List.dropWhile p) >>= k') := by
  intro cs a rest h b more hb
  rw [Action.bind_of_ok (Action.modify_apply _ cs)] at h
  have hne : cs.dropWhile p ≠ [] := by
    intro hnil
    rw [hnil] at h
    exact hneeds.not_ok h
  have hdrop := (span_append p cs (b :: more) fun hnil => absurd hnil hne).2
  rw [Action.bind_of_ok (Action.modify_apply _ _), hdrop]
  exact hk _ a rest h b more hb

/-- The same for one character that is stepped over. -/
theorem tail_carries {k k' : PUnit → Action LineText α} (hk : Carries (k ⟨⟩) (k' ⟨⟩))
    (hneeds : NeedsText (k ⟨⟩)) : Carries (modify List.tail >>= k) (modify List.tail >>= k') := by
  intro cs a rest h b more hb
  rw [Action.bind_of_ok (Action.modify_apply _ cs)] at h
  rw [Action.bind_of_ok (Action.modify_apply _ _)]
  cases cs with
  | nil => exact absurd h hneeds.not_ok
  | cons c cs => exact hk cs a rest h b more hb

/-- A reader may take the next character, if it needs one. -/
theorem next_stops {k : Option Char → Action LineText α} (hk : ∀ c, Stops (k (some c)))
    (hneeds : NeedsText (k none)) : Stops (next >>= k) := by
  intro cs a rest h b more hb
  cases cs with
  | nil => exact absurd h hneeds.not_ok
  | cons c cs => exact hk c cs a rest h b more hb

/-- It may also only look at it. -/
theorem peek_carries {k k' : Option Char → Action LineText α} (hk : ∀ c, Carries (k (some c)) (k' (some c)))
    (hneeds : NeedsText (k none)) : Carries (Cursor.peek >>= k) (Cursor.peek >>= k') := by
  intro cs a rest h b more hb
  cases cs with
  | nil => exact absurd h hneeds.not_ok
  | cons c cs => exact hk c (c :: cs) a rest h b more hb

/-! ### Numbers -/

theorem blank_cases {b : Char} (h : isBlank b = true) : b = ' ' ∨ b = '\t' := by
  simpa [isBlank] using h

theorem not_isDigit_of_isBlank (b : Char) (h : isBlank b = true) : b.isDigit = false := by
  rcases blank_cases h with rfl | rfl <;> rfl

theorem sign_stops : Stops (Cursor.sign : Action LineText Bool) :=
  .bind (accept_stops fun b hb => by rcases blank_cases hb with rfl | rfl <;> rfl) fun _ => .pure _

theorem digits_stops (missing : Fault) : Stops (Cursor.digits missing : Action LineText (List Char)) :=
  .bind (takeWhile_stops not_isDigit_of_isBlank) fun _ => .ite (.bind (.throw _) fun _ => .pure _) (.pure _)

theorem natural_stops : Stops (Cursor.natural : Action LineText Nat) :=
  .bind (digits_stops _) fun _ => .pure _

theorem fraction_stops : Stops (Cursor.fraction : Action LineText (List Char)) := by
  refine .bind (accept_stops fun b hb => by rcases blank_cases hb with rfl | rfl <;> rfl) fun c => ?_
  cases c with
  | none => exact .pure _
  | some c => exact takeWhile_stops not_isDigit_of_isBlank

theorem exponent_stops : Stops (Cursor.exponent : Action LineText Int) := by
  refine .bind (accept_stops fun b hb => by rcases blank_cases hb with rfl | rfl <;> rfl) fun c => ?_
  cases c with
  | none => exact .pure _
  | some c => exact .bind sign_stops fun _ => .bind (digits_stops _) fun _ => .pure _

theorem decimal_stops : Stops (Cursor.decimal : Action LineText Decimal) :=
  .bind sign_stops fun _ => .bind (takeWhile_stops not_isDigit_of_isBlank) fun _ =>
    .bind fraction_stops fun _ => .ite (.bind (.throw _) fun _ => .bind exponent_stops fun _ => .pure _)
      (.bind exponent_stops fun _ => .pure _)

theorem integer_stops : Stops integer :=
  skip_carries isBlank (.bind (.bind sign_stops fun _ => .bind natural_stops fun _ => .pure _)
    fun _ => .orFault _ _) ⟨_, _, rfl⟩

theorem unsigned_stops : Stops unsigned :=
  skip_carries isBlank (.bind natural_stops fun _ => .ite (.pure _) (.throw _)) ⟨_, _, rfl⟩

theorem real_stops : Stops real :=
  skip_carries isBlank (.bind decimal_stops fun _ => .pure _) ⟨_, _, rfl⟩

/-! ### Names, labels and strings -/

theorem nonBlank_stops {k : Option Char → Action LineText α} (hk : ∀ c, Stops (k (some c)))
    (hneeds : NeedsText (k none)) : Stops (nonBlank >>= k) := by
  unfold nonBlank
  rw [bind_assoc]
  exact skip_carries isBlank (next_stops hk hneeds) hneeds

theorem peekNonBlank_carries {k k' : Option Char → Action LineText α}
    (hk : ∀ c, Carries (k (some c)) (k' (some c))) (hneeds : NeedsText (k none)) :
    Carries (peekNonBlank >>= k) (peekNonBlank >>= k') := by
  unfold peekNonBlank
  rw [bind_assoc, bind_assoc]
  exact skip_carries isBlank (peek_carries hk hneeds) hneeds

/-- A name is three characters. -/
theorem name_stops : Stops name := by
  refine skip_carries isBlank (fun cs a rest h b more _ => ?_) ⟨_, _, rfl⟩
  match cs with
  | _ :: _ :: _ :: _ => cases h; rfl
  | [] | [_] | [_, _] => cases h

theorem label_stops : Stops label :=
  skip_carries _ (next_stops (fun _ => unsigned_stops) ⟨_, _, rfl⟩) ⟨_, _, rfl⟩

/-- A string ends with its delimiter. -/
theorem upTo_stops (delimiter : Char) : Stops (upTo delimiter) := by
  intro cs a rest h b more _
  obtain ⟨hnot, rfl⟩ := upTo_eq_ok_iff.1 h
  rw [List.append_assoc, List.cons_append]
  exact upTo_eq_ok_iff.2 ⟨hnot, rfl⟩

end Lexeme

/-! ### Statements -/

namespace Statement

open Lexeme (Carries Stops NeedsText)

theorem letter_stops (table : List Char) : Stops (letter table) :=
  Lexeme.nonBlank_stops (fun _ => .orFault _ _) ⟨_, _, rfl⟩

/-- The members of a set are not read from an empty text. -/
theorem members_needsText (n : Nat) : NeedsText (members n) := by
  cases n with
  | zero => exact ⟨_, _, rfl⟩
  | succ n => exact ⟨_, _, rfl⟩

/-- The members of a set end with its parenthesis, however many rounds are left. -/
theorem members_carries {n : Nat} : ∀ {n' : Nat}, n ≤ n' → Carries (members n) (members n') := by
  induction n with
  | zero =>
    intro n' _ cs a rest h
    cases h
  | succ n ih =>
    intro n' hle
    obtain ⟨n', rfl⟩ : ∃ k, n' = k + 1 := ⟨n' - 1, by omega⟩
    refine Lexeme.peekNonBlank_carries (fun c => ?_) ⟨_, _, rfl⟩
    split
    · exact .throw _
    · exact .pure _
    · exact Lexeme.tail_carries (ih (by omega)) (members_needsText n)
    · exact .bind Lexeme.integer_stops fun _ => .bind (ih (by omega)) fun _ => .pure _

theorem constant_stops : Stops constant := by
  refine Lexeme.nonBlank_stops (fun c => ?_) ⟨_, _, rfl⟩
  split
  case h_9 =>
    intro cs a rest h b more hb
    rw [Action.bind_of_ok (Action.get_apply _)] at h ⊢
    have hle : cs.length + 1 ≤ (cs ++ b :: more).length + 1 := by
      rw [List.length_append]
      omega
    have hset : Carries (members (cs.length + 1) >>= fun l => pure (set (.ofList l)))
        (members ((cs ++ b :: more).length + 1) >>= fun l => pure (set (.ofList l))) :=
      .bind (members_carries hle) fun l => .pure (set (.ofList l))
    exact hset cs a rest h b more hb
  case h_10 => exact .throw _
  all_goals first
    | exact .bind Lexeme.integer_stops fun _ => .pure _
    | exact .bind Lexeme.real_stops fun _ => .pure _
    | exact .pure _

/-- **No operation reads past its operands**, if there is a blank. -/
theorem operands_stops (op : Opcode) : Stops (operands op) := by
  cases op with
  | equ | neq | geq | grt | leq | les =>
    exact .bind (letter_stops _) fun _ => .ite (.bind Lexeme.integer_stops fun _ => .pure _) (.pure _)
  | lod | str | lda =>
    exact .bind Lexeme.unsigned_stops fun _ => .bind Lexeme.integer_stops fun _ => .pure _
  | cup => exact .bind Lexeme.unsigned_stops fun _ => .bind Lexeme.label_stops fun _ => .pure _
  | mst => exact .bind Lexeme.unsigned_stops fun _ => .pure _
  | ret => exact .bind (letter_stops _) fun _ => .pure _
  | ldo | sro | lao | ind | inc | ixa | mov | dec => exact .bind Lexeme.integer_stops fun _ => .pure _
  | ent | ujp | fjp | xjp => exact .bind Lexeme.label_stops fun _ => .pure _
  | csp => exact .bind Lexeme.name_stops fun _ => .bind (.orFault _ _) fun _ => .pure _
  | ldc => exact constant_stops
  | chk =>
    have hbounds : Stops (do
        let lower ← Lexeme.integer
        let upper ← Lexeme.integer
        return bounds lower upper) :=
      .bind Lexeme.integer_stops fun _ => .bind Lexeme.integer_stops fun _ => .pure _
    refine Lexeme.peekNonBlank_carries (fun c => ?_) ⟨_, _, rfl⟩
    split
    · exact Lexeme.tail_carries hbounds ⟨_, _, rfl⟩
    · exact hbounds
  | lca =>
    have hbytes : Stops (do
        let text ← Lexeme.upTo '\''
        return bytes (text.flatMap String.utf8EncodeChar)) :=
      .bind (Lexeme.upTo_stops _) fun _ => .pure _
    exact Lexeme.nonBlank_stops (fun c => .ite (.bind (.throw _) fun _ => hbytes) hbytes) ⟨_, _, rfl⟩
  | _ => exact .pure _

theorem read_stops : Stops read :=
  .bind Lexeme.name_stops fun _ => .bind (.orFault _ _) operands_stops

/-- A statement is the same with more behind it. -/
theorem parse_append {text : LineText} {st : Statement} (h : parse text = .ok st) {b : Char}
    (hb : Lexeme.isBlank b = true) (more : List Char) : parse (text ++ b :: more) = .ok st := by
  obtain ⟨rest, hread⟩ := Action.outcome_eq_ok.1 h
  exact Action.outcome_eq_ok.2 ⟨_, read_stops text st rest hread b more hb⟩

/-- **What follows the operands is ignored.** A text that is accepted is also accepted with any other text
behind a blank, at the same address and with the same tables. It gives the same instruction, and it leaves
the store and the labels in the same way. -/
theorem assembleText_append (text : LineText) (pc : Nat) (t t' : Tables) (i : Instruction)
    (h : assembleText text pc t = .ok i t') (b : Char) (hb : Lexeme.isBlank b = true) (more : List Char) :
    assembleText (text ++ b :: more) pc t = .ok i t' := by
  obtain ⟨st, t₁, hlift, hassemble⟩ := Action.bind_eq_ok.1 h
  obtain ⟨hparse, rfl⟩ := Action.lift_eq_ok.1 hlift
  rw [assembleText, parse_append hparse hb more, Action.bind_of_ok (Action.lift_ok st t)]
  exact hassemble

/-- Tables with room for one real. -/
def scant : Tables where
  store := .new { stackSize := 0, pools := { real := 1 }, codeSize := 8, maxLabel := 0 }
  labels := .new 0

theorem assembleText_append_exponent : ∃ t', assembleText "LDC R 1".toList 3 scant = .ok ⟨.lci, 2, 1⟩ t' ∧
    assembleText "LDC R 1\tE5".toList 3 scant = .ok ⟨.lci, 2, 1⟩ t' := by
  have hrun : (assembleText "LDC R 1".toList 3).outcome scant = .ok ⟨.lci, 2, 1⟩ := by decide +kernel
  obtain ⟨t', h⟩ := Action.outcome_eq_ok.1 hrun
  exact ⟨t', h, assembleText_append _ 3 scant t' _ h '\t' rfl "E5".toList⟩

end Statement

end PMachine
