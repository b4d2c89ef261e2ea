import PMachine.Program.Assembly
import PMachine.Proofs.Cursor

/-!
# Faults of program text

A line that cannot be read is refused for its form or for a name that nobody knows; reading a line
finds no other fault.

* `Fault.IsSyntax`: a fault of the form of a text.
* `Statement.parse_error`, `Assembly.labelLine_error`: reading a line finds no other.
-/

namespace PMachine

/-- The text does not have the expected form, or it has a name that nobody knows. -/
def Fault.IsSyntax (f : Fault) : Prop := f.kind = .parse ∨ f.kind = .unknownInstruction

open PMachine.Action (Raises bind_apply)
open Fault (IsSyntax)

namespace Cursor

variable {P : Fault → Prop}

theorem accept_raises (p : Char → Bool) : Raises P (accept p : Action LineText (Option Char)) := by
  intro s f s' h
  rw [accept, bind_apply] at h
  -- a line shows its next character without a fault, so there is none to end with
  cases s with
  | nil => cases h
  | cons c cs =>
    by_cases hc : p c = true
    · simp only [peek, List.head?_cons, if_pos hc] at h
      cases h
    · simp only [peek, List.head?_cons, if_neg hc] at h
      cases h

theorem takeWhile_raises (p : Char → Bool) :
    Raises P (takeWhile p : Action LineText (List Char)) := by
  have hgo : ∀ n, Raises P (takeWhile.go p n : Action LineText (List Char)) := by
    intro n
    induction n with
    | zero => exact .pure []
    | succ n ih =>
      refine .bind (accept_raises p) fun c => ?_
      cases c with
      | some c => exact .bind ih fun cs => .pure _
      | none => exact .pure []
  intro s
  exact hgo _ s

theorem sign_raises : Raises P (sign : Action LineText Bool) :=
  .bind (accept_raises _) fun _ => .pure _

theorem digits_raises {missing : Fault} (h : P missing) :
    Raises P (digits missing : Action LineText (List Char)) := by
  refine .bind (takeWhile_raises _) fun cs => ?_
  split
  · exact .bind (.throw h) fun _ => .pure _
  · exact .pure cs

theorem natural_raises (h : P .integerExpected) : Raises P (natural : Action LineText Nat) :=
  .bind (digits_raises h) fun _ => .pure _

theorem integer_raises (h : P .integerExpected) : Raises P (integer : Action LineText Int) :=
  .bind sign_raises fun _ => .bind (natural_raises h) fun _ => .pure _

/-- An integer takes at least one character. -/
theorem integer_shortens {u v : LineText} {n : Int} (h : integer u = .ok n v) : v.length < u.length := by
  obtain ⟨negative, u₁, hsign, h⟩ := Action.bind_eq_ok.1 h
  obtain ⟨k, v₁, hnatural, hlast⟩ := Action.bind_eq_ok.1 h
  cases hlast
  obtain ⟨c, u₂, haccept, hlast⟩ := Action.bind_eq_ok.1 hsign
  cases hlast
  have hle : u₁.length ≤ u.length := by
    rw [accept_line] at haccept
    split at haccept
    · cases haccept
      exact Nat.le_refl _
    · split at haccept <;> cases haccept
      · exact Nat.le_succ _
      · exact Nat.le_refl _
  obtain ⟨cs, v₂, hdigits, hlast⟩ := Action.bind_eq_ok.1 hnatural
  cases hlast
  rw [digits, Action.bind_of_ok (takeWhile_line _ u₁)] at hdigits
  -- there is a digit at least, or there would be no integer
  split at hdigits
  · cases hdigits
  · rename_i hsome
    cases hdigits
    have hpos : 0 < (u₁.takeWhile Char.isDigit).length :=
      List.length_pos_of_ne_nil fun hnil => hsome (by rw [hnil]; rfl)
    have hsplit := congrArg List.length (List.takeWhile_append_dropWhile (p := Char.isDigit) (l := u₁))
    rw [List.length_append] at hsplit
    omega

theorem exponent_raises : Raises IsSyntax (exponent : Action LineText Int) := by
  refine .bind (accept_raises _) fun c => ?_
  cases c with
  | some c => exact .bind sign_raises fun _ => .bind (digits_raises (Or.inl rfl)) fun _ => .pure _
  | none => exact .pure 0

theorem fraction_raises : Raises IsSyntax (fraction : Action LineText (List Char)) := by
  refine .bind (accept_raises _) fun c => ?_
  cases c with
  | some c => exact takeWhile_raises _
  | none => exact .pure []

theorem decimal_raises : Raises IsSyntax (decimal : Action LineText Decimal) := by
  refine .bind sign_raises fun _ => .bind (takeWhile_raises _) fun whole =>
    .bind fraction_raises fun part => ?_
  split
  · exact .bind (.throw (Or.inl rfl)) fun _ => .bind exponent_raises fun _ => .pure _
  · exact .bind exponent_raises fun _ => .pure _

end Cursor

namespace Lexeme

variable {P : Fault → Prop}

theorem skipBlanks_raises : Raises P skipBlanks := .modifyGet _

theorem next_raises : Raises P next := by intro s f s' h; cases h

theorem peekNonBlank_raises : Raises P peekNonBlank :=
  .bind skipBlanks_raises fun _ => by intro s f s' h; cases h

theorem nonBlank_raises : Raises P nonBlank := .bind skipBlanks_raises fun _ => next_raises

theorem name_raises : Raises IsSyntax name := by
  refine .bind skipBlanks_raises fun _ => .bind (.modifyGet _) fun cs => ?_
  split
  · exact .bind (.throw (Or.inl rfl)) fun _ => .pure _
  · exact .pure _

/-- An integer is refused for its form only. -/
theorem integer_malformed : Raises (·.kind = .parse) integer :=
  .bind skipBlanks_raises fun _ => .bind (Cursor.integer_raises rfl) fun _ => .orFault rfl

/-- An integer takes at least one character. -/
theorem integer_shortens {u v : LineText} {n : Word} (h : integer u = .ok n v) : v.length < u.length := by
  obtain ⟨_, u₁, hskip, h⟩ := Action.bind_eq_ok.1 h
  cases hskip
  obtain ⟨k, v₁, hinteger, hlast⟩ := Action.bind_eq_ok.1 h
  obtain ⟨-, rfl⟩ := Action.orFault_eq_ok.1 hlast
  exact (Cursor.integer_shortens hinteger).trans_le (u.length_dropWhile_le isBlank)

theorem integer_raises : Raises IsSyntax integer := integer_malformed.mono fun _ => Or.inl

theorem unsigned_raises : Raises IsSyntax unsigned := by
  refine .bind skipBlanks_raises fun _ => .bind (Cursor.natural_raises (Or.inl rfl)) fun n => ?_
  split
  · exact .pure n
  · exact .throw (Or.inl rfl)

theorem real_raises : Raises IsSyntax real :=
  .bind skipBlanks_raises fun _ => .bind Cursor.decimal_raises fun _ => .pure _

theorem label_raises : Raises IsSyntax label := by
  refine .bind (.modifyGet _) fun _ => .bind next_raises fun c => ?_
  cases c with
  | some c => exact unsigned_raises
  | none => exact .throw (Or.inl rfl)

theorem upTo_raises (delimiter : Char) : Raises IsSyntax (upTo delimiter) := by
  refine .bind (.modifyGet _) fun cs => .bind next_raises fun c => ?_
  cases c with
  | some c => exact .pure cs
  | none => exact .throw (Or.inl rfl)

end Lexeme

namespace Statement

open Lexeme

theorem letter_raises (table : List Char) : Raises IsSyntax (letter table) :=
  .bind nonBlank_raises fun _ => .orFault (Or.inl rfl)

/-- One round of the loop over a set, after blanks. -/
theorem members_succ (rounds : Nat) (u : LineText) :
    members (rounds + 1) u = match u.dropWhile isBlank with
      | [] => .error .unterminatedSet []
      | c :: v =>
        if c = ')' then .ok [] (c :: v)
        else if c = ',' then members rounds v
        else (do
          let n ← Lexeme.integer
          let more ← members rounds
          return n :: more : Action LineText (List Word)) (c :: v) := by
  have hpeek : Lexeme.peekNonBlank u = .ok (u.dropWhile isBlank).head? (u.dropWhile isBlank) := rfl
  rw [members, Action.bind_of_ok hpeek]
  cases u.dropWhile isBlank with
  | nil => rfl
  | cons c v =>
    by_cases hclose : c = ')'
    · subst hclose
      rfl
    by_cases hcomma : c = ','
    · subst hcomma
      rfl
    · simp only [List.head?_cons, if_neg hclose, if_neg hcomma]

/-- The integers of a set are refused for their form only. In particular the loop ends, since every round
goes on with a shorter text. -/
theorem members_malformed : ∀ (rounds : Nat) (u : LineText), u.length < rounds → ∀ f v,
    members rounds u = .error f v → f.kind = .parse := by
  intro rounds
  induction rounds with
  | zero => intro u hlt; omega
  | succ rounds ih =>
    intro u hlt f v h
    have hle := u.length_dropWhile_le isBlank
    rw [members_succ] at h
    cases hu : u.dropWhile isBlank with
    | nil =>
      rw [hu] at h
      cases h
      rfl
    | cons c w =>
      rw [hu] at h
      rw [hu, List.length_cons] at hle
      simp only at h
      split at h
      · cases h
      split at h
      · exact ih w (by omega) f v h
      rcases Action.bind_eq_error.1 h with hinteger | ⟨n, w', hinteger, hmore⟩
      · exact integer_malformed _ f v hinteger
      have hshort := integer_shortens hinteger
      rw [List.length_cons] at hshort
      rcases Action.bind_eq_error.1 hmore with hmembers | ⟨_, _, _, hlast⟩
      · exact ih w' (by omega) f v hmembers
      · cases hlast

theorem constant_raises : Raises IsSyntax constant := by
  refine .bind nonBlank_raises fun c => ?_
  split
  case h_9 =>
    intro text f v h
    rw [Action.bind_of_ok (Action.get_apply text)] at h
    rcases Action.bind_eq_error.1 h with hmembers | ⟨_, _, _, hlast⟩
    · exact Or.inl (members_malformed _ text (Nat.lt_succ_self _) f v hmembers)
    · cases hlast
  case h_10 => exact .throw (Or.inl rfl)
  all_goals first
    | exact .bind integer_raises fun _ => .pure _
    | exact .bind real_raises fun _ => .pure _
    | exact .pure _

theorem operands_raises (op : Opcode) : Raises IsSyntax (operands op) := by
  cases op with
  | equ | neq | geq | grt | leq | les =>
    refine .bind (letter_raises _) fun p => ?_
    split
    · exact .bind integer_raises fun _ => .pure _
    · exact .pure _
  | lod | str | lda => exact .bind unsigned_raises fun _ => .bind integer_raises fun _ => .pure _
  | cup => exact .bind unsigned_raises fun _ => .bind label_raises fun _ => .pure _
  | mst => exact .bind unsigned_raises fun _ => .pure _
  | ret => exact .bind (letter_raises _) fun _ => .pure _
  | ldo | sro | lao | ind | inc | ixa | mov | dec => exact .bind integer_raises fun _ => .pure _
  | ent | ujp | fjp | xjp => exact .bind label_raises fun _ => .pure _
  | csp =>
    exact .bind name_raises fun _ => .bind (.orFault (Or.inr rfl)) fun _ => .pure _
  | ldc => exact constant_raises
  | chk =>
    refine .bind peekNonBlank_raises fun c => ?_
    have hbounds : Raises IsSyntax (do
        let lower ← Lexeme.integer
        let upper ← Lexeme.integer
        return bounds lower upper) :=
      .bind integer_raises fun _ => .bind integer_raises fun _ => .pure _
    split
    · exact .bind (.modifyGet _) fun _ => hbounds
    · exact hbounds
  | lca =>
    refine .bind nonBlank_raises fun c => ?_
    split
    · exact .bind (.throw (Or.inl rfl)) fun _ => .bind (upTo_raises _) fun _ => .pure _
    · exact .bind (upTo_raises _) fun _ => .pure _
  | _ => exact .pure _

/-- **Reading a statement** finds no fault but those of its text. -/
theorem parse_error {text : LineText} {f : Fault} (h : parse text = .error f) : f.IsSyntax :=
  Raises.outcome (.bind name_raises fun _ => .bind (.orFault (Or.inr rfl)) operands_raises) h

end Statement

namespace Assembly

open Lexeme

/-- A label line that cannot be read is malformed. -/
theorem labelLine_error {text : LineText} {f : Fault} (h : labelLine.outcome text = .error f) :
    f.IsSyntax := by
  refine Raises.outcome (.bind unsigned_raises fun n => .bind peekNonBlank_raises fun c => ?_) h
  split
  · exact .bind (.modifyGet _) fun _ => .bind integer_raises fun _ =>
      .bind (.orFault (Or.inl rfl)) fun _ => .pure _
  · exact .pure _

end Assembly

end PMachine
