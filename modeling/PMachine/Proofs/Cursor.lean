import PMachine.Lexeme
import PMachine.Proofs.TextInput
import PMachine.Proofs.Program.Text

/-!
# Cursors over characters and over bytes

Program text is read as characters, a file as bytes. In UTF-8 an ASCII character is a byte of its own, and no
byte of any other character can be taken for one. So an action that looks for ASCII characters only does the
same on a text and on a file that holds the text.

* `Lines.takeWhile_encode`: a run of ASCII characters is the run of their bytes.
* `Cursor.Agree`: an action on characters and one on a file that holds them end alike.
* `Cursor.Bytewise`: so do they on a file of any bytes, if each byte is taken for a character.
* `Cursor.Simulation`: what both relations say of the steps of which readers are made.
* `Lexeme.upTo_eq_ok_iff`: what is read up to a delimiter.
-/

namespace PMachine

namespace Lines

open FlatText (character)

/-! ### Characters of one byte -/

/-- A property of ASCII characters only. -/
def Ascii (p : Char → Bool) : Prop := ∀ c, p c = true → c.toNat < 128

/-- The digits are ASCII characters. -/
theorem ascii_isDigit : Ascii Char.isDigit := by
  intro c hc
  have hle : c.val.toNat ≤ 57 := by
    simp only [Char.isDigit, Bool.and_eq_true, decide_eq_true_eq] at hc
    exact UInt32.le_iff_toNat_le.1 hc.2
  exact Nat.lt_of_le_of_lt hle (by decide)

/-- A byte that is taken for a character keeps its number. -/
theorem character_ofNat {n : Nat} (h : n < 256) : (character (UInt8.ofNat n)).toNat = n := by
  have hvalid : n.isValidChar := Or.inl (by omega)
  rw [character, UInt8.toNat_ofNat', Nat.mod_eq_of_lt h, Char.toNat_ofNat, if_pos hvalid]

/-- A character is one byte that reads as the character, or its first byte reads as none of ASCII. -/
theorem utf8EncodeChar_eq_cons (c : Char) : ∃ b l, String.utf8EncodeChar c = b :: l ∧
    (c.toNat < 128 → character b = c ∧ l = []) ∧ (128 ≤ c.toNat → 128 ≤ (character b).toNat) := by
  unfold String.utf8EncodeChar
  show ∃ b l, (if c.toNat ≤ 127 then _ else _) = b :: l ∧ _
  split
  · rename_i hle
    refine ⟨_, _, rfl, fun _ => ⟨?_, rfl⟩, fun hge => by omega⟩
    rw [← Char.toNat_inj]
    exact character_ofNat (Nat.lt_of_le_of_lt hle (by decide))
  split
  · exact ⟨_, _, rfl, fun hlt => by omega, fun _ => by rw [character_ofNat (by omega)]; omega⟩
  split
  · exact ⟨_, _, rfl, fun hlt => by omega, fun _ => by rw [character_ofNat (by omega)]; omega⟩
  · exact ⟨_, _, rfl, fun hlt => by omega, fun _ => by rw [character_ofNat (by omega)]; omega⟩

variable {p : Char → Bool}

/-- The first byte of a text has a property of ASCII characters if the first character has it. -/
theorem encode_cons_of_ascii (hp : Ascii p) (c : Char) (cs : List Char) : ∃ b l,
    encode (c :: cs) = b :: l ∧ p (character b) = p c ∧ (p c = true → character b = c ∧ l = encode cs) := by
  obtain ⟨b, l, hbytes, hone, hmany⟩ := utf8EncodeChar_eq_cons c
  refine ⟨b, l ++ encode cs, ?_, ?_, fun hpc => ?_⟩
  · rw [encode, List.flatMap_cons, hbytes]
    rfl
  · rcases Nat.lt_or_ge c.toNat 128 with hlt | hge
    · rw [(hone hlt).1]
    · have hb := hmany hge
      rw [Bool.eq_false_iff.2 fun h => absurd (hp _ h) (by omega),
        Bool.eq_false_iff.2 fun h => absurd (hp _ h) (by omega)]
  · obtain ⟨hchar, hnil⟩ := hone (hp c hpc)
    rw [hnil]
    exact ⟨hchar, rfl⟩

/-- A run of ASCII characters is the run of their bytes. -/
theorem takeWhile_encode (hp : Ascii p) (cs : List Char) :
    ((encode cs).takeWhile (p ∘ character)).map character = cs.takeWhile p ∧
    (encode cs).dropWhile (p ∘ character) = encode (cs.dropWhile p) := by
  induction cs with
  | nil => exact ⟨rfl, rfl⟩
  | cons c cs ih =>
    obtain ⟨b, l, hbytes, hpb, hrest⟩ := encode_cons_of_ascii hp c cs
    have hpb : (p ∘ character) b = p c := hpb
    rw [hbytes]
    by_cases hpc : p c = true
    · obtain ⟨hchar, rfl⟩ := hrest hpc
      rw [hpc] at hpb
      rw [List.takeWhile_cons_of_pos hpb, List.dropWhile_cons_of_pos hpb, List.takeWhile_cons_of_pos hpc,
        List.dropWhile_cons_of_pos hpc, List.map_cons, hchar, ih.1]
      exact ⟨rfl, ih.2⟩
    · have hpb : ¬ (p ∘ character) b = true := by rwa [hpb]
      rw [List.takeWhile_cons_of_neg hpb, List.dropWhile_cons_of_neg hpb, List.takeWhile_cons_of_neg hpc,
        List.dropWhile_cons_of_neg hpc, hbytes]
      exact ⟨rfl, rfl⟩

end Lines

namespace Cursor

open Lines (encode Ascii)
open FlatText (character)

variable {α β : Type} {p : Char → Bool}

/-! ### Characters of a line -/

/-- A character of a line is accepted if it has the property, and left where it is otherwise. -/
theorem accept_line (p : Char → Bool) (cs : LineText) : accept p cs =
    match cs with
    | [] => .ok none []
    | c :: rest => if p c then .ok (some c) rest else .ok none (c :: rest) := by
  rw [accept, Action.bind_of_ok (show (peek : Action LineText _) cs = .ok cs.head? cs from rfl)]
  cases cs with
  | nil => rfl
  | cons c rest =>
    simp only [List.head?_cons]
    split <;> rfl

theorem accept_line_none {cs : LineText} (h : ∀ c ∈ cs.head?, p c = false) : accept p cs = .ok none cs := by
  rw [accept_line]
  cases cs with
  | nil => rfl
  | cons c rest => simp only [h c rfl, Bool.false_eq_true, if_false]

theorem accept_line_some {c : Char} (h : p c = true) (rest : LineText) :
    accept p (c :: rest) = .ok (some c) rest := by
  rw [accept_line]
  simp only [h, if_true]

/-- A character that may be there is accepted, unless what follows could be taken for it. -/
theorem accept_line_toList {c : Option Char} (hc : ∀ x ∈ c, p x = true) {rest : LineText}
    (hrest : ∀ x ∈ rest.head?, p x = false) : accept p (c.toList ++ rest) = .ok c rest := by
  cases c with
  | none => exact accept_line_none hrest
  | some x => exact accept_line_some (hc x rfl) rest

/-- A run of characters is taken from a line as from a list. -/
theorem takeWhile_line (p : Char → Bool) (cs : LineText) :
    takeWhile p cs = .ok (cs.takeWhile p) (cs.dropWhile p) := by
  -- the characters that are left bound the rounds
  have hgo : ∀ (n : Nat) (cs : LineText), cs.length < n →
      takeWhile.go p n cs = .ok (cs.takeWhile p) (cs.dropWhile p) := by
    intro n
    induction n with
    | zero => intro cs hlt; omega
    | succ n ih =>
      intro cs hlt
      cases cs with
      | nil => rfl
      | cons c rest =>
        rw [takeWhile.go, Action.bind_apply, accept_line]
        by_cases hpc : p c = true
        · simp only [if_pos hpc, List.takeWhile_cons_of_pos hpc, List.dropWhile_cons_of_pos hpc,
            Action.bind_of_ok (ih rest (Nat.lt_of_succ_lt_succ hlt)), Action.pure_apply]
        · simp only [if_neg hpc, List.takeWhile_cons_of_neg hpc, List.dropWhile_cons_of_neg hpc,
            Action.pure_apply]
  exact hgo _ cs (Nat.lt_succ_self _)

/-- A run of characters stops where the next one does not belong to it. -/
theorem takeWhile_line_append {cs rest : LineText} (hcs : ∀ c ∈ cs, p c = true)
    (hrest : ∀ c ∈ rest.head?, p c = false) : takeWhile p (cs ++ rest) = .ok cs rest := by
  rw [takeWhile_line, List.takeWhile_append_of_pos hcs, List.dropWhile_append_of_pos hcs]
  cases rest with
  | nil => rw [List.takeWhile_nil, List.append_nil, List.dropWhile_nil]
  | cons c rest =>
    have hpc : ¬ p c = true := by simp [hrest c rfl]
    rw [List.takeWhile_cons_of_neg hpc, List.dropWhile_cons_of_neg hpc, List.append_nil]

/-- A line whose characters all have the property is taken as a whole. -/
theorem takeWhile_line_all {cs : LineText} (hcs : ∀ c ∈ cs, p c = true) : takeWhile p cs = .ok cs [] := by
  rw [takeWhile_line, List.takeWhile_eq_self_iff.2 hcs, List.dropWhile_eq_nil_iff.2 hcs]

/-! ### Actions on characters and on bytes -/

/-- An action on the characters of a line and one on a file with the same text end alike, and leave the
same text to be read. -/
def Agree (act : Action LineText α) (act' : Action TextInput α) : Prop :=
  ∀ cs t, t.Steady → t.view = encode cs → ∃ rest t', rest <:+ cs ∧ t'.Steady ∧ t'.view = encode rest ∧
    ((∃ a, act cs = .ok a rest ∧ act' t = .ok a t') ∨ ∃ f, act cs = .error f rest ∧ act' t = .error f t')

namespace Agree

theorem pure (a : α) : Agree (Pure.pure a) (Pure.pure a) := fun cs t ht hview =>
  ⟨cs, t, List.suffix_refl cs, ht, hview, Or.inl ⟨a, rfl, rfl⟩⟩

theorem throw (f : Fault) :
    Agree (MonadExcept.throw f : Action LineText α) (MonadExcept.throw f) := fun cs t ht hview =>
  ⟨cs, t, List.suffix_refl cs, ht, hview, Or.inr ⟨f, rfl, rfl⟩⟩

theorem orFault (x : Option α) (f : Fault) : Agree (Action.orFault x f) (Action.orFault x f) := by
  cases x with
  | some a => exact pure a
  | none => exact throw f

/-- Sequences of actions that agree agree. -/
theorem bind {act : Action LineText α} {act' : Action TextInput α} {k : α → Action LineText β}
    {k' : α → Action TextInput β} (h : Agree act act') (hk : ∀ a, Agree (k a) (k' a)) :
    Agree (act >>= k) (act' >>= k') := by
  intro cs t ht hview
  obtain ⟨rest, t₁, hrest, ht₁, hview₁, ⟨a, hact, hact'⟩ | ⟨f, hact, hact'⟩⟩ := h cs t ht hview
  · rw [Action.bind_of_ok hact, Action.bind_of_ok hact']
    obtain ⟨rest₂, t₂, hrest₂, hsame⟩ := hk a rest t₁ ht₁ hview₁
    exact ⟨rest₂, t₂, hrest₂.trans hrest, hsame⟩
  · exact ⟨rest, t₁, hrest, ht₁, hview₁, Or.inr ⟨f, Action.bind_of_error hact, Action.bind_of_error hact'⟩⟩

end Agree

/-- One character of ASCII is accepted from a line and from a file alike. -/
theorem accept_agree (hp : Ascii p) : Agree (accept p) (accept p) := by
  intro cs t ht hview
  obtain ⟨t', ht', hrun⟩ := TextInput.accept_reads p t ht
  rw [hview] at hrun
  cases cs with
  | nil =>
    rcases hrun with ⟨a, hact, hflat⟩ | ⟨f, -, hflat⟩
    · injection hflat with ha hrest
      subst ha
      exact ⟨[], t', List.suffix_refl _, ht', hrest.symm, Or.inl ⟨none, rfl, hact⟩⟩
    · cases hflat
  | cons c rest =>
    obtain ⟨b, l, hbytes, hpb, hl⟩ := Lines.encode_cons_of_ascii hp c rest
    rw [hbytes, FlatText.accept, hpb] at hrun
    rw [accept_line]
    by_cases hpc : p c = true
    · obtain ⟨hchar, rfl⟩ := hl hpc
      simp only [if_pos hpc] at hrun ⊢
      rcases hrun with ⟨a, hact, hflat⟩ | ⟨f, -, hflat⟩
      · injection hflat with ha hrest
        subst ha
        exact ⟨rest, t', List.suffix_cons c rest, ht', hrest.symm,
          Or.inl ⟨some c, rfl, by rw [hact, hchar]⟩⟩
      · cases hflat
    · simp only [if_neg hpc] at hrun ⊢
      rcases hrun with ⟨a, hact, hflat⟩ | ⟨f, -, hflat⟩
      · injection hflat with ha hrest
        subst ha
        exact ⟨c :: rest, t', List.suffix_refl _, ht', by rw [hbytes, hrest], Or.inl ⟨none, rfl, hact⟩⟩
      · cases hflat

/-- A run of ASCII characters is taken from a line and from a file alike. -/
theorem takeWhile_agree (hp : Ascii p) : Agree (takeWhile p) (takeWhile p) := by
  intro cs t ht hview
  obtain ⟨htake, hdrop⟩ := Lines.takeWhile_encode hp cs
  obtain ⟨t', ht', ⟨a, hact, hflat⟩ | ⟨f, -, hflat⟩⟩ := TextInput.takeWhile_reads p t ht
  · rw [hview, FlatText.takeWhile, htake, hdrop] at hflat
    injection hflat with ha hrest
    subst ha
    exact ⟨_, t', List.dropWhile_suffix p, ht', hrest.symm, Or.inl ⟨_, takeWhile_line p cs, hact⟩⟩
  · cases hflat

/-! ### Single bytes -/

/-- The characters of the bytes that a file still has, each byte by itself. -/
def shown (t : TextInput) : LineText := t.view.map character

/-- An action on characters and one on a file end alike if each byte is taken for a character. -/
def Bytewise (act : Action LineText α) (act' : Action TextInput α) : Prop :=
  ∀ t : TextInput, t.Steady → ∃ t' : TextInput, t'.Steady ∧
    ((∃ a, act (shown t) = .ok a (shown t') ∧ act' t = .ok a t') ∨
      ∃ f, act (shown t) = .error f (shown t') ∧ act' t = .error f t')

namespace Bytewise

theorem pure (a : α) : Bytewise (Pure.pure a) (Pure.pure a) := fun t ht => ⟨t, ht, Or.inl ⟨a, rfl, rfl⟩⟩

theorem throw (f : Fault) : Bytewise (MonadExcept.throw f : Action LineText α) (MonadExcept.throw f) :=
  fun t ht => ⟨t, ht, Or.inr ⟨f, rfl, rfl⟩⟩

theorem bind {act : Action LineText α} {act' : Action TextInput α} {k : α → Action LineText β}
    {k' : α → Action TextInput β} (h : Bytewise act act') (hk : ∀ a, Bytewise (k a) (k' a)) :
    Bytewise (act >>= k) (act' >>= k') := by
  intro t ht
  obtain ⟨t₁, ht₁, ⟨a, hact, hact'⟩ | ⟨f, hact, hact'⟩⟩ := h t ht
  · rw [Action.bind_of_ok hact, Action.bind_of_ok hact']
    exact hk a t₁ ht₁
  · exact ⟨t₁, ht₁, Or.inr ⟨f, Action.bind_of_error hact, Action.bind_of_error hact'⟩⟩

end Bytewise

/-- One byte is accepted from a file as its character is from a line. -/
theorem accept_bytewise (p : Char → Bool) : Bytewise (accept p) (accept p) := by
  intro t ht
  obtain ⟨t', ht', ⟨a, hact, hflat⟩ | ⟨f, -, hflat⟩⟩ := TextInput.accept_reads p t ht
  · refine ⟨t', ht', Or.inl ⟨a, ?_, hact⟩⟩
    rw [accept_line, shown, shown]
    cases hview : t.view with
    | nil =>
      rw [hview] at hflat
      injection hflat with ha hrest
      rw [← ha, ← hrest]
      rfl
    | cons b l =>
      rw [hview, FlatText.accept] at hflat
      simp only [List.map_cons]
      by_cases hp : p (character b) = true
      · rw [if_pos hp] at hflat ⊢
        injection hflat with ha hrest
        rw [← ha, ← hrest]
      · rw [if_neg hp] at hflat ⊢
        injection hflat with ha hrest
        rw [← ha, ← hrest]
        rfl
  · -- the cursor over bytes has no faults here
    cases hview : t.view with
    | nil => rw [hview] at hflat; cases hflat
    | cons b l =>
      rw [hview, FlatText.accept] at hflat
      split at hflat <;> cases hflat

/-- A run of bytes is taken from a file as their characters are from a line. -/
theorem takeWhile_bytewise (p : Char → Bool) : Bytewise (takeWhile p) (takeWhile p) := by
  intro t ht
  obtain ⟨t', ht', ⟨a, hact, hflat⟩ | ⟨f, -, hflat⟩⟩ := TextInput.takeWhile_reads p t ht
  · injection hflat with ha hrest
    refine ⟨t', ht', Or.inl ⟨a, ?_, hact⟩⟩
    rw [takeWhile_line, shown, shown, List.takeWhile_map, List.dropWhile_map, ha, hrest]
  · cases hflat

/-! ### Readers -/

/-- A relation between actions on characters and actions on a file that holds of every reader of ASCII
characters, because it holds of the steps of which readers are made. -/
structure Simulation (R : {α : Type} → Action LineText α → Action TextInput α → Prop) : Prop where
  pure : ∀ {α : Type} (a : α), R (Pure.pure a) (Pure.pure a)
  throw : ∀ {α : Type} (f : Fault), R (MonadExcept.throw f : Action LineText α) (MonadExcept.throw f)
  bind : ∀ {α β : Type} {act : Action LineText α} {act' : Action TextInput α} {k : α → Action LineText β}
    {k' : α → Action TextInput β}, R act act' → (∀ a, R (k a) (k' a)) → R (act >>= k) (act' >>= k')
  accept : ∀ {p : Char → Bool}, Ascii p → R (accept p) (accept p)
  takeWhile : ∀ {p : Char → Bool}, Ascii p → R (takeWhile p) (takeWhile p)

/-- Readers of ASCII characters agree on a text and on a file that holds it. -/
theorem agree_simulation : Simulation Agree :=
  ⟨Agree.pure, Agree.throw, Agree.bind, accept_agree, takeWhile_agree⟩

/-- Readers of ASCII characters agree on any file, if each byte is taken for a character. -/
theorem bytewise_simulation : Simulation Bytewise :=
  ⟨Bytewise.pure, Bytewise.throw, Bytewise.bind, fun _ => accept_bytewise _, fun _ => takeWhile_bytewise _⟩

end Cursor

/-! ### Quoted texts -/

namespace Lexeme

variable {delimiter : Char} {text rest cs : LineText}

/-- A quoted text is what stands before the first delimiter, if there is one. -/
theorem upTo_eq (delimiter : Char) (text : LineText) : upTo delimiter text =
    match text.dropWhile (· ≠ delimiter) with
    | [] => .error .unterminatedString []
    | _ :: rest => .ok (text.takeWhile (· ≠ delimiter)) rest := by
  have hspan : (modifyGet (List.span (· ≠ delimiter)) : Action LineText (List Char)) text =
      .ok (text.takeWhile (· ≠ delimiter)) (text.dropWhile (· ≠ delimiter)) := by
    show EStateM.Result.ok (text.span (· ≠ delimiter)).1 (text.span (· ≠ delimiter)).2 = _
    rw [List.span_eq_takeWhile_dropWhile]
  rw [upTo, Action.bind_of_ok hspan]
  cases text.dropWhile (· ≠ delimiter) <;> rfl

/-- A quoted text ends before the first delimiter. -/
theorem upTo_eq_ok_iff : upTo delimiter text = .ok cs rest ↔
    delimiter ∉ cs ∧ text = cs ++ delimiter :: rest := by
  rw [upTo_eq]
  constructor
  · intro h
    have hsplit := List.takeWhile_append_dropWhile (p := (· ≠ delimiter)) (l := text)
    have hstop := List.head?_dropWhile_not (· ≠ delimiter) text
    cases hdrop : text.dropWhile (· ≠ delimiter) with
    | nil =>
      rw [hdrop] at h
      cases h
    | cons d more =>
      rw [hdrop] at h hstop hsplit
      cases h
      obtain rfl : d = delimiter := by simpa using hstop
      exact ⟨fun hmem => absurd (List.mem_takeWhile_imp hmem) (by simp), hsplit.symm⟩
  · rintro ⟨hcs, rfl⟩
    have hne : ∀ x ∈ cs, (x ≠ delimiter : Bool) = true := fun x hx =>
      decide_eq_true fun heq => hcs (heq ▸ hx)
    rw [List.takeWhile_append_of_pos hne, List.dropWhile_append_of_pos hne,
      List.takeWhile_cons_of_neg (by simp), List.dropWhile_cons_of_neg (by simp), List.append_nil]

end Lexeme

end PMachine
