import PMachine.Proofs.Machine.Boot
import PMachine.Proofs.Machine.Integers
import PMachine.Proofs.Machine.Scope

/-!
# Output

A step that writes to a file makes up the whole field first and then writes it at once. So a step that
fails has written nothing, and one that succeeds has written its field to one file, or nothing at all.

* `Action.Atomic`: a fault leaves what a view shows.
* `Files.Gains`: bytes are appended to one file.
* `Machine.Prints`: the field that a procedure writes, as its operands demand it.
* `Machine.standard_prints`, `Machine.standard_atomic`: the procedures that write.
* `Machine.output_atomic`: the steps of a machine.
-/

namespace PMachine

open PMachine.Action (Keeps bind_eq_ok bind_eq_error)

namespace Action

variable {σ α β γ : Type} {view : σ → γ}

/-- A fault leaves what `view` shows of the state. -/
def Atomic (view : σ → γ) (act : Action σ α) : Prop := ∀ s f s', act s = .error f s' → view s' = view s

/-- What is never changed is not changed by a failure. -/
theorem Atomic.of_keeps {act : Action σ α} (h : Keeps view act) : Atomic view act := by
  intro s f s' herror
  rw [← after_of_error herror]
  exact h s

/-- What comes before may fail, and so may what follows. -/
theorem Atomic.bind {x : Action σ α} {k : α → Action σ β} (hx : Keeps view x)
    (hk : ∀ a, Atomic view (k a)) : Atomic view (x >>= k) := by
  intro s f s' h
  rcases bind_eq_error.1 h with herror | ⟨a, s₁, hok, herror⟩
  · exact Atomic.of_keeps hx s f s' herror
  · exact (hk a s₁ f s' herror).trans (hx.ok hok)

/-- What follows may change anything if it does not fail. -/
theorem Atomic.last {x : Action σ α} {k : α → Action σ β} (hx : Atomic view x)
    (hk : ∀ a s f s', k a s ≠ .error f s') : Atomic view (x >>= k) := by
  intro s f s' h
  rcases bind_eq_error.1 h with herror | ⟨a, s₁, -, herror⟩
  · exact hx s f s' herror
  · exact absurd herror (hk a s₁ f s')

end Action

open PMachine.Action (Atomic)

/-! ### Files -/

/-- A sink takes all bytes or none. -/
theorem Sink.write_cases (bytes : List UInt8) (s : Sink) :
    write bytes s = .ok () (s.appended bytes) ∨ ∃ f, write bytes s = .error f s := by
  unfold write
  split
  · exact Or.inl rfl
  · exact Or.inr ⟨_, rfl⟩

namespace Files

variable {f f' : Files} {file : Nat} {bytes : List UInt8} {fault : Fault}

/-- Bytes are appended to one of the files to write, and the other one stays as it is. -/
structure Gains (ch : Channel) (bytes : List UInt8) (f f' : Files) : Prop where
  sink : ∃ s, f.sink? ch = some s ∧ f'.sink? ch = some (s.appended bytes)
  others : ∀ other, other ≠ ch → f'.sink? other = f.sink? other

/-- Bytes behind the others in the output are gained there. -/
theorem Gains.of_output {s : Sink} (h : s = f.output.appended bytes) :
    Gains .output bytes f { f with output := s } where
  sink := ⟨f.output, rfl, congrArg some h⟩
  others other hne := by cases other <;> first | rfl | contradiction

/-- Bytes behind the others in the second file are gained there. -/
theorem Gains.of_prr {s : Sink} (h : s = f.prr.appended bytes) : Gains .prr bytes f { f with prr := s } where
  sink := ⟨f.prr, rfl, congrArg some h⟩
  others other hne := by cases other <;> first | rfl | contradiction

/-- What was written before stands before what is written later. -/
structure Extends (f f' : Files) : Prop where
  output : f.output.written.toList <+: f'.output.written.toList
  prr : f.prr.written.toList <+: f'.prr.written.toList

theorem Extends.refl (f : Files) : f.Extends f := ⟨List.prefix_rfl, List.prefix_rfl⟩

theorem Extends.trans {f₀ f₁ f₂ : Files} (h₁ : f₀.Extends f₁) (h₂ : f₁.Extends f₂) : f₀.Extends f₂ :=
  ⟨h₁.output.trans h₂.output, h₁.prr.trans h₂.prr⟩

/-- Files in which nothing was written are extended by nothing. -/
theorem Extends.of_sinks (h : f'.sinks = f.sinks) : f.Extends f' := by
  obtain ⟨houtput, hprr⟩ := Prod.mk.inj h
  exact ⟨houtput ▸ List.prefix_rfl, hprr ▸ List.prefix_rfl⟩

/-- Files that gain bytes are extended. -/
theorem Gains.extends {ch : Channel} (h : Gains ch bytes f f') : f.Extends f' := by
  obtain ⟨s, hs, hs'⟩ := h.sink
  have hlonger : s.written.toList <+: (s.appended bytes).written.toList :=
    ⟨bytes, (Array.toList_appendList).symm⟩
  cases ch with
  | input | prd => cases hs
  | output =>
    have hprr : f'.prr = f.prr := Option.some.inj (h.others .prr (by decide))
    rw [← Option.some.inj hs', ← Option.some.inj hs] at hlonger
    exact ⟨hlonger, hprr ▸ List.prefix_rfl⟩
  | prr =>
    have houtput : f'.output = f.output := Option.some.inj (h.others .output (by decide))
    rw [← Option.some.inj hs', ← Option.some.inj hs] at hlonger
    exact ⟨houtput ▸ List.prefix_rfl, hlonger⟩

/-- A write appends to one file, or it fails and appends nothing. -/
theorem write_cases (file : Nat) (bytes : List UInt8) (f : Files) :
    (∃ ch f', file = ch.number ∧ write file bytes f = .ok () f' ∧ Gains ch bytes f f') ∨
      ∃ e, write file bytes f = .error e f := by
  unfold write writing
  cases hch : Channel.ofNumber file with
  | error e => exact Or.inr ⟨e, Action.bind_of_error (Action.lift_error e f)⟩
  | ok ch =>
    have hfile := Machine.number_of_ofNumber hch
    rw [Action.bind_of_ok (Action.lift_ok ch f)]
    cases ch with
    | input | prd => exact Or.inr ⟨.writesInput, rfl⟩
    | output =>
      rcases Sink.write_cases bytes f.output with hok | ⟨e, herror⟩
      · exact Or.inl ⟨.output, _, hfile, Action.zoom_of_ok hok, .of_output rfl⟩
      · exact Or.inr ⟨e, Action.zoom_of_error herror⟩
    | prr =>
      rcases Sink.write_cases bytes f.prr with hok | ⟨e, herror⟩
      · exact Or.inl ⟨.prr, _, hfile, Action.zoom_of_ok hok, .of_prr rfl⟩
      · exact Or.inr ⟨e, Action.zoom_of_error herror⟩

/-- A write that succeeds names a file, and that one gains the bytes. -/
theorem write_ok (h : write file bytes f = .ok () f') : ∃ ch, file = ch.number ∧ Gains ch bytes f f' := by
  rcases write_cases file bytes f with ⟨ch, f₁, hfile, hok, hgains⟩ | ⟨e, herror⟩
  · rw [hok] at h
    cases h
    exact ⟨ch, hfile, hgains⟩
  · rw [herror] at h
    cases h

/-- A write that fails writes nothing. -/
theorem write_atomic (file : Nat) (bytes : List UInt8) : Atomic id (write file bytes) := by
  intro f e f' h
  rcases write_cases file bytes f with ⟨ch, f₁, hfile, hok, hgains⟩ | ⟨e', herror⟩
  · rw [hok] at h
    cases h
  · rw [herror] at h
    cases h
    rfl

/-- To ask whether a file can be written does nothing to it. -/
theorem writing_keeps (file : Nat) : Keeps id (writing file (pure ())) := by
  refine .bind (.lift _) fun ch f => ?_
  cases ch <;> rfl

end Files

/-! ### Operands -/

namespace Cell

variable {c : Cell} {b : UInt8} {width : Nat} {x : Binary64}

/-- An integer comes from an integer cell. -/
theorem asInt_eq_ok {n : Word} (h : c.asInt = .ok n) : c = .int n := by
  cases c with
  | int m =>
    cases h
    rfl
  | undefined | real _ | bool _ | set _ | address _ | mark _ => cases h

/-- A width comes from an integer cell, and a negative one counts as zero. -/
theorem asWidth_eq_ok (h : c.asWidth = .ok width) : ∃ n : Word, c = .int n ∧ width = n.toInt.toNat := by
  cases hint : c.asInt with
  | error f =>
    rw [asWidth, hint] at h
    cases h
  | ok n =>
    rw [asWidth, hint] at h
    cases h
    exact ⟨n, asInt_eq_ok hint, rfl⟩

/-- A character comes from an integer cell that is a byte. -/
theorem asCharacter_eq_ok (h : c.asCharacter = .ok b) : ∃ n : Word, c = .int n ∧ n.toInt = b.toNat := by
  cases hint : c.asInt with
  | error f =>
    rw [asCharacter, hint] at h
    cases h
  | ok n =>
    have hrun : c.asCharacter = if 0 ≤ n.toInt ∧ n.toInt < 256 then .ok (UInt8.ofNat n.toInt.toNat)
        else .error .characterCode := by rw [asCharacter, hint]; rfl
    rw [hrun] at h
    split at h
    · rename_i hbyte
      cases h
      refine ⟨n, asInt_eq_ok hint, ?_⟩
      rw [UInt8.toNat_ofNat']
      omega
    · cases h

/-- An integer stands for a real too. -/
theorem asReal_eq_ok (h : c.asReal = .ok x) : c = .real x ∨ ∃ n, c = .int n ∧ x = .ofWord n := by
  cases c with
  | real y =>
    cases h
    exact Or.inl rfl
  | int n =>
    cases h
    exact Or.inr ⟨n, rfl, rfl⟩
  | undefined | bool _ | set _ | address _ | mark _ => cases h

end Cell

namespace Machine

variable {m m' : Machine} {fault : Fault}

/-- The files to write. -/
theorem still_sinks : Still fun m => m.files.sinks where
  moved _ _ _ := rfl
  input _ _ h := h
  cells _ _ _ := rfl

/-- Characters at the right end of a field, as bytes, after the blanks that fill it. -/
def padded (width : Nat) (cs : List Char) : List UInt8 :=
  List.replicate (width - cs.length) 32 ++ cs.map fun c => UInt8.ofNat c.toNat

/-- The field that a procedure writes to a file, made up from the operands on the stack and from the cells that
they point to. A negative width or length counts as none, and a character is an integer that is a byte. -/
inductive Prints (m : Machine) (file : Nat) : Procedure → List UInt8 → Prop
  /-- The buffer of the file. -/
  | put {n : Word} {b : UInt8} : m.store.cells[file]? = some (.int n) → n.toInt = b.toNat →
      Prints m file .put [b]
  | wln : Prints m file .wln [10]
  /-- As many of the characters as fit, after blanks that fill the field. -/
  | wrs {length width : Word} {c : Cell} {start : Nat} {bytes : List UInt8} :
      m.slot? 1 = some (.int length) → m.slot? 2 = some (.int width) →
      m.slot? 3 = some c → c.asAddress = .ok start →
      bytes.length = min length.toInt.toNat width.toInt.toNat →
      (∀ i b, bytes[i]? = some b → ∃ n : Word, m.store.cells[start + i]? = some (.int n) ∧ n.toInt = b.toNat) →
      Prints m file .wrs (List.replicate (width.toInt.toNat - length.toInt.toNat) 32 ++ bytes)
  /-- The decimal text of an integer. -/
  | wri {width n : Word} : m.slot? 1 = some (.int width) → m.slot? 2 = some (.int n) →
      Prints m file .wri (padded width.toInt.toNat (toString n.toInt).toList)
  /-- The text of a real. -/
  | wrr {width : Word} {c : Cell} {x : Binary64} : m.slot? 1 = some (.int width) → m.slot? 2 = some c →
      (c = .real x ∨ ∃ n, c = .int n ∧ x = .ofWord n) →
      Prints m file .wrr (padded width.toInt.toNat (x.chars Field.realLayout))
  | wrc {width n : Word} {b : UInt8} : m.slot? 1 = some (.int width) → m.slot? 2 = some (.int n) →
      n.toInt = b.toNat → Prints m file .wrc (List.replicate (width.toInt.toNat - 1) 32 ++ [b])

/-- The operands are the same before the instruction is fetched. -/
theorem Prints.of_fetched {file : Nat} {f : Procedure} {bytes : List UInt8}
    (h : m.fetched.Prints file f bytes) : m.Prints file f bytes := by
  cases h with
  | put hn hb => exact .put hn hb
  | wln => exact .wln
  | wrs hlength hwidth hc hstart hcount hcells => exact .wrs hlength hwidth hc hstart hcount hcells
  | wri hwidth hn => exact .wri hwidth hn
  | wrr hwidth hc hx => exact .wrr hwidth hc hx
  | wrc hwidth hn hb => exact .wrc hwidth hn hb

/-- What a procedure has written when it succeeds. -/
structure Printed (f : Procedure) (m m' : Machine) (ch : Channel) (bytes : List UInt8) : Prop where
  file : ∃ c, m.slot? 0 = some c ∧ c.asAddress = .ok ch.number
  field : m.Prints ch.number f bytes
  gains : m.files.Gains ch bytes m'.files

/-! ### The procedures that write -/

/-- An action on the files changes nothing else of the machine. -/
theorem onFiles_ok {α : Type} {act : Action Files α} {a : α} (h : onFiles act m = .ok a m') :
    ∃ files, act m.files = .ok a files ∧ m' = { m with files } := by
  cases hrun : act m.files with
  | ok b files =>
    rw [onFiles_of_ok hrun] at h
    cases h
    exact ⟨files, rfl, rfl⟩
  | error e files =>
    rw [onFiles_of_error hrun] at h
    cases h

/-- A machine that writes to a file and succeeds has written there. -/
theorem write_ok_gains {file : Nat} {bytes : List UInt8} (h : onFiles (Files.write file bytes) m = .ok () m') :
    ∃ ch files, file = ch.number ∧ m' = { m with files } ∧ m.files.Gains ch bytes files := by
  obtain ⟨files, hwrite, rfl⟩ := onFiles_ok h
  obtain ⟨ch, hfile, hgains⟩ := Files.write_ok hwrite
  exact ⟨ch, files, hfile, rfl, hgains⟩

/-- A machine that writes to a file and fails has written nothing. -/
theorem write_atomic (file : Nat) (bytes : List UInt8) :
    Atomic (fun m => m.files.sinks) (onFiles (Files.write file bytes)) := by
  intro m e m' h
  cases hrun : Files.write file bytes m.files with
  | ok u files =>
    rw [onFiles_of_ok hrun] at h
    cases h
  | error e files =>
    have hsame : files = m.files := Files.write_atomic file bytes _ _ _ hrun
    rw [onFiles_of_error hrun] at h
    cases h
    exact congrArg Files.sinks hsame

/-- The end of a line is written last, so that a failure has written nothing. -/
theorem writeLine_atomic : Atomic (fun m => m.files.sinks) writeLine :=
  .bind (popAddress_keeps still_sinks) fun _ => write_atomic _ _

/-- Character data is written after it was read, so that a failure has written nothing. -/
theorem writeString_atomic : Atomic (fun m => m.files.sinks) writeString :=
  .bind (peekAddress_keeps 0) fun _ => .bind (peek_keeps 1) fun _ => .bind (.lift _) fun _ =>
    .bind (peek_keeps 2) fun _ => .bind (.lift _) fun _ => .bind (peekAddress_keeps 3) fun _ =>
      .bind (characters_keeps _ _) fun _ => .last (write_atomic _ _) fun _ _ _ _ => nofun

/-- A value is written after its field was made, so that a failure has written nothing. -/
theorem writeValue_atomic (field : Nat → Cell → Except Fault (List UInt8)) :
    Atomic (fun m => m.files.sinks) (writeValue field) :=
  .bind (peekAddress_keeps 0) fun _ => .bind (peek_keeps 1) fun _ => .bind (.lift _) fun _ =>
    .bind (peek_keeps 2) fun _ => .bind (.lift _) fun _ =>
      .last (write_atomic _ _) fun _ _ _ _ => nofun

/-- To ask whether a file can be written changes nothing. -/
theorem asks_keeps (file : Nat) : Keeps id (onFiles (Files.writing file (pure ()))) := by
  intro m
  have hsame := Files.writing_keeps file m.files
  cases hrun : Files.writing file (pure ()) m.files with
  | ok u files =>
    rw [Action.after_of_ok hrun] at hsame
    rw [Action.after_of_ok (onFiles_of_ok hrun)]
    exact congrArg (fun files => { m with files }) hsame
  | error e files =>
    rw [Action.after_of_error hrun] at hsame
    rw [Action.after_of_error (onFiles_of_error hrun)]
    exact congrArg (fun files => { m with files }) hsame

/-- The buffer of a file that can be written is in the store, so it can be emptied afterwards. -/
theorem empty_total {file : Nat} {bytes : List UInt8} (hsize : Channel.prr.number < m.store.cells.size)
    (h : onFiles (Files.write file bytes) m = .ok () m') (c : Cell) : ∃ m'', write file c m' = .ok () m'' := by
  obtain ⟨ch, files, rfl, rfl, -⟩ := write_ok_gains h
  have hbuffer : ch.number ≤ Channel.prr.number := by cases ch <;> decide
  exact ⟨_, write_eq (m := { m with files }) (Nat.lt_of_le_of_lt hbuffer hsize) c⟩

/-- The buffer is emptied after it was written. That does not fail, because the buffers are in the store.
-/
theorem putCharacter_atomic (hsize : Channel.prr.number < m.store.cells.size)
    (h : putCharacter m = .error fault m') : m'.files.sinks = m.files.sinks := by
  have hreads (file : Nat) : Keeps (fun m : Machine => m.files.sinks) (read file) := read_keeps file
  have hlifts (c : Cell) : Keeps (fun m : Machine => m.files.sinks) (Action.lift c.asCharacter) := .lift _
  rcases bind_eq_error.1 h with hfault | ⟨file, m₁, hpop, hasks⟩
  · exact Atomic.of_keeps (popAddress_keeps still_sinks) m fault m' hfault
  obtain ⟨c, -, -, rfl⟩ := popAddress_ok hpop
  rcases bind_eq_error.1 hasks with hfault | ⟨_, m₂, hasked, hrest⟩
  · exact congrArg (·.files.sinks) (Atomic.of_keeps (asks_keeps file) m.popped fault m' hfault)
  obtain rfl : m₂ = m.popped := (asks_keeps file).ok hasked
  rcases bind_eq_error.1 hrest with hfault | ⟨d, m₃, hread, hrest⟩
  · exact Atomic.of_keeps (hreads file) m.popped fault m' hfault
  obtain ⟨-, rfl⟩ := read_ok hread
  rcases bind_eq_error.1 hrest with hfault | ⟨b, m₄, hlift, hrest⟩
  · exact Atomic.of_keeps (hlifts d) m.popped fault m' hfault
  obtain ⟨-, rfl⟩ := Action.lift_eq_ok.1 hlift
  rcases bind_eq_error.1 hrest with hfault | ⟨_, m₅, hwrite, hempty⟩
  · exact write_atomic file [b] m.popped fault m' hfault
  obtain ⟨m₆, htotal⟩ := empty_total (m := m.popped) hsize hwrite .undefined
  rw [htotal] at hempty
  cases hempty

/-- A buffer that is written adds its character to the file. -/
theorem putCharacter_printed (h : putCharacter m = .ok () m') : ∃ ch bytes, Printed .put m m' ch bytes := by
  obtain ⟨file, m₁, hpop, hasks⟩ := bind_eq_ok.1 h
  obtain ⟨c, hc, hfile, rfl⟩ := popAddress_ok hpop
  obtain ⟨_, m₂, hasked, hreads⟩ := bind_eq_ok.1 hasks
  obtain rfl : m₂ = m.popped := (asks_keeps file).ok hasked
  obtain ⟨d, m₃, hread, hlifts⟩ := bind_eq_ok.1 hreads
  obtain ⟨hd, rfl⟩ := read_ok hread
  obtain ⟨b, m₄, hlift, hwrites⟩ := bind_eq_ok.1 hlifts
  obtain ⟨hb, rfl⟩ := Action.lift_eq_ok.1 hlift
  obtain ⟨_, m₅, hwrite, hempty⟩ := bind_eq_ok.1 hwrites
  obtain ⟨ch, files, rfl, rfl, hgains⟩ := write_ok_gains hwrite
  obtain ⟨-, rfl⟩ := write_ok hempty
  obtain ⟨n, rfl, hn⟩ := Cell.asCharacter_eq_ok hb
  exact ⟨ch, [b], ⟨c, hc, hfile⟩, .put hd hn, hgains⟩

/-- Character data is read cell by cell, and reading changes nothing. -/
theorem characters_ok {n : Nat} : ∀ {a : Nat} {m m' : Machine} {bytes : List UInt8},
    characters n a m = .ok bytes m' → m' = m ∧ bytes.length = n ∧
      ∀ i b, bytes[i]? = some b → ∃ c, m.store.cells[a + i]? = some c ∧ c.asCharacter = .ok b := by
  induction n with
  | zero =>
    intro a m m' bytes h
    cases h
    exact ⟨rfl, rfl, nofun⟩
  | succ n ih =>
    intro a m m' bytes h
    obtain ⟨c, m₁, hread, h₁⟩ := bind_eq_ok.1 h
    obtain ⟨hc, rfl⟩ := read_ok hread
    obtain ⟨b, m₂, hlift, h₂⟩ := bind_eq_ok.1 h₁
    obtain ⟨hb, rfl⟩ := Action.lift_eq_ok.1 hlift
    obtain ⟨more, m₃, hmore, hlast⟩ := bind_eq_ok.1 h₂
    obtain ⟨rfl, hlength, hcells⟩ := ih hmore
    cases hlast
    refine ⟨rfl, congrArg (· + 1) hlength, fun i d hd => ?_⟩
    cases i with
    | zero =>
      cases hd
      exact ⟨c, hc, hb⟩
    | succ i =>
      obtain ⟨e, he, hd⟩ := hcells i d hd
      refine ⟨e, ?_, hd⟩
      rw [← he, Nat.add_right_comm, Nat.add_assoc]

/-- The end of a line adds a line feed to the file. -/
theorem writeLine_printed (h : writeLine m = .ok () m') : ∃ ch bytes, Printed .wln m m' ch bytes := by
  obtain ⟨file, m₁, hpop, hwrite⟩ := bind_eq_ok.1 h
  obtain ⟨c, hc, hfile, rfl⟩ := popAddress_ok hpop
  obtain ⟨ch, files, rfl, rfl, hgains⟩ := write_ok_gains hwrite
  exact ⟨ch, _, ⟨c, hc, hfile⟩, .wln, hgains⟩

/-- Character data adds its field to the file. -/
theorem writeString_printed (h : writeString m = .ok () m') : ∃ ch bytes, Printed .wrs m m' ch bytes := by
  obtain ⟨file, m₁, hpeek, h₁⟩ := bind_eq_ok.1 h
  obtain ⟨c, hc, hfile, rfl⟩ := peekAddress_ok hpeek
  obtain ⟨d, m₂, hpeek, h₂⟩ := bind_eq_ok.1 h₁
  obtain ⟨hd, rfl⟩ := peek_ok hpeek
  obtain ⟨length, m₃, hlift, h₃⟩ := bind_eq_ok.1 h₂
  obtain ⟨hlength, rfl⟩ := Action.lift_eq_ok.1 hlift
  obtain ⟨e, m₄, hpeek, h₄⟩ := bind_eq_ok.1 h₃
  obtain ⟨he, rfl⟩ := peek_ok hpeek
  obtain ⟨width, m₅, hlift, h₅⟩ := bind_eq_ok.1 h₄
  obtain ⟨hwidth, rfl⟩ := Action.lift_eq_ok.1 hlift
  obtain ⟨start, m₆, hpeek, h₆⟩ := bind_eq_ok.1 h₅
  obtain ⟨a, ha, hstart, rfl⟩ := peekAddress_ok hpeek
  obtain ⟨bytes, m₇, hcharacters, h₇⟩ := bind_eq_ok.1 h₆
  obtain ⟨rfl, hcount, hcells⟩ := characters_ok hcharacters
  obtain ⟨_, m₈, hwrite, hdrop⟩ := bind_eq_ok.1 h₇
  obtain ⟨ch, files, rfl, rfl, hgains⟩ := write_ok_gains hwrite
  cases hdrop
  obtain ⟨l, rfl, rfl⟩ := Cell.asWidth_eq_ok hlength
  obtain ⟨w, rfl, rfl⟩ := Cell.asWidth_eq_ok hwidth
  refine ⟨ch, _, ⟨c, hc, hfile⟩, .wrs hd he ha hstart hcount fun i b hb => ?_, hgains⟩
  obtain ⟨d, hd, hcharacter⟩ := hcells i b hb
  obtain ⟨n, rfl, hn⟩ := Cell.asCharacter_eq_ok hcharacter
  exact ⟨n, hd, hn⟩

/-- A value adds its field to the file that the top of the stack names. -/
theorem writeValue_printed {field : Nat → Cell → Except Fault (List UInt8)}
    (h : writeValue field m = .ok () m') : ∃ ch c d e width bytes, m.slot? 0 = some c ∧
      c.asAddress = .ok ch.number ∧ m.slot? 1 = some d ∧ d.asWidth = .ok width ∧ m.slot? 2 = some e ∧
      field width e = .ok bytes ∧ m.files.Gains ch bytes m'.files := by
  obtain ⟨file, m₁, hpeek, h₁⟩ := bind_eq_ok.1 h
  obtain ⟨c, hc, hfile, rfl⟩ := peekAddress_ok hpeek
  obtain ⟨d, m₂, hpeek, h₂⟩ := bind_eq_ok.1 h₁
  obtain ⟨hd, rfl⟩ := peek_ok hpeek
  obtain ⟨width, m₃, hlift, h₃⟩ := bind_eq_ok.1 h₂
  obtain ⟨hwidth, rfl⟩ := Action.lift_eq_ok.1 hlift
  obtain ⟨e, m₄, hpeek, h₄⟩ := bind_eq_ok.1 h₃
  obtain ⟨he, rfl⟩ := peek_ok hpeek
  obtain ⟨bytes, m₅, hlift, h₅⟩ := bind_eq_ok.1 h₄
  obtain ⟨hfield, rfl⟩ := Action.lift_eq_ok.1 hlift
  obtain ⟨_, m₆, hwrite, hdrop⟩ := bind_eq_ok.1 h₅
  obtain ⟨ch, files, rfl, rfl, hgains⟩ := write_ok_gains hwrite
  cases hdrop
  exact ⟨ch, c, d, e, width, bytes, hc, hfile, hd, hwidth, he, hfield, hgains⟩

/-- Characters at the right end of a field stand behind blanks. -/
theorem right_ascii (width : Nat) (cs : List Char) : Field.right width (Field.ascii cs) = padded width cs := by
  rw [Field.right, List.leftpad, Field.ascii, List.length_map]
  rfl

/-- A value that is made up and then put in a field. -/
theorem field_ok {α : Type} {x : Except Fault α} {g : α → List UInt8} {bytes : List UInt8}
    (h : (do let a ← x; return g a) = .ok bytes) : ∃ a, x = .ok a ∧ g a = bytes := by
  cases x with
  | ok a => exact ⟨a, rfl, Except.ok.inj h⟩
  | error e => cases h

/-- **A procedure that writes** has written its field to the file that it names. -/
theorem standard_printed {f : Procedure} (hf : f.writes = true) (h : standard f m = .ok () m') :
    ∃ ch bytes, Printed f m m' ch bytes := by
  cases f with
  | put => exact putCharacter_printed h
  | wln => exact writeLine_printed h
  | wrs => exact writeString_printed h
  | wri =>
    obtain ⟨ch, c, d, e, width, bytes, hc, hfile, hd, hwidth, he, hfield, hgains⟩ := writeValue_printed h
    obtain ⟨n, hn, rfl⟩ := field_ok hfield
    obtain ⟨w, rfl, rfl⟩ := Cell.asWidth_eq_ok hwidth
    obtain rfl := Cell.asInt_eq_ok hn
    rw [Field.integer, right_ascii, Field.decimal_eq] at hgains
    exact ⟨ch, _, ⟨c, hc, hfile⟩, .wri hd he, hgains⟩
  | wrr =>
    obtain ⟨ch, c, d, e, width, bytes, hc, hfile, hd, hwidth, he, hfield, hgains⟩ := writeValue_printed h
    obtain ⟨x, hx, rfl⟩ := field_ok hfield
    obtain ⟨w, rfl, rfl⟩ := Cell.asWidth_eq_ok hwidth
    rw [Field.real, right_ascii] at hgains
    exact ⟨ch, _, ⟨c, hc, hfile⟩, .wrr hd he (Cell.asReal_eq_ok hx), hgains⟩
  | wrc =>
    obtain ⟨ch, c, d, e, width, bytes, hc, hfile, hd, hwidth, he, hfield, hgains⟩ := writeValue_printed h
    obtain ⟨b, hb, rfl⟩ := field_ok hfield
    obtain ⟨w, rfl, rfl⟩ := Cell.asWidth_eq_ok hwidth
    obtain ⟨n, rfl, hn⟩ := Cell.asCharacter_eq_ok hb
    exact ⟨ch, _, ⟨c, hc, hfile⟩, .wrc hd he hn, hgains⟩
  | get | rst | rln | new | eln | rdi | rdr | rdc | sin | cos | exp | log | sqt | atn | sav => cases hf

/-- A procedure that is none of those that write writes nothing. -/
theorem standard_silent {f : Procedure} (hf : f.writes = false) :
    Keeps (fun m : Machine => m.files.sinks) (standard f) := by
  refine standard_keeps still_sinks (fun hwrites => ?_) fun _ _ _ => rfl
  rw [hf] at hwrites
  cases hwrites

/-- **A procedure that fails** has written nothing. -/
theorem standard_atomic {f : Procedure} (hsize : Channel.prr.number < m.store.cells.size)
    (h : standard f m = .error fault m') : m'.files.sinks = m.files.sinks := by
  by_cases hf : f.writes = true
  · cases f with
    | put => exact putCharacter_atomic hsize h
    | wln => exact writeLine_atomic m fault m' h
    | wrs => exact writeString_atomic m fault m' h
    | wri | wrr | wrc => exact writeValue_atomic _ m fault m' h
    | get | rst | rln | new | eln | rdi | rdr | rdc | sin | cos | exp | log | sqt | atn | sav => cases hf
  · exact Atomic.of_keeps (standard_silent (Bool.not_eq_true _ ▸ hf)) m fault m' h

/-! ### Steps -/

/-- Only the procedures that write change the files to write. -/
theorem sinks_after_eq (hf : m.called?.any Procedure.writes = false) :
    (step.after m).files.sinks = m.files.sinks := by
  refine step_still still_sinks (fun _ _ => rfl) fun f hcalled => standard_silent ?_
  rwa [hcalled, Option.any_some] at hf

/-- A step that succeeds writes nothing, or exactly the field of its procedure. -/
theorem step_printed {b : Bool} (h : step m = .ok b m') :
    m.called?.any Procedure.writes = false ∧ m'.files.sinks = m.files.sinks ∨
      ∃ f ch bytes, m.called? = some f ∧ f.writes = true ∧ Printed f m m' ch bytes := by
  cases hwrites : m.called?.any Procedure.writes with
  | false =>
    have hsame := sinks_after_eq hwrites
    rw [Action.after_of_ok h] at hsame
    exact Or.inl ⟨rfl, hsame⟩
  | true =>
    obtain ⟨f, hcalled, hf⟩ := (Option.any_eq_true _ _).1 hwrites
    obtain ⟨ch, bytes, hfile, hfield, hgains⟩ := standard_printed hf (standard_of_step hcalled h)
    exact Or.inr ⟨f, ch, bytes, hcalled, hf, hfile, hfield.of_fetched, hgains⟩

/-- A step that fails has written nothing. -/
theorem step_atomic (hsize : Channel.prr.number < m.store.cells.size) (h : step m = .error fault m') :
    m'.files.sinks = m.files.sinks := by
  cases hwrites : m.called?.any Procedure.writes with
  | false =>
    have hsame := sinks_after_eq hwrites
    rwa [Action.after_of_error h] at hsame
  | true =>
    obtain ⟨f, hcalled, -⟩ := (Option.any_eq_true _ _).1 hwrites
    exact standard_atomic (m := m.fetched) hsize (standard_of_step_error hcalled h)

/-- A step only adds to the files. -/
theorem extends_after (hsize : Channel.prr.number < m.store.cells.size) :
    m.files.Extends (step.after m).files := by
  cases hrun : step m with
  | ok b m' =>
    rw [Action.after_of_ok hrun]
    rcases step_printed hrun with ⟨-, hsame⟩ | ⟨f, ch, bytes, -, -, hprinted⟩
    · exact .of_sinks hsame
    · exact hprinted.gains.extends
  | error e m' =>
    rw [Action.after_of_error hrun]
    exact .of_sinks (step_atomic hsize hrun)

/-- The number of cells stays what it is at the start of a run. -/
theorem size_run (m : Machine) (n : Nat) : (step.after^[n] m).store.cells.size = m.store.cells.size := by
  induction n with
  | zero => rfl
  | succ n ih =>
    rw [Function.iterate_succ_apply', ← ih]
    exact step_keeps fixed_size _

/-- A run only adds to the files. -/
theorem extends_run (hsize : Channel.prr.number < m.store.cells.size) (n : Nat) :
    m.files.Extends (step.after^[n] m).files := by
  induction n with
  | zero => exact .refl _
  | succ n ih =>
    rw [Function.iterate_succ_apply']
    exact ih.trans (extends_after (size_run m n ▸ hsize))

/-- A program that writes an integer and a character in fields, and then something that is not a character. -/
def characterProgram : Program where
  code := #[⟨.ldc, 1, -7⟩, ⟨.ldc, 1, 4⟩, ⟨.ldc, 1, 5⟩, ⟨.csp, 0, 8⟩,
    ⟨.ldc, 1, 65⟩, ⟨.ldc, 1, 3⟩, ⟨.ldc, 1, 5⟩, ⟨.csp, 0, 10⟩,
    ⟨.ldc, 1, 300⟩, ⟨.ldc, 1, 3⟩, ⟨.ldc, 1, 5⟩, ⟨.csp, 0, 10⟩]
  store := ⟨{ stackSize := 11, pools := {}, codeSize := 12, maxLabel := 0 }, .replicate 12 .undefined, {}⟩

/-- The machine that starts it. -/
def characterMachine : Machine where
  pc := 0
  mp := 0
  sp := -1
  np := 12
  code := characterProgram.code
  store := withBuffers characterProgram.store
  files := {}

/-- The same machine after a number of steps. -/
def characterAfter (n : Nat) : Machine := step.after^[n] characterMachine

/-- The file with the number on top of the stack. -/
theorem Printed.eq_output {f : Procedure} {ch : Channel} {bytes : List UInt8} (h : Printed f m m' ch bytes)
    (htop : m.slot? 0 = some (.int 5)) : ch = .output := by
  obtain ⟨c, hc, hfile⟩ := h.file
  obtain rfl : c = .int 5 := Option.some.inj (hc.symm.trans htop)
  have hnumber : ch.number = 5 := (Except.ok.inj hfile).symm
  cases ch <;> first | rfl | exact absurd hnumber (by decide)

end Machine

end PMachine
