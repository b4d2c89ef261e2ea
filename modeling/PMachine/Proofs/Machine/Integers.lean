import PMachine.Proofs.Machine.Stack
import PMachine.Proofs.Statement.ReadBack

/-!
# Integers that are written are read back

A machine that writes integers to a file, each in a field on a line of its own, makes a file from which
a machine reads the same integers. This holds for every integer and every width of a field, and whatever the
machines do between the calls, as long as it is not done to the file.

* `Machine.Calls`: a machine is about to call a standard procedure.
* `Machine.Calls.step_wri`, `Machine.Calls.step_wln`, `Machine.Calls.step_rdi`: the calls.
* `Machine.Writes`, `Machine.Reads`: calls in turn, all of which succeed.
* `Machine.integers_read_back`: what was written is read.
-/

namespace PMachine

/-! ### Files -/

/-- A channel has its number. -/
theorem Channel.ofNumber_number (ch : Channel) : ofNumber ch.number = .ok ch := by
  cases ch <;> rfl

namespace Sink

/-- A sink with more bytes written to it. -/
def appended (s : Sink) (bytes : List UInt8) : Sink := { s with written := s.written ++ bytes }

theorem appended_nil (s : Sink) : s.appended [] = s := by
  have hnothing : s.written ++ ([] : List UInt8) = s.written := by simp
  rw [appended, hnothing]

/-- Bytes that are written one after the other are written together. -/
theorem appended_appended (s : Sink) (bytes more : List UInt8) :
    (s.appended bytes).appended more = s.appended (bytes ++ more) := by
  have hwritten : s.written ++ bytes ++ more = s.written ++ (bytes ++ more) := by
    rw [← Array.toList_inj]
    simp only [Array.toList_appendList, List.append_assoc]
  exact congrArg (fun written => { s with written }) hwritten

/-- Room for some bytes is room for fewer. -/
theorem hasRoom_of_le {s : Sink} {k n : Nat} (h : s.hasRoom n = true) (hle : k ≤ n) : s.hasRoom k = true := by
  unfold hasRoom at h ⊢
  cases hlimit : s.limit with
  | none => rfl
  | some limit =>
    rw [hlimit, Option.all_some, decide_eq_true_eq] at h
    rw [Option.all_some, decide_eq_true_eq]
    omega

/-- A file grows by what is written to it. -/
theorem size_appended (s : Sink) (bytes : List UInt8) :
    (s.appended bytes).written.size = s.written.size + bytes.length := by
  rw [appended, ← Array.length_toList, Array.toList_appendList, List.length_append, Array.length_toList]

/-- What is written takes its room. -/
theorem hasRoom_appended {s : Sink} {bytes : List UInt8} {n : Nat}
    (h : s.hasRoom (bytes.length + n) = true) : (s.appended bytes).hasRoom n = true := by
  unfold hasRoom at h ⊢
  rw [size_appended]
  show s.limit.all _ = true
  cases hlimit : s.limit with
  | none => rfl
  | some limit =>
    rw [hlimit, Option.all_some, decide_eq_true_eq] at h
    rw [Option.all_some, decide_eq_true_eq]
    omega

end Sink

namespace Files

variable {f : Files} {ch : Channel} {α : Type}

/-- A file to write. -/
def sink? (f : Files) : Channel → Option Sink
  | .output => some f.output
  | .prr => some f.prr
  | .input | .prd => none

/-- A file to read. -/
def text? (f : Files) : Channel → Option TextInput
  | .input => some f.input
  | .prd => some f.prd
  | .output | .prr => none

/-- Bytes are written to a file with room for them. -/
theorem write_eq {s : Sink} (h : f.sink? ch = some s) {bytes : List UInt8}
    (hroom : s.hasRoom bytes.length = true) : ∃ f', write ch.number bytes f = .ok () f' ∧
      f'.sink? ch = some (s.appended bytes) := by
  have hwrite : Sink.write bytes s = .ok () (s.appended bytes) :=
    if_pos (by rw [hroom, Bool.or_true])
  unfold write writing
  rw [Channel.ofNumber_number, Action.bind_of_ok (Action.lift_ok ch f)]
  cases ch with
  | output => cases h; exact ⟨_, Action.zoom_of_ok hwrite, rfl⟩
  | prr => cases h; exact ⟨_, Action.zoom_of_ok hwrite, rfl⟩
  | input => cases h
  | prd => cases h

/-- What the text of a file yields is read from the file. -/
theorem reading_of_ok {t t' : TextInput} (h : f.text? ch = some t) {act : Action TextInput α} {a : α}
    (hact : act t = .ok a t') :
    ∃ f', reading ch.number act f = .ok a f' ∧ f'.text? ch = some t' := by
  unfold reading
  rw [Channel.ofNumber_number, Action.bind_of_ok (Action.lift_ok ch f)]
  cases ch with
  | input => cases h; exact ⟨_, Action.zoom_of_ok hact, rfl⟩
  | prd => cases h; exact ⟨_, Action.zoom_of_ok hact, rfl⟩
  | output => cases h
  | prr => cases h

/-- What fails on the text of a file fails on the file. -/
theorem reading_of_error {t t' : TextInput} (h : f.text? ch = some t) {act : Action TextInput α}
    {fault : Fault} (hact : act t = .error fault t') : ∃ f', reading ch.number act f = .error fault f' := by
  unfold reading
  rw [Channel.ofNumber_number, Action.bind_of_ok (Action.lift_ok ch f)]
  cases ch with
  | input => cases h; exact ⟨_, Action.zoom_of_error hact⟩
  | prd => cases h; exact ⟨_, Action.zoom_of_error hact⟩
  | output => cases h
  | prr => cases h

end Files

namespace Machine

/-! ### Calls -/

/-- The next instruction of a machine calls a standard procedure, whose operands are on the stack, the first
one on top. -/
structure Calls (m : Machine) (f : Procedure) (operands : List Cell) : Prop where
  next : ∃ p, m.code[m.pc]? = some ⟨.csp, p, Int64.ofNat f.number⟩
  operands : ∀ (depth : Nat) (c : Cell), operands[depth]? = some c →
    (depth : Int) ≤ m.sp ∧ m.store.cells[(m.sp - depth).toNat]? = some c

variable {m m' : Machine} {f : Procedure} {operands : List Cell} {ch : Channel} {c d : Cell}

theorem onFiles_of_ok {α : Type} {act : Action Files α} {a : α} {files : Files}
    (h : act m.files = .ok a files) : onFiles act m = .ok a { m with files } :=
  Action.zoom_of_ok h

theorem onFiles_of_error {α : Type} {act : Action Files α} {fault : Fault} {files : Files}
    (h : act m.files = .error fault files) : onFiles act m = .error fault { m with files } :=
  Action.zoom_of_error h

namespace Calls

/-- The instruction of a standard procedure calls it. -/
theorem perform_eq (p : Nat) (f : Procedure) (m : Machine) :
    perform ⟨.csp, p, Int64.ofNat f.number⟩ m = standard f m := by
  show callStandard (Int64.ofNat f.number) m = _
  rw [callStandard, Procedure.ofNumber?_number, Action.bind_of_ok (Action.orFault_some f _ m)]

/-- A step that calls a procedure succeeds as the procedure does. -/
theorem step_of_ok (h : m.Calls f operands) (hrun : standard f m.fetched = .ok () m') :
    m.step = .ok true m' := by
  obtain ⟨p, hnext⟩ := h.next
  rw [← perform_eq p] at hrun
  exact Machine.step_of_ok hnext hrun

/-- A step that calls a procedure fails as the procedure does. -/
theorem step_of_error {fault : Fault} (h : m.Calls f operands) (hrun : standard f m.fetched = .error fault m') :
    m.step = .error fault m' := by
  obtain ⟨p, hnext⟩ := h.next
  rw [← perform_eq p] at hrun
  exact Machine.step_of_error hnext hrun

/-- An operand is seen at its depth. -/
theorem peek_eq (h : m.Calls f operands) {depth : Nat} (hc : operands[depth]? = some c) :
    peek depth m.fetched = .ok c m.fetched := by
  obtain ⟨hdepth, hcell⟩ := h.operands depth c hc
  have hbelow : below depth m.fetched = .ok (m.sp - depth).toNat m.fetched := below_eq hdepth
  have hread : read (m.sp - depth).toNat m.fetched = .ok c m.fetched := read_eq hcell
  rw [peek, Action.bind_of_ok hbelow, hread]

theorem peekAddress_eq (h : m.Calls f operands) {depth a : Nat} (hc : operands[depth]? = some c)
    (ha : c.asAddress = .ok a) : peekAddress depth m.fetched = .ok a m.fetched := by
  rw [peekAddress, Action.bind_of_ok (h.peek_eq hc), ha, Action.lift_ok]

theorem popAddress_eq (h : m.Calls f operands) {a : Nat} (hc : operands[0]? = some c)
    (ha : c.asAddress = .ok a) : popAddress m.fetched = .ok a m.fetched.popped := by
  have hpop : pop m.fetched = .ok c m.fetched.popped := Action.bind_of_ok (h.peek_eq hc)
  rw [popAddress, Action.bind_of_ok hpop, ha, Action.lift_ok]

/-- An integer is written in its field, and nothing else. -/
theorem step_wri {s : Sink} {width n : Word} (h : m.Calls .wri [c, .int width, .int n])
    (hs : m.files.sink? ch = some s) (hc : c.asAddress = .ok ch.number)
    (hroom : s.hasRoom (Field.integer width.count n).length = true) : ∃ m', m.step = .ok true m' ∧
      m'.files.sink? ch = some (s.appended (Field.integer width.count n)) := by
  obtain ⟨files, hwrite, hfiles⟩ := Files.write_eq hs hroom
  have hwrite : onFiles (Files.write ch.number (Field.integer width.count n)) m.fetched =
      .ok () { m.fetched with files } := onFiles_of_ok hwrite
  refine ⟨{ m.fetched with files, sp := m.sp - (3 : Nat) }, h.step_of_ok ?_, hfiles⟩
  have hwidth : (Cell.int width).asWidth = .ok width.count := rfl
  have hvalue : (do let n ← (Cell.int n).asInt; return Field.integer width.count n : Except Fault _) =
      .ok (Field.integer width.count n) := rfl
  rw [standard, writeValue, Action.bind_of_ok (h.peekAddress_eq rfl hc), Action.bind_of_ok (h.peek_eq rfl),
    hwidth, Action.bind_of_ok (Action.lift_ok _ _), Action.bind_of_ok (h.peek_eq rfl), hvalue,
    Action.bind_of_ok (Action.lift_ok _ _), Action.bind_of_ok hwrite]
  rfl

/-- The end of a line is written, and nothing else. -/
theorem step_wln {s : Sink} (h : m.Calls .wln [c]) (hs : m.files.sink? ch = some s)
    (hc : c.asAddress = .ok ch.number) (hroom : s.hasRoom 1 = true) : ∃ m', m.step = .ok true m' ∧
      m'.files.sink? ch = some (s.appended [newline]) := by
  have hroom : s.hasRoom [newline].length = true := hroom
  obtain ⟨files, hwrite, hfiles⟩ := Files.write_eq hs hroom
  refine ⟨{ m.fetched.popped with files }, h.step_of_ok ?_, hfiles⟩
  rw [standard, writeLine, Action.bind_of_ok (h.popAddress_eq rfl hc)]
  exact onFiles_of_ok hwrite

/-- An integer that is read is stored at its target. -/
theorem step_rdi {t t' : TextInput} {n : Word} {target : Nat} (h : m.Calls .rdi [c, d])
    (ht : m.files.text? ch = some t) (hc : c.asAddress = .ok ch.number) (hd : d.asAddress = .ok target)
    (hin : target < m.store.size) (hread : TextInput.readInteger t = .ok n t') :
    ∃ m', m.step = .ok true m' ∧ m'.store.read target = .ok (.int n) ∧ m'.files.text? ch = some t' := by
  have hvalue : (Cell.int <$> TextInput.readInteger) t = .ok (.int n) t' := by
    rw [map_eq_pure_bind, Action.bind_of_ok hread, Action.pure_apply]
  obtain ⟨files, hreading, hfiles⟩ := Files.reading_of_ok ht hvalue
  have hreading : onFiles (Files.reading ch.number (Cell.int <$> TextInput.readInteger)) m.fetched =
      .ok (.int n) { m.fetched with files } := onFiles_of_ok hreading
  have hwrite := write_eq (m := { m.fetched with files }) hin (.int n)
  refine ⟨{ m.fetched with
    files, sp := m.sp - (2 : Nat)
    store := { m.store with cells := m.store.cells.setIfInBounds target (.int n) } },
    h.step_of_ok ?_, ?_, hfiles⟩
  · rw [standard, readValue, Action.bind_of_ok (h.peekAddress_eq rfl hc),
      Action.bind_of_ok (h.peekAddress_eq rfl hd), Action.bind_of_ok hreading, Action.bind_of_ok hwrite]
    rfl
  · have hcell : (m.store.cells.setIfInBounds target (.int n))[target]? = some (.int n) :=
      Array.getElem?_setIfInBounds_self_of_lt hin
    simp only [Store.read, hcell]

/-- A read that finds no integer fails. -/
theorem step_rdi_error {t t' : TextInput} {fault : Fault} {target : Nat} (h : m.Calls .rdi [c, d])
    (ht : m.files.text? ch = some t) (hc : c.asAddress = .ok ch.number) (hd : d.asAddress = .ok target)
    (hread : TextInput.readInteger t = .error fault t') : ∃ m', m.step = .error fault m' := by
  have hvalue : (Cell.int <$> TextInput.readInteger) t = .error fault t' := by
    rw [map_eq_pure_bind, Action.bind_of_error hread]
  obtain ⟨files, hreading⟩ := Files.reading_of_error ht hvalue
  have hreading : onFiles (Files.reading ch.number (Cell.int <$> TextInput.readInteger)) m.fetched =
      .error fault { m.fetched with files } := onFiles_of_error hreading
  refine ⟨{ m.fetched with files }, h.step_of_error ?_⟩
  rw [standard, readValue, Action.bind_of_ok (h.peekAddress_eq rfl hc),
    Action.bind_of_ok (h.peekAddress_eq rfl hd), Action.bind_of_error hreading]

end Calls

/-! ### Runs of calls -/

/-- An integer to be written, and the width of its field. -/
structure Entry where
  value : Word
  width : Word
  /-- No field is wider. -/
  width_le : width.toInt ≤ 65535

namespace Entry

open Lines (encode)

/-- The field of an entry. -/
def field (e : Entry) : List UInt8 := Field.integer e.width.count e.value

/-- The fields of some entries, each on a line of its own. -/
def lines (entries : List Entry) : List UInt8 := entries.flatMap fun e => e.field ++ [newline]

/-- The characters of these lines. -/
def text (entries : List Entry) : List Char :=
  entries.flatMap fun e => Field.integerText e.width.count e.value ++ ['\n']

/-- A field is as long as its width or as the integer needs. -/
theorem length_field (e : Entry) : (e.field.length : Int) = max e.width.toInt (toString e.value.toInt).length := by
  rw [field, Field.length_integer, Word.count]
  omega

theorem lines_cons (e : Entry) (entries : List Entry) :
    lines (e :: entries) = e.field ++ ([newline] ++ lines entries) := by
  rw [lines, List.flatMap_cons, ← lines, List.append_assoc]

theorem text_cons (e : Entry) (entries : List Entry) :
    text (e :: entries) = Field.integerText e.width.count e.value ++ '\n' :: text entries := by
  rw [text, List.flatMap_cons, ← text, List.append_assoc]
  rfl

/-- The bytes of the lines are those of their characters. -/
theorem lines_eq_encode (entries : List Entry) : lines entries = encode (text entries) := by
  induction entries with
  | nil => rfl
  | cons e entries ih =>
    have hnl : String.utf8EncodeChar '\n' = [newline] := by decide
    rw [lines_cons, text_cons, ih, field, Field.integer_eq_encode, encode, encode, encode,
      List.flatMap_append, List.flatMap_cons, hnl]

/-- No carriage return is written, so none is dropped when the lines are read. -/
theorem view_lines (entries : List Entry) :
    (TextInput.ofSource ⟨lines entries, none⟩).view = encode (text entries) := by
  show FlatText.normalise (lines entries) = _
  rw [lines_eq_encode]
  refine FlatText.normalise_encode fun c hc => ?_
  obtain ⟨e, -, hc⟩ := List.mem_flatMap.1 hc
  rcases List.mem_append.1 hc with hc | hc
  · rcases Field.mem_integerText hc with rfl | rfl | hdigit
    · decide
    · decide
    · refine ⟨Lines.ascii_isDigit c hdigit, ?_⟩
      rintro rfl
      exact absurd hdigit (by decide)
  · rw [List.mem_singleton.1 hc]
    decide

end Entry

/-- A machine that writes some integers to a file, each in its field and on a line of its own. Every call
succeeds and writes a field as wide as it should be, or as long as the integer needs. Between the calls the
machine may do anything but work on the file, which comes to hold what `Q` says. -/
def Writes (ch : Channel) (Q : Sink → Prop) : List Entry → Sink → Prop
  | [], s => Q s
  | e :: entries, s => ∀ (m : Machine) (c : Cell), m.Calls .wri [c, .int e.width, .int e.value] →
      c.asAddress = .ok ch.number → m.files.sink? ch = some s →
      ∃ (m' : Machine) (bytes : List UInt8), m.step = .ok true m' ∧
        m'.files.sink? ch = some (s.appended bytes) ∧
        (bytes.length : Int) = max e.width.toInt (toString e.value.toInt).length ∧
        ∀ (m : Machine) (c : Cell), m.Calls .wln [c] → c.asAddress = .ok ch.number →
          m.files.sink? ch = some (s.appended bytes) →
          ∃ (m' : Machine) (s' : Sink), m.step = .ok true m' ∧ m'.files.sink? ch = some s' ∧
            Writes ch Q entries s'

/-- A machine that reads some integers from a file, and then one more. Every call but the last succeeds and
stores the integer at its target; the last one finds no integer. Between the calls the machine may do
anything but work on the file. -/
def Reads (ch : Channel) : List Word → TextInput → Prop
  | [], t => ∀ (m : Machine) (c d : Cell) (target : Nat), m.Calls .rdi [c, d] →
      c.asAddress = .ok ch.number → d.asAddress = .ok target → m.files.text? ch = some t →
      ∃ m', m.step = .error .integerExpected m'
  | n :: more, t => ∀ (m : Machine) (c d : Cell) (target : Nat), m.Calls .rdi [c, d] →
      c.asAddress = .ok ch.number → d.asAddress = .ok target → m.files.text? ch = some t →
      target < m.store.size →
      ∃ (m' : Machine) (t' : TextInput), m.step = .ok true m' ∧ m'.store.read target = .ok (.int n) ∧
        m'.files.text? ch = some t' ∧ Reads ch more t'

/-- With room for all lines every call succeeds, and the file holds what the lines add to it. -/
theorem writes_of_hasRoom (ch : Channel) (Q : Sink → Prop) (entries : List Entry) : ∀ s : Sink,
    s.hasRoom (Entry.lines entries).length = true → Q (s.appended (Entry.lines entries)) →
    Writes ch Q entries s := by
  -- every round writes a field and the end of its line, and leaves room for the rest
  induction entries with
  | nil =>
    intro s _ hQ
    rwa [Entry.lines, List.flatMap_nil, Sink.appended_nil] at hQ
  | cons e entries ih =>
    intro s hroom hQ m c hcalls hc hs
    rw [Entry.lines_cons, List.length_append] at hroom
    rw [Entry.lines_cons, ← Sink.appended_appended, ← Sink.appended_appended] at hQ
    obtain ⟨m', hstep, hs'⟩ := hcalls.step_wri hs hc (Sink.hasRoom_of_le hroom (Nat.le_add_right ..))
    refine ⟨m', e.field, hstep, hs', e.length_field, fun m c hcalls hc hs => ?_⟩
    have hroom := Sink.hasRoom_appended hroom
    rw [List.length_append] at hroom
    obtain ⟨m', hstep, hs'⟩ := hcalls.step_wln hs hc (Sink.hasRoom_of_le hroom (Nat.le_add_right ..))
    exact ⟨m', _, hstep, hs', ih _ (Sink.hasRoom_appended hroom) hQ⟩

/-- From a file that holds the text of the lines the integers are read, and then no more. -/
theorem reads_of_view (ch : Channel) (entries : List Entry) : ∀ (t : TextInput) (before : List Char),
    t.Steady → (∀ c ∈ before, TextInput.isSpace c = true) →
    t.view = Lines.encode (before ++ Entry.text entries) → Reads ch (entries.map (·.value)) t := by
  -- before each integer stands only the end of the line before
  induction entries with
  | nil =>
    intro t before ht hbefore hview m c d target hcalls hc hd htext
    rw [show Entry.text [] = [] from rfl, List.append_nil] at hview
    obtain ⟨rest, t', -, -, -, ⟨n, hword, -⟩ | ⟨f, hword, hread⟩⟩ := Cursor.word_agree before t ht hview
    · rw [Cursor.word_space hbefore] at hword
      cases hword
    · rw [Cursor.word_space hbefore] at hword
      cases hword
      exact hcalls.step_rdi_error htext hc hd hread
  | cons e entries ih =>
    intro t before ht hbefore hview m c d target hcalls hc hd htext hin
    rw [Entry.text_cons] at hview
    have hline := Cursor.word_integerText hbefore e.width.count e.value (Entry.text entries)
    obtain ⟨rest, t', -, ht', hview', ⟨n, hword, hread⟩ | ⟨f, hword, -⟩⟩ := Cursor.word_agree _ t ht hview
    · rw [hline] at hword
      cases hword
      obtain ⟨m', hstep, hstored, htext'⟩ := hcalls.step_rdi htext hc hd hin hread
      refine ⟨m', t', hstep, hstored, htext', ih t' ['\n'] ht' (fun c hc => ?_) hview'⟩
      rw [List.mem_singleton.1 hc]
      decide
    · rw [hline] at hword
      cases hword

/-- **Integers that are written are read back.** Let a machine write integers to a file for which there is
room, each in a field of any width and on a line of its own. All calls succeed, and each field has as many
bytes as its width says, or as the decimal text has if these are more. The file then holds bytes from which,
in an input file, machines read the same integers in the same order, and after them no further one. -/
theorem integers_read_back (out : Channel) (entries : List Entry) (s : Sink)
    (hroom : s.hasRoom (Entry.lines entries).length = true) :
    Writes out (fun s' => ∃ bytes, s' = s.appended bytes ∧
      ∀ inp, Reads inp (entries.map (·.value)) (.ofSource ⟨bytes, none⟩)) entries s := by
  refine writes_of_hasRoom out _ entries s hroom ⟨Entry.lines entries, rfl, fun inp => ?_⟩
  exact reads_of_view inp entries _ [] (TextInput.steady_ofSource _) (fun c hc => by cases hc)
    (Entry.view_lines entries)

/-- A machine about to call a procedure, with nothing but the operands in its store. -/
def caller (f : Procedure) (operands : List Cell) (files : Files) : Machine where
  pc := 0
  mp := 0
  sp := operands.length - 1
  np := operands.length
  code := #[⟨.csp, 0, Int64.ofNat f.number⟩]
  store := { limits := default, cells := operands.reverse.toArray, used := {} }
  files := files

theorem caller_calls (f : Procedure) (operands : List Cell) (files : Files) :
    (caller f operands files).Calls f operands := by
  refine ⟨⟨0, rfl⟩, fun depth c hc => ?_⟩
  have hlt : depth < operands.length := (List.getElem?_eq_some_iff.1 hc).1
  have hplace : ((operands.length : Int) - 1 - depth).toNat = operands.length - 1 - depth := by omega
  refine ⟨by show (depth : Int) ≤ operands.length - 1; omega, ?_⟩
  show operands.reverse.toArray[((operands.length : Int) - 1 - depth).toNat]? = some c
  rw [hplace, List.getElem?_toArray, List.getElem?_reverse (by omega), ← hc]
  congr 1
  omega

/-- The least integer in a field that is too narrow for it, then one in a field that is wider than needed. -/
def leastThenFortyTwo : List Entry := [⟨-0x8000000000000000, 4, by decide⟩, ⟨42, 6, by decide⟩]

theorem integers_read_back_least :
    Sink.hasRoom {} (Entry.lines leastThenFortyTwo).length = true ∧
    ∃ (w₁ w₂ w₃ w₄ r₁ r₂ r₃ : Machine) (field₁ field₃ bytes : List UInt8),
      (caller .wri [.address 5, .int 4, .int (-0x8000000000000000)] {}).step = .ok true w₁ ∧
      w₁.files.output = Sink.appended {} field₁ ∧ field₁.length = 20 ∧
      (caller .wln [.address 5] w₁.files).step = .ok true w₂ ∧
      (caller .wri [.address 5, .int 6, .int 42] w₂.files).step = .ok true w₃ ∧
      w₃.files.output = w₂.files.output.appended field₃ ∧ field₃.length = 6 ∧
      (caller .wln [.address 5] w₃.files).step = .ok true w₄ ∧
      w₄.files.output = Sink.appended {} bytes ∧
      (caller .rdi [.address 4, .address 0] { input := .ofSource ⟨bytes, none⟩ }).step = .ok true r₁ ∧
      r₁.store.read 0 = .ok (.int (-0x8000000000000000)) ∧
      (caller .rdi [.address 4, .address 1] r₁.files).step = .ok true r₂ ∧
      r₂.store.read 1 = .ok (.int 42) ∧
      (caller .rdi [.address 4, .address 0] r₂.files).step = .error .integerExpected r₃ := by
  have hroom : Sink.hasRoom {} (Entry.lines leastThenFortyTwo).length = true := by decide
  -- the machines that write, one call after the other
  obtain ⟨w₁, field₁, hwri₁, hfield₁, hlength₁, hwrites⟩ := integers_read_back .output _ {} hroom
    (caller .wri _ {}) _ (caller_calls ..) (show (Cell.address 5).asAddress = _ from rfl) rfl
  obtain ⟨w₂, s₂, hwln₂, hs₂, hwrites⟩ := hwrites (caller .wln _ w₁.files) _ (caller_calls ..)
    (show (Cell.address 5).asAddress = _ from rfl) hfield₁
  obtain ⟨w₃, field₃, hwri₃, hfield₃, hlength₃, hwrites⟩ := hwrites (caller .wri _ w₂.files) _
    (caller_calls ..) (show (Cell.address 5).asAddress = _ from rfl) hs₂
  obtain ⟨w₄, s₄, hwln₄, hs₄, bytes, rfl, hreads⟩ := hwrites (caller .wln _ w₃.files) _ (caller_calls ..)
    (show (Cell.address 5).asAddress = _ from rfl) hfield₃
  -- the machines that read
  obtain ⟨r₁, t₁, hrdi₁, hstored₁, ht₁, hreads⟩ := hreads .input
    (caller .rdi _ { input := .ofSource ⟨bytes, none⟩ }) _ _ 0 (caller_calls ..)
    (show (Cell.address 4).asAddress = _ from rfl) (show (Cell.address 0).asAddress = _ from rfl) rfl
    (show 0 < 2 by decide)
  obtain ⟨r₂, t₂, hrdi₂, hstored₂, ht₂, hend⟩ := hreads (caller .rdi _ r₁.files) _ _ 1 (caller_calls ..)
    (show (Cell.address 4).asAddress = _ from rfl) (show (Cell.address 1).asAddress = _ from rfl) ht₁
    (show 1 < 2 by decide)
  obtain ⟨r₃, hlast⟩ := hend (caller .rdi _ r₂.files) _ _ 0 (caller_calls ..)
    (show (Cell.address 4).asAddress = _ from rfl) (show (Cell.address 0).asAddress = _ from rfl) ht₂
  -- 20 characters for the least integer, and 6 where two would do
  have hneeded₁ : max (4 : Word).toInt (toString (-0x8000000000000000 : Word).toInt).length = 20 := by decide
  have hneeded₃ : max (6 : Word).toInt (toString (42 : Word).toInt).length = 6 := by decide
  obtain rfl : w₂.files.output = s₂ := Option.some.inj hs₂
  exact ⟨hroom, w₁, w₂, w₃, w₄, r₁, r₂, r₃, field₁, field₃, bytes, hwri₁, Option.some.inj hfield₁,
    Int.ofNat.inj (hlength₁.trans hneeded₁), hwln₂, hwri₃, Option.some.inj hfield₃,
    Int.ofNat.inj (hlength₃.trans hneeded₃), hwln₄, Option.some.inj hs₄, hrdi₁, hstored₁, hrdi₂, hstored₂,
    hlast⟩


end Machine

end PMachine
