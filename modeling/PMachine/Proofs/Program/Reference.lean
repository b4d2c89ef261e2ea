import PMachine.Program.Assembly
import PMachine.Proofs.Program.Text
import PMachine.Proofs.Statement

/-!
# A program text looked at twice

The reference for loading. The first look numbers the lines: each gets the code address of the next
instruction of its part, and each label the value of its first declaration. The second look
translates every line on its own, with the value of the label in place of the label and the address
of the constant in place of the constant. No look needs the code of another line.

* `Program.layout`: the lines of both parts with their numbers and addresses.
* `Entry.labelValue?`: the value of a label.
* `Program.referenceAt?`: the instruction at a code address.
* `Program.Loadable`: the texts without a fault.
* `Program.fault?`: what is wrong with a text, if anything.
-/

namespace PMachine

open Constant

/-- What a line of a program says. -/
inductive Line where
  | comment
  | declaration (label : Nat) (value : Option Nat)
  | instruction (s : Statement)
deriving DecidableEq, Repr

namespace Line

/-- Reads a line; its first character tells what it is. -/
def read : LineText → Except Fault Line
  | 'I' :: _ => .ok comment
  | 'L' :: text => match Assembly.labelLine.outcome text with
    | .ok (label, value) => .ok (declaration label value)
    | .error f => .error f
  | ' ' :: text => match Statement.parse text with
    | .ok s => .ok (instruction s)
    | .error f => .error f
  | _ => .error .badLineMarker

/-- Whether a line is that of an instruction. -/
def isInstruction : Line → Bool
  | instruction _ => true
  | _ => false

/-- The label that a line declares or refers to. -/
def label? : Line → Option Nat
  | comment => none
  | declaration n _ => some n
  | instruction s => s.reference?

/-- The constant that a line needs a place for. -/
def constant? : Line → Option Constant
  | instruction s => s.constant?
  | _ => none

/-- What is wrong with a line: its label is out of range, or there is no place for its constant after
those of the lines before it. -/
def fault? (l : Limits) (before : List Constant) (line : Line) : Option Fault :=
  if ∃ n ∈ line.label?, l.maxLabel < n then some .labelOutOfRange
  else line.constant?.bind fun c => if Fits l before c then none else some (.tableFull c.pool.name)

/-- A line that can be read starts with a blank if it says an instruction. -/
theorem head?_of_read {text : LineText} {line : Line} (h : read text = .ok line) :
    text.head? = some ' ' ↔ line.isInstruction = true := by
  unfold read at h
  split at h
  · cases h; simp [isInstruction]
  · split at h
    · cases h; simp [isInstruction]
    · cases h
  · split at h
    · cases h; simp [isInstruction]
    · cases h
  · cases h

/-- A declaration is refused for a label that does not exist. -/
theorem fault?_declaration (l : Limits) (before : List Constant) (n : Nat) (value : Option Nat) :
    (declaration n value).fault? l before = if l.maxLabel < n then some .labelOutOfRange else none := by
  simp [fault?, label?, constant?]

end Line

/-- A line of a program text with its place. -/
structure Entry where
  /-- The number of the line, counted from 1. -/
  line : Nat
  /-- The code address of the next instruction. -/
  address : Nat
  text : LineText
deriving DecidableEq, Repr

namespace Entry

/-- Numbers lines from a line number and a code address on; instructions take an address each. -/
def number (line address : Nat) : List LineText → List Entry
  | [] => []
  | text :: more =>
    ⟨line, address, text⟩ ::
      number (line + 1) (if text.head? = some ' ' then address + 1 else address) more

/-- Whether a line is that of an instruction, well formed or not. -/
def isInstruction (e : Entry) : Bool := e.text.head? = some ' '

/-- What the line says, if it is well formed. -/
def content? (e : Entry) : Option Line := (Line.read e.text).toOption

/-- The statement on the line. -/
def statement? (e : Entry) : Option Statement :=
  match e.content? with
  | some (.instruction s) => some s
  | _ => none

/-- The value that the line gives to a label, if it declares it. -/
def declared? (label : Nat) (e : Entry) : Option Nat :=
  match e.content? with
  | some (.declaration n value) => if n = label then some (value.getD e.address) else none
  | _ => none

/-- Whether the line refers to a label. -/
def refersTo (label : Nat) (e : Entry) : Bool := e.statement?.bind (·.reference?) = some label

/-- The value of a label: that of its first declaration. -/
def labelValue? (es : List Entry) (label : Nat) : Option Nat := es.findSome? (declared? label)

/-- The code addresses at which a label is referred to, in the order of the text. -/
def references (es : List Entry) (label : Nat) : List Nat :=
  (es.filter (refersTo label)).map (·.address)

/-- The constants that the lines need a place for, in the order of the text. -/
def constants (es : List Entry) : List Constant :=
  es.filterMap fun e => e.content?.bind (·.constant?)

/-- The code addresses of the instructions. -/
def addresses (es : List Entry) : List Nat := (es.filter isInstruction).map (·.address)

/-- What is wrong with a line that comes after others. -/
def fault? (l : Limits) (before : List Entry) (e : Entry) : Option Fault :=
  if e.isInstruction ∧ l.codeSize ≤ e.address then some (.tableFull "CODE")
  else match Line.read e.text with
    | .ok line => line.fault? l (constants before)
    | .error f => some f

/-- The fault of the first line that has one. -/
def firstFault? (l : Limits) : (before : List Entry) → List Entry → Option Fault
  | _, [] => none
  | before, e :: es => match e.fault? l before with
    | some f => some (f.inLine e.line)
    | none => firstFault? l (before ++ [e]) es

/-- The least label that is referred to and not declared. -/
def undefined? (l : Limits) (es : List Entry) : Option Nat :=
  (List.range (l.maxLabel + 1)).find? fun n => labelValue? es n = none ∧ references es n ≠ []

/-- The operand for a label: its value. -/
def labelOperand (es : List Entry) (label : Nat) : Word := Address.toWord ((labelValue? es label).getD 0)

/-- Translates lines one by one, after lines with the constants `before`, into instructions and their
addresses. -/
def translate (l : Limits) (label : Nat → Word) (before : List Constant) :
    List Entry → List (Nat × Instruction)
  | [] => []
  | e :: es =>
    let more := translate l label (before ++ constants [e]) es
    match e.statement? with
    | some s => (e.address, s.instruction l label before) :: more
    | none => more

/-- A line is well formed: it can be read, and its label is one of those that there are. -/
def WellFormed (l : Limits) (e : Entry) : Prop :=
  ∃ line, Line.read e.text = .ok line ∧ ∀ n ∈ line.label?, n ≤ l.maxLabel

/-! ### One more line -/

variable {es : List Entry} {e : Entry} {n : Nat}

theorem content?_of_read {line : Line} (h : Line.read e.text = .ok line) : e.content? = some line := by
  rw [content?, h]
  rfl

theorem isInstruction_eq {line : Line} (h : e.content? = some line) :
    e.isInstruction = line.isInstruction := by
  unfold content? at h
  cases hread : Line.read e.text with
  | error f => rw [hread] at h; cases h
  | ok x =>
    rw [hread] at h
    cases h
    rw [Bool.eq_iff_iff, isInstruction, decide_eq_true_eq, Line.head?_of_read hread]

theorem isInstruction_of_statement? {s : Statement} (h : e.statement? = some s) :
    e.isInstruction = true := by
  unfold statement? at h
  split at h
  · rename_i hc; rw [isInstruction_eq hc]; rfl
  · cases h

theorem isInstruction_of_refersTo (h : e.refersTo n = true) : e.isInstruction = true := by
  unfold refersTo at h
  simp only [decide_eq_true_eq, Option.bind_eq_some_iff] at h
  obtain ⟨s, hs, -⟩ := h
  exact isInstruction_of_statement? hs

/-- The first line to declare a label gives its value. -/
theorem labelValue?_append (es : List Entry) (e : Entry) (n : Nat) :
    labelValue? (es ++ [e]) n = (labelValue? es n).or (e.declared? n) := by
  unfold labelValue?
  rw [List.findSome?_append]
  simp

/-- An instruction gives no label a value. -/
theorem labelValue?_append_instruction (es : List Entry) {s : Statement}
    (h : e.content? = some (.instruction s)) (n : Nat) :
    labelValue? (es ++ [e]) n = labelValue? es n := by
  rw [labelValue?_append, declared?, h]
  exact Option.or_none

/-- One more line is one more reference if it refers to the label. -/
theorem references_append (es : List Entry) (e : Entry) (n : Nat) :
    references (es ++ [e]) n = references es n ++ if e.refersTo n then [e.address] else [] := by
  unfold references
  rw [List.filter_append, List.map_append, List.filter_singleton]
  cases e.refersTo n <;> rfl

/-- One more line takes one more address if it is an instruction. -/
theorem addresses_append (es : List Entry) (e : Entry) :
    addresses (es ++ [e]) = addresses es ++ if e.isInstruction then [e.address] else [] := by
  unfold addresses
  rw [List.filter_append, List.map_append, List.filter_singleton]
  cases e.isInstruction <;> rfl

/-- One more line adds its constant, if it has one. -/
theorem constants_append (es : List Entry) (e : Entry) :
    constants (es ++ [e]) = constants es ++ (e.content?.bind (·.constant?)).toList := by
  unfold constants
  rw [List.filterMap_append]
  cases h : e.content?.bind (·.constant?) <;> simp [h]

theorem mem_addresses_of_statement? (he : e ∈ es) {s : Statement} (h : e.statement? = some s) :
    e.address ∈ addresses es :=
  List.mem_map_of_mem (List.mem_filter.2 ⟨he, isInstruction_of_statement? h⟩)

theorem mem_addresses_of_mem_references {a : Nat} (h : a ∈ references es n) : a ∈ addresses es := by
  obtain ⟨x, hx, rfl⟩ := List.mem_map.1 h
  obtain ⟨hmem, href⟩ := List.mem_filter.1 hx
  exact List.mem_map_of_mem (List.mem_filter.2 ⟨hmem, isInstruction_of_refersTo href⟩)

/-- With all addresses different, a line at the address of a reference is that reference. -/
theorem refersTo_of_mem_references (hd : (addresses es).Nodup) (he : e ∈ es)
    (hi : e.isInstruction = true) (h : e.address ∈ references es n) : e.refersTo n = true := by
  obtain ⟨x, hx, hxa⟩ := List.mem_map.1 h
  obtain ⟨hmem, href⟩ := List.mem_filter.1 hx
  have hxe : x = e := List.inj_on_of_nodup_map hd
    (List.mem_filter.2 ⟨hmem, isInstruction_of_refersTo href⟩) (List.mem_filter.2 ⟨he, hi⟩) hxa
  rw [← hxe]
  exact href

/-- A label is referred to at different addresses. -/
theorem references_nodup (hd : (addresses es).Nodup) (n : Nat) : (references es n).Nodup := by
  refine hd.sublist (List.Sublist.map _ ?_)
  have hsub : es.filter (refersTo n) = (es.filter isInstruction).filter (refersTo n) := by
    rw [List.filter_filter]
    refine List.filter_congr fun x _ => ?_
    cases hx : x.refersTo n with
    | false => rfl
    | true => simp [isInstruction_of_refersTo hx]
  rw [hsub]
  exact List.filter_sublist

/-- A line in a text with one more line is that line or one of the others. -/
theorem split_append {before after : List Entry} {x : Entry}
    (h : es ++ [e] = before ++ x :: after) :
    (after = [] ∧ x = e ∧ before = es) ∨ ∃ rest, after = rest ++ [e] ∧ es = before ++ x :: rest := by
  rcases List.eq_nil_or_concat after with rfl | ⟨rest, y, rfl⟩
  · obtain ⟨h1, h2⟩ := List.append_inj' h rfl
    exact Or.inl ⟨rfl, (List.singleton_inj.1 h2).symm, h1.symm⟩
  · rw [List.concat_eq_append, ← List.cons_append, ← List.append_assoc] at h
    obtain ⟨h1, h2⟩ := List.append_inj' h rfl
    exact Or.inr ⟨rest, by rw [List.concat_eq_append, List.singleton_inj.1 h2], h1⟩

end Entry

namespace Program

/-- The text of a line, without the end of line. -/
def lineText (line : List UInt8) : LineText := Lines.strip ((Lines.decode? line).getD [])

/-- The texts of the lines before the first blank one. -/
def partTexts (lines : List (List UInt8)) : List LineText :=
  (lines.map lineText).takeWhile fun text => !Lines.isBlank text

/-- The lines of the main part: those before the first blank one. -/
def mainTexts (bytes : List UInt8) : List LineText := partTexts (Lines.split bytes)

/-- The lines of the startup part: those between the first blank one and the second. -/
def startupTexts (bytes : List UInt8) : List LineText :=
  partTexts ((Lines.split bytes).drop ((mainTexts bytes).length + 1))

/-- What follows the second blank line. -/
def unread (bytes : List UInt8) : List UInt8 :=
  (((Lines.split bytes).drop ((mainTexts bytes).length + 1)).drop
    ((startupTexts bytes).length + 1)).flatten

/-- The lines of the main part with their places; its code starts at address 3. -/
def mainLayout (bytes : List UInt8) : List Entry := Entry.number 1 mainStart (mainTexts bytes)

/-- The lines of the startup part with their places; its code starts at address 0. -/
def startupLayout (bytes : List UInt8) : List Entry :=
  Entry.number ((mainTexts bytes).length + 2) 0 (startupTexts bytes)

/-- All lines with their places. -/
def layout (bytes : List UInt8) : List Entry := mainLayout bytes ++ startupLayout bytes

/-- The instructions of a text and their addresses. -/
def reference (l : Limits) (bytes : List UInt8) : List (Nat × Instruction) :=
  Entry.translate l (Entry.labelOperand (layout bytes)) [] (layout bytes)

/-- The instruction at a code address; those of the startup code that the text leaves open load the
cell at level 0 and offset 0. -/
def referenceAt? (l : Limits) (bytes : List UInt8) (a : Nat) : Option Instruction :=
  ((reference l bytes).lookup a).or (if a < mainStart then some ⟨.lod, 0, 0⟩ else none)

/-- A text can be loaded: every line is well formed, the constants have places in the pools and the
instructions in the code, and every label that is referred to is declared. -/
structure Loadable (l : Limits) (bytes : List UInt8) : Prop where
  lines : ∀ e ∈ layout bytes, e.WellFormed l
  pools : ∀ p, (tableCells p (Entry.constants (layout bytes))).length ≤ l.pools.get p
  code : ∀ a ∈ Entry.addresses (layout bytes), a < l.codeSize
  labels : ∀ e ∈ layout bytes, ∀ n, e.refersTo n = true →
    (Entry.labelValue? (layout bytes) n).isSome = true

/-- What is wrong with a text: a line of it, or else a label that is nowhere declared. -/
def fault? (l : Limits) (bytes : List UInt8) : Option Fault :=
  (Entry.firstFault? l [] (layout bytes)).or ((Entry.undefined? l (layout bytes)).map .undefinedLabel)

end Program

end PMachine
