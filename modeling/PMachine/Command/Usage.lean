import PMachine.Cursor
import PMachine.Limits

/-!
# The command line

A command names one program file and may set options, before or after it. An option with two dashes
may have its value behind an equals sign, one with a single dash right behind its letter; otherwise
the value is the next argument. After a bare `--` every argument is a file.

* `Usage.items`: what the arguments say, one by one.
* `Usage.request`: what they ask for together. The first mistake refuses the whole command, and a
  question for the version is answered as soon as it is reached.
-/

namespace PMachine

/-- The options that take no value. -/
inductive Switch where
  /-- Print the code and do not run it. -/
  | list
  /-- Log what the loader does. -/
  | debug
  /-- Log every instruction, and what the loader does. -/
  | trace
deriving DecidableEq, Repr

/-- The options that take a value. -/
inductive Setting where
  /-- The file that is written as `prr`. -/
  | output
  /-- The highest address of the stack. -/
  | stackSize
  /-- The number of instructions for which there is room. -/
  | codeSize
deriving DecidableEq, Repr

/-- The name of an option on the command line. -/
def Switch.name : Switch → String
  | list => "--list"
  | debug => "--debug"
  | trace => "--trace"

/-- The name of an option on the command line. -/
def Setting.name : Setting → String
  | output => "--output"
  | stackSize => "--stack-size"
  | codeSize => "--code-size"

/-- The mistakes for which a command line is refused. -/
inductive Usage.Mistake where
  /-- There is no such option. -/
  | unknown (option : String)
  /-- There is more than one program file. -/
  | extra (path : String)
  /-- An option stands twice. -/
  | repeated (option : String)
  /-- An option has a value and takes none. -/
  | valueUnwanted (option : String)
  /-- An option has no value and needs one. -/
  | valueMissing (option : String)
  /-- The value of an option is no number that fits. -/
  | badNumber (option value : String)
  /-- A file has an empty name. -/
  | emptyPath
  /-- There is no program file. -/
  | programMissing
deriving DecidableEq, Repr

/-- What a mistake is, in words. -/
def Usage.Mistake.text : Usage.Mistake → String
  | unknown option => s!"unexpected argument: {option}"
  | extra path => s!"unexpected argument: {path}"
  | repeated option => s!"{option} cannot be used multiple times"
  | valueUnwanted option => s!"{option} takes no value"
  | valueMissing option => s!"{option} needs a value"
  | badNumber option value => s!"{value} is no value for {option}"
  | emptyPath => "a file name is empty"
  | programMissing => "the program file is missing"

/-- A program to load, and how. -/
structure Options where
  /-- The path of the program file. -/
  program : String
  /-- The switches that are on. -/
  switches : List Switch := []
  /-- The path of the file that is written as `prr`, if it is given. -/
  output : Option String := none
  stackSize : Option Nat := none
  codeSize : Option Nat := none
deriving DecidableEq, Repr

/-- What a command line asks for. -/
inductive Request where
  | version
  | help
  | load (o : Options)
deriving DecidableEq, Repr

/-- What one argument says. -/
inductive Usage.Item where
  | file (path : String)
  | switch (s : Switch)
  | setting (s : Setting) (value : String)
  | version
  | help
  | wrong (m : Usage.Mistake)
deriving DecidableEq, Repr

namespace Options

/-- Whether a switch is on. -/
def has (o : Options) (s : Switch) : Bool := o.switches.contains s

/-- The limits of the machine; the usual ones where none are given. -/
def limits (o : Options) : Limits :=
  let usual : Limits := {}
  { usual with
    stackSize := o.stackSize.getD usual.stackSize
    codeSize := o.codeSize.getD usual.codeSize }

/-- A path without the extension of its last name. A dot at the start of a name begins no
extension. -/
def withoutExtension (path : List Char) : List Char :=
  let back := path.reverse
  let extension := back.takeWhile fun c => c ≠ '.' && c ≠ '/'
  match back.drop extension.length with
  | '.' :: c :: stem => if c = '/' then path else (c :: stem).reverse
  | _ => path

/-- The path of the file that is written as `prr`: by default the program file with the extension
`out`. -/
def outputPath (o : Options) : String :=
  o.output.getD (String.ofList (withoutExtension o.program.toList) ++ ".out")

end Options

namespace Usage

/-! ### Arguments -/

/-- The meaning of the name of an option: a whole item, or a setting that waits for its value. -/
abbrev Meaning := Item ⊕ Setting

/-- The option with a long name. -/
def long? : String → Option Meaning
  | "list" => some (.inl (.switch .list))
  | "debug" => some (.inl (.switch .debug))
  | "trace" => some (.inl (.switch .trace))
  | "version" => some (.inl .version)
  | "help" => some (.inl .help)
  | "output" => some (.inr .output)
  | "stack-size" => some (.inr .stackSize)
  | "code-size" => some (.inr .codeSize)
  | _ => none

/-- The option with a name of one letter. -/
def short? : Char → Option Meaning
  | 'V' => some (.inl .version)
  | 'h' => some (.inl .help)
  | 'o' => some (.inr .output)
  | _ => none

/-- The items of an argument, and the setting whose value is the next argument, if there is one. -/
structure Reading where
  items : List Item
  pending : Option Setting := none
deriving DecidableEq, Repr

/-- An argument with two dashes, read from behind them. -/
def readLong (text : List Char) : Reading :=
  let name := String.ofList (text.takeWhile (· ≠ '='))
  match long? name, text.dropWhile (· ≠ '=') with
  | none, _ => ⟨[.wrong (.unknown ("--" ++ name))], none⟩
  | some (.inl item), [] => ⟨[item], none⟩
  | some (.inl _), _ :: _ => ⟨[.wrong (.valueUnwanted ("--" ++ name))], none⟩
  | some (.inr s), [] => ⟨[], some s⟩
  | some (.inr s), _ :: value => ⟨[.setting s (String.ofList value)], none⟩

/-- An argument with a single dash, read from behind it: letters, up to one that takes a value. -/
def readShort : List Char → Reading
  | [] => ⟨[], none⟩
  | c :: rest =>
    match short? c, rest with
    | none, _ => ⟨[.wrong (.unknown (String.ofList ['-', c]))], none⟩
    | some (.inl item), _ =>
      let r := readShort rest
      ⟨item :: r.items, r.pending⟩
    | some (.inr s), [] => ⟨[], some s⟩
    | some (.inr s), '=' :: value => ⟨[.setting s (String.ofList value)], none⟩
    | some (.inr s), value => ⟨[.setting s (String.ofList value)], none⟩

/-- One argument. A single dash alone is a file. -/
def read (arg : String) : Reading :=
  match arg.toList with
  | '-' :: '-' :: text => readLong text
  | '-' :: c :: text => readShort (c :: text)
  | _ => ⟨[.file arg], none⟩

/-- Whether an argument can be the value of the option before it. -/
def isValue (arg : String) : Bool := arg = "-" || arg.toList.head? ≠ some '-'

/-- What the arguments say, in order. -/
def items : List String → List Item
  | [] => []
  | arg :: rest =>
    if arg = "--" then rest.map .file
    else
      let r := read arg
      match r.pending with
      | none => r.items ++ items rest
      | some s =>
        match rest with
        | [] => r.items ++ [.wrong (.valueMissing s.name)]
        | value :: more =>
          if isValue value then r.items ++ .setting s value :: items more
          else r.items ++ [.wrong (.valueMissing s.name)]

/-! ### Values -/

/-- A number that a size can have: digits with an optional plus in front, below 2 to the 64. -/
def number? (text : String) : Option Nat :=
  let digits := match text.toList with
    | '+' :: rest => rest
    | cs => cs
  if digits.isEmpty || !digits.all Char.isDigit then none
  else if Cursor.value digits < 0x10000000000000000 then some (Cursor.value digits) else none

/-- The value of a setting that counts something. -/
def size (s : Setting) (value : String) : Except Mistake Nat :=
  match number? value with
  | some n => .ok n
  | none => .error (.badNumber s.name value)

/-- The path of a file. -/
def path (text : String) : Except Mistake String :=
  if text.isEmpty then .error .emptyPath else .ok text

/-! ### Requests -/

/-- What the arguments have set so far. -/
structure Draft where
  program : Option String := none
  switches : List Switch := []
  output : Option String := none
  stackSize : Option Nat := none
  codeSize : Option Nat := none
deriving DecidableEq, Repr

namespace Draft

/-- Names the program file. -/
def setProgram (d : Draft) (text : String) : Except Mistake Draft := do
  if d.program.isSome then throw (.extra text)
  let p ← path text
  return { d with program := some p }

/-- Turns a switch on. -/
def turnOn (d : Draft) (s : Switch) : Except Mistake Draft :=
  if d.switches.contains s then .error (.repeated s.name)
  else .ok { d with switches := s :: d.switches }

/-- Whether a setting has its value already. -/
def isSet (d : Draft) : Setting → Bool
  | .output => d.output.isSome
  | .stackSize => d.stackSize.isSome
  | .codeSize => d.codeSize.isSome

/-- Gives a setting its value. -/
def set (d : Draft) (s : Setting) (value : String) : Except Mistake Draft := do
  if d.isSet s then throw (.repeated s.name)
  match s with
  | .output =>
    let p ← path value
    return { d with output := some p }
  | .stackSize =>
    let n ← size s value
    return { d with stackSize := some n }
  | .codeSize =>
    let n ← size s value
    return { d with codeSize := some n }

/-- The options, once all arguments are read. -/
def finish (d : Draft) : Except Mistake Options :=
  match d.program with
  | some program => .ok { program, switches := d.switches, output := d.output,
                          stackSize := d.stackSize, codeSize := d.codeSize }
  | none => .error .programMissing

end Draft

/-- What the items ask for, after those that made the draft. -/
def collect : List Item → Draft → Except Mistake Request
  | [], d => d.finish.map .load
  | .version :: _, _ => .ok .version
  | .help :: _, _ => .ok .help
  | .wrong m :: _, _ => .error m
  | .file text :: rest, d => do
    let d ← d.setProgram text
    collect rest d
  | .switch s :: rest, d => do
    let d ← d.turnOn s
    collect rest d
  | .setting s value :: rest, d => do
    let d ← d.set s value
    collect rest d

/-- What a command line asks for. -/
def request (args : List String) : Except Mistake Request := collect (items args) {}

end Usage

end PMachine
