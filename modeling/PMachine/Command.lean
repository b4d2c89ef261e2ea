import PMachine.Command.Log
import PMachine.Command.Traffic
import PMachine.Command.Usage

/-!
# The command

Loads a program from a file and lists it or runs it. The program reads the standard input as
`input` and what follows its code in the file as `prd`; it writes the standard output as `output`
and a second file as `prr`.

* `Command.load`, `Command.advance`: the two halves of the work, apart from files.
* `Command.perform`: a whole command on a tree of files, with everything that it leaves behind.
-/

namespace PMachine.Command

/-! ### Loading and running -/

/-- The line that tells the version. -/
def version : String := "pcode 0.1.0\n"

/-- The text that explains the command line. -/
def help : String :=
  "Load and run a P-code program\n\n" ++
  "Usage: pcode [OPTIONS] <FILE>\n\n" ++
  "Options:\n" ++
  "  -o, --output <FILE>       File written as prr (default: FILE with extension out)\n" ++
  "      --list                Print the assembled code and do not run it\n" ++
  "      --debug               Log what the loader does\n" ++
  "      --trace               Log every executed instruction\n" ++
  "      --stack-size <CELLS>  Highest stack address\n" ++
  "      --code-size <COUNT>   Maximum number of instructions\n" ++
  "  -h, --help                Print this text\n" ++
  "  -V, --version             Print the version\n"

/-- The least important level of the log that is shown. -/
def level (o : Options) : Log.Level :=
  if o.has .trace then .trace else if o.has .debug then .debug else .info

/-- Loads the program: what there is to log, and the program with what was left unread. -/
def load (o : Options) (text : Source) : List Log.Entry × Except Fault (Program × List UInt8) :=
  match Assembly.run text (Assembly.new o.limits) with
  | .ok (p, rest) s =>
    (s.notices.toList.map .ofNotice ++ [.loaded o.program p], .ok (p, rest))
  | .error f s => (s.notices.toList.map .ofNotice, .error f)

/-- The files of a program before its run. -/
def files (input prd : List UInt8) : Files where
  input := .ofSource ⟨input, none⟩
  prd := .ofSource ⟨prd, none⟩

/-- Executes at most `n` instructions and adds each of them to the log. -/
def traced : (n : Nat) → Machine → Array Log.Entry → Array Log.Entry × Machine
  | 0, m, log => (log, m)
  | n + 1, m, log =>
    if m.isStopped then (log, m)
    else
      let log := log ++ (Log.Entry.next? m).toList
      traced n (m.execute 1) log

/-- Executes at most `n` instructions; the instructions are logged if asked for. -/
def advance (o : Options) (n : Nat) (m : Machine) : Array Log.Entry × Machine :=
  if o.has .trace then traced n m #[] else (#[], m.execute n)

/-- The number of instructions that are executed before the program is looked at again. -/
def roundLength : Nat := 5000

/-! ### A whole command -/

/-- The program file, open. -/
structure ProgramFile where
  place : FileTree.Place
  node : FileTree.Node
deriving DecidableEq, Repr

/-- The text of the program file: the standard input if it is that one. A folder can be opened too;
it fails when it is read. -/
def ProgramFile.source (input : List UInt8) (f : ProgramFile) : Source :=
  match f.node with
  | .file bytes => ⟨bytes, none⟩
  | .folder => ⟨[], some FileTree.Refusal.isFolder.text⟩
  | .device .input => ⟨input, none⟩
  | .device _ => ⟨[], none⟩

/-- What a command has left behind. -/
structure Outcome where
  /-- The files. -/
  tree : FileTree
  /-- The standard output. -/
  output : Array UInt8 := #[]
  /-- The standard error, without the last words of the command. -/
  messages : Array UInt8 := #[]
deriving DecidableEq, Repr

/-- How a command ended. -/
inductive Ending where
  | done
  | failed (f : Fault)
  | refused (m : Usage.Mistake)
  /-- The program was still running when it had used up its rounds. -/
  | running
deriving DecidableEq, Repr

namespace Ending

/-- The exit status of a command that has ended. -/
def status? : Ending → Option Nat
  | done => some 0
  | failed _ => some 1
  | refused _ => some 2
  | running => none

/-- The last words of a command: a fault in bold type, a mistake with an introduction. -/
def text : Ending → String
  | done => ""
  | failed f => "\x1b[1m" ++ f.text ++ "\x1b[0m\n"
  | refused m => "error: " ++ m.text ++ "\n"
  | running => ""

/-- How a run ended. -/
def ofStatus : Status → Ending
  | .running => .running
  | .stopped => .done
  | .failed f => .failed f

end Ending

namespace Outcome

/-! ### Files and streams -/

/-- The standard error of a command that has ended. -/
def stderr (w : Outcome) (e : Ending) : Array UInt8 := w.messages ++ e.text.toUTF8.data

/-- Adds to the standard output. -/
def print (text : String) (w : Outcome) : Outcome :=
  { w with output := w.output ++ text.toUTF8.data }

/-- Adds the events that are shown to the standard error. -/
def report (o : Options) (entries : List Log.Entry) (w : Outcome) : Outcome :=
  { w with messages := w.messages ++ (Log.text (level o) entries).toUTF8.data }

/-- Adds what has gone out to the standard streams, `output` first. -/
def deliver (t new : Traffic) (f : Files) (w : Outcome) : Outcome :=
  let w := { w with output := w.output ++ Traffic.passed t.output new.output f.output }
  let bytes := Traffic.passed t.prr new.prr f.prr
  match t.device with
  | some .output => { w with output := w.output ++ bytes }
  | some .messages => { w with messages := w.messages ++ bytes }
  | _ => w

/-- Opens the program file. -/
def openProgram (o : Options) : Action Outcome ProgramFile := do
  let w ← get
  match w.tree.find o.program with
  | .ok (place, node) => return ⟨place, node⟩
  | .error r => throw (.cannotOpen o.program r.text)

/-- Creates the file that is written as `prr`. -/
def createOutput (o : Options) : Action Outcome FileTree.Place := do
  let w ← get
  match w.tree.create o.outputPath with
  | .ok (place, tree) =>
    set { w with tree }
    return place
  | .error r => throw (.cannotOpen o.outputPath r.text)

/-! ### The work -/

/-- Loads the program. -/
def loadProgram (o : Options) (text : Source) : Action Outcome (Program × List UInt8) := do
  let (log, loaded) := load o text
  modify (report o log)
  Action.lift loaded

/-- What a program can reach when `rest` is left of the text of its file and `prr` is the file at a
place. If `prr` is the program file itself, only what was read of it before is left of it; if the
program file is the standard input, `input` is what was not read of it. -/
def connect (w : Outcome) (program : ProgramFile) (input rest : List UInt8) (prr : FileTree.Place) :
    Traffic × Files :=
  let size := (program.source input).bytes.length
  let fetched := Buffer.fetched size (size - rest.length)
  let kept := Buffer.kept size rest
  match program.node, w.tree.node? prr with
  | .device .input, some (.device d) => ({ device := d }, files (input.drop fetched) kept)
  | .device .input, _ => ({}, files (input.drop fetched) kept)
  | _, some (.device d) => ({ device := d }, files input rest)
  | _, _ =>
    if prr = program.place then ({ resume := fetched }, files input kept)
    else ({}, files input rest)

/-- Executes rounds while the machine is running, at most the given number of them, and hands on
what it writes. -/
def run (o : Options) : (rounds : Nat) → Traffic → Machine → Outcome → Machine × Outcome
  | 0, _, m, w => (m, w)
  | rounds + 1, t, m, w =>
    if m.isStopped then (m, w)
    else
      let (log, m) := advance o (if t.isWatched then 1 else roundLength) (t.prepare m)
      let new := t.account m
      run o rounds new (t.feed new m) ((w.report o log.toList).deliver t new m.files)

/-- Loads a program and lists it or runs it. -/
def launch (rounds : Nat) (o : Options) (input : List UInt8) : Action Outcome Ending := do
  let program ← openProgram o
  let (p, rest) ← loadProgram o (program.source input)
  if o.has .list then
    modify (print p.listing)
    return .done
  else
    let place ← createOutput o
    let w ← get
    let (t, f) := w.connect program input rest place
    let m ← Action.lift ((Machine.boot f).outcome p)
    let (m, w) := run o rounds t m w
    set { w with tree := w.tree.write place m.files.prr.written.toList }
    return .ofStatus m.status

end Outcome

/-- A whole command: its arguments and its standard input, on a tree of files. -/
def perform (rounds : Nat) (tree : FileTree) (args : List String) (input : List UInt8) :
    Ending × Outcome :=
  match Usage.request args with
  | .error m => (.refused m, { tree })
  | .ok .version => (.done, Outcome.print version { tree })
  | .ok .help => (.done, Outcome.print help { tree })
  | .ok (.load o) =>
    match Outcome.launch rounds o input { tree } with
    | .ok e w => (e, w)
    | .error f w => (.failed f, w)

end PMachine.Command
