import PMachine.Machine
import PMachine.Program.Assembly

/-!
# The log

What a command reports beside its output, a line for each event: what the loader did, and, if asked
for, every instruction with the registers before it.
-/

namespace PMachine

/-- How much an event matters, the most important first. -/
inductive Log.Level where
  | warn
  | info
  | debug
  | trace
deriving DecidableEq, Repr

/-- An event in the log. -/
structure Log.Entry where
  level : Log.Level
  text : String
deriving DecidableEq, Repr

namespace Log

namespace Level

/-- The name of a level, aligned to the right. -/
def label : Level → String
  | warn => " WARN"
  | info => " INFO"
  | debug => "DEBUG"
  | trace => "TRACE"

/-- The place of a level in the order of importance. -/
def rank : Level → Nat
  | warn => 0
  | info => 1
  | debug => 2
  | trace => 3

/-- Whether events of level `l` are shown when those up to `most` are. -/
def isShown (most l : Level) : Bool := l.rank ≤ most.rank

end Level

namespace Entry

/-- The line of an event. -/
def line (e : Entry) : String := e.level.label ++ " " ++ e.text ++ "\n"

/-- A report of the loader. -/
def ofNotice : Notice → Entry
  | .part start line => ⟨.debug, s!"assembly pass start={start} line={line}"⟩
  | .duplicateLabel label line => ⟨.warn, s!"duplicate label ignored label={label} line={line}"⟩
  | .loaded instructions lines =>
    ⟨.debug, s!"program loaded instructions={instructions} lines={lines}"⟩

/-- The program file is loaded. -/
def loaded (path : String) (p : Program) : Entry :=
  ⟨.info, s!"loaded {path} instructions={p.code.size}"⟩

/-- The instruction that a machine executes next, with its registers; `none` if it is past the
code. -/
def next? (m : Machine) : Option Entry :=
  m.code[m.pc]?.map fun i =>
    ⟨.trace, s!"{i.text} pc={m.pc} sp={m.sp} mp={m.mp} np={m.np}"⟩

end Entry

/-- The lines of the events that are shown. -/
def text (most : Level) (log : List Entry) : String :=
  String.join ((log.filter fun e => most.isShown e.level).map Entry.line)

end Log

end PMachine
