import PMachine.Instruction
import PMachine.Store

/-!
# Programs

A loaded program: its code, and the store that holds its constants.

* `Program.listing`: the code as text, an instruction a line, pooled constants with their values.
-/

namespace PMachine

/-- A program ready to run. -/
structure Program where
  code : Array Instruction
  store : Store
deriving DecidableEq, Repr

namespace Program

instance : Inhabited Program := ⟨⟨#[], default⟩⟩

/-- The first code address of the main part; the startup code stands below it. -/
def mainStart : Nat := 3

/-- The value of a pooled constant, as a remark after the instruction that loads it. -/
def remark (store : Store) (i : Instruction) : String :=
  if i.op = .lci then
    match store.read i.q.unsigned with
    | .ok c => "  ; " ++ c.text
    | .error _ => ""
  else ""

/-- The line of a listing for a code address, or `none` past the end of the code. -/
def listingLine? (p : Program) (a : Nat) : Option String :=
  p.code[a]?.map fun i =>
    String.ofList (List.leftpad 5 ' ' (Nat.toDigits 10 a)) ++ "  " ++ i.text ++ remark p.store i

/-- The whole code as text. -/
def listing (p : Program) : String :=
  String.join ((List.range p.code.size).filterMap fun a => p.listingLine? a |>.map (· ++ "\n"))

end Program

end PMachine
