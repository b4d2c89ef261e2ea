import PMachine.Machine.Step

/-!
# Running

A machine runs until it stops, fails or has executed as many instructions as it was allowed. Once
it has come to a stop nothing changes any more.

* `Machine.cycle`: executes a number of instructions.
* `Machine.execute`: the same from any state: not at all if the machine is not running, and with a
  fault if it was interrupted.
* `Machine.runRounds`: executes round after round while the machine is running.
-/

namespace PMachine.Machine

/-- The machine after a fault. -/
def fail (m : Machine) (f : Fault) : Machine := { m with status := .failed f }

/-- The machine after its last instruction: it stops once its files are flushed. -/
def halt (m : Machine) : Machine :=
  match m.files.flush with
  | .ok _ => { m with status := .stopped }
  | .error f => m.fail f

/-- Executes `n` instructions, or fewer if the machine comes to a stop. -/
def cycle : (n : Nat) → Machine → Machine
  | 0, m => m
  | n + 1, m =>
    let pc := m.pc
    match step m with
    | .ok true m => cycle n m
    | .ok false m => m.halt
    | .error f m => m.fail (f.atAddress pc)

/-- Asks the machine to stop before its next instruction. -/
def interrupt (m : Machine) : Machine := { m with interrupted := true }

/-- Whether the machine has come to a stop. -/
def isStopped (m : Machine) : Bool := m.status ≠ .running

/-- Executes at most `n` instructions; the status tells how it ended. -/
def execute (n : Nat) (m : Machine) : Machine :=
  if m.isStopped then m
  else if m.interrupted then
    let pc := m.pc
    { m with interrupted := false }.fail (Fault.interrupted.atAddress pc)
  else m.cycle n

/-- The number of instructions in a round of an uninterrupted run. -/
def roundLength : Nat := 10000

/-- Executes rounds while the machine is running, at most the given number of them. -/
def runRounds : (rounds : Nat) → Machine → Machine
  | 0, m => m
  | rounds + 1, m => if m.isStopped then m else runRounds rounds (m.execute roundLength)

end PMachine.Machine
