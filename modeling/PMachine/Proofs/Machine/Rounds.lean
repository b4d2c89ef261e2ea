import PMachine.Command
import PMachine.Proofs.Machine.Steady

/-!
# A run does not depend on how it is cut

A machine is driven by calls that execute a number of instructions each. Two calls in a row do what
one call with the sum of the numbers does, so every way to drive the machine to its end follows the
same run: one instruction at a time, the rounds of an uninterrupted run, or those of the command. A
machine that has come to a stop stays as it is.

* `Machine.execute_add`: two calls are one call.
* `Machine.execute_of_le`: once the machine has stopped, further instructions change nothing.
* `Machine.run_uncut`: all ways to drive a machine follow one run.
-/

namespace PMachine.Machine

variable {m r : Machine} {a b n : Nat}

/-! ### Stopping -/

/-- What stands in a machine beside its registers, cells and files: no instruction touches it. -/
def standing (m : Machine) : Status × Bool := (m.status, m.interrupted)

/-- No instruction changes whether the machine runs or is to be interrupted. -/
theorem fixed_standing : Fixed standing where
  registers _ _ _ _ := rfl
  files _ _ := rfl
  cells _ _ _ := rfl
  frame _ _ := rfl

/-- A machine that has failed is stopped. -/
theorem isStopped_fail (m : Machine) (f : Fault) : (m.fail f).isStopped = true := by
  simp [fail, isStopped]

/-- A machine that has come to its end is stopped. -/
theorem isStopped_halt (m : Machine) : m.halt.isStopped = true := by
  unfold halt
  cases m.files.flush with
  | ok _ => simp [isStopped]
  | error f => exact isStopped_fail m f

theorem interrupted_halt (m : Machine) : m.halt.interrupted = m.interrupted := by
  unfold halt
  cases m.files.flush <;> rfl

/-- A machine that is not stopped runs. -/
theorem running_of_not_isStopped (h : ¬ m.isStopped = true) : m.status = .running := by
  simpa [isStopped] using h

/-- A machine that is stopped executes nothing. -/
theorem execute_of_stopped (h : m.isStopped = true) (n : Nat) : m.execute n = m := by
  rw [execute, if_pos h]

/-- A machine that runs and is not interrupted executes its instructions. -/
theorem execute_of_running (h : m.status = .running) (hi : m.interrupted = false) (n : Nat) :
    m.execute n = m.cycle n := by
  have hs : ¬ m.isStopped = true := by simp [isStopped, h]
  rw [execute, if_neg hs, hi, if_neg Bool.false_ne_true]

/-- An interruption takes the place of the first instruction. -/
theorem execute_of_interrupted (h : m.isStopped = false) (hi : m.interrupted = true) (n : Nat) :
    m.execute n =
      { m with interrupted := false, status := .failed (Fault.interrupted.atAddress m.pc) } := by
  have hs : ¬ m.isStopped = true := by simp [h]
  rw [execute, if_neg hs, if_pos hi]
  rfl

/-- One instruction, and then the others. -/
theorem cycle_succ (n : Nat) (m : Machine) : m.cycle (n + 1) = match step m with
    | .ok true m' => m'.cycle n
    | .ok false m' => m'.halt
    | .error f m' => m'.fail (f.atAddress m.pc) := rfl

/-! ### Cutting a call -/

/-- Instructions in a row may be cut anywhere. -/
theorem cycle_add (b : Nat) : ∀ (a : Nat) (m : Machine), m.status = .running →
    m.interrupted = false → m.cycle (a + b) = (m.cycle a).execute b := by
  intro a
  induction a with
  | zero =>
    intro m h hi
    rw [Nat.zero_add]
    exact (execute_of_running h hi b).symm
  | succ a ih =>
    intro m h hi
    have hsucc : a + 1 + b = a + b + 1 := by omega
    rw [hsucc, cycle_succ, cycle_succ]
    have hkeep := step_keeps fixed_standing m
    cases hstep : step m with
    | ok goesOn m₁ =>
      rw [Action.after_of_ok hstep] at hkeep
      have h₁ : m₁.status = .running := (congrArg Prod.fst hkeep).trans h
      have hi₁ : m₁.interrupted = false := (congrArg Prod.snd hkeep).trans hi
      cases goesOn with
      | true => exact ih m₁ h₁ hi₁
      | false => exact (execute_of_stopped (isStopped_halt m₁) b).symm
    | error f m₁ => exact (execute_of_stopped (isStopped_fail m₁ _) b).symm

/-- **Two calls are one call**, also where a call finds the machine stopped or interrupted. -/
theorem execute_add (a b : Nat) (m : Machine) : (m.execute a).execute b = m.execute (a + b) := by
  by_cases hs : m.isStopped = true
  · rw [execute_of_stopped hs, execute_of_stopped hs, execute_of_stopped hs]
  · have hrun : m.status = .running := running_of_not_isStopped hs
    cases hi : m.interrupted with
    | false => rw [execute_of_running hrun hi, execute_of_running hrun hi, cycle_add b a m hrun hi]
    | true =>
      have hs' : m.isStopped = false := by simpa using hs
      rw [execute_of_interrupted hs' hi, execute_of_interrupted hs' hi]
      exact execute_of_stopped (isStopped_fail { m with interrupted := false } _) b

/-- Once the machine has stopped, a call that goes on for longer ends in the same machine. -/
theorem execute_of_le (h : (m.execute a).isStopped = true) (hle : a ≤ b) :
    m.execute b = m.execute a := by
  obtain ⟨d, rfl⟩ : ∃ d, b = a + d := ⟨b - a, by omega⟩
  rw [← execute_add, execute_of_stopped h]

/-! ### Many calls -/

/-- To execute nothing changes nothing. -/
theorem execute_zero (hi : m.interrupted = false) : m.execute 0 = m := by
  by_cases hs : m.isStopped = true
  · exact execute_of_stopped hs 0
  · exact execute_of_running (running_of_not_isStopped hs) hi 0

/-- No instruction interrupts the machine. -/
theorem interrupted_cycle : ∀ (n : Nat) (m : Machine), (m.cycle n).interrupted = m.interrupted := by
  intro n
  induction n with
  | zero => intro m; rfl
  | succ n ih =>
    intro m
    have hkeep := step_keeps fixed_standing m
    rw [cycle_succ]
    cases hstep : step m with
    | ok goesOn m₁ =>
      rw [Action.after_of_ok hstep] at hkeep
      have hi₁ : m₁.interrupted = m.interrupted := congrArg Prod.snd hkeep
      cases goesOn with
      | true => exact (ih m₁).trans hi₁
      | false => exact (interrupted_halt m₁).trans hi₁
    | error f m₁ =>
      rw [Action.after_of_error hstep] at hkeep
      exact congrArg Prod.snd hkeep

theorem interrupted_execute (hi : m.interrupted = false) (n : Nat) :
    (m.execute n).interrupted = false := by
  by_cases hs : m.isStopped = true
  · rw [execute_of_stopped hs, hi]
  · rw [execute_of_running (running_of_not_isStopped hs) hi, interrupted_cycle, hi]

/-- Calls of one length add up. -/
theorem execute_iterate (k : Nat) : ∀ (n : Nat) (m : Machine), m.interrupted = false →
    (execute k)^[n] m = m.execute (n * k) := by
  intro n
  induction n with
  | zero =>
    intro m hi
    rw [Nat.zero_mul, execute_zero hi]
    rfl
  | succ n ih =>
    intro m hi
    have hsum : k + n * k = (n + 1) * k := by rw [Nat.succ_mul]; omega
    rw [Function.iterate_succ_apply, ih _ (interrupted_execute hi k), execute_add, hsum]

/-- Rounds add up to one call. -/
theorem runRounds_eq_execute : ∀ (rounds : Nat) (m : Machine), m.interrupted = false →
    m.runRounds rounds = m.execute (rounds * roundLength) := by
  intro rounds
  induction rounds with
  | zero =>
    intro m hi
    rw [Nat.zero_mul, execute_zero hi, runRounds]
  | succ rounds ih =>
    intro m hi
    have hsum : roundLength + rounds * roundLength = (rounds + 1) * roundLength := by
      rw [Nat.succ_mul]; omega
    rw [runRounds]
    split
    · rename_i hs
      exact (execute_of_stopped hs _).symm
    · rw [ih _ (interrupted_execute hi _), execute_add, hsum]

/-! ### The rounds of the command -/

/-- A machine that is traced does what it does otherwise. -/
theorem traced_eq_execute : ∀ (n : Nat) (m : Machine) (log : Array Log.Entry), m.interrupted = false →
    (Command.traced n m log).2 = m.execute n := by
  intro n
  induction n with
  | zero =>
    intro m log hi
    rw [execute_zero hi, Command.traced]
  | succ n ih =>
    intro m log hi
    rw [Command.traced]
    split
    · rename_i hs
      exact (execute_of_stopped hs _).symm
    · rw [ih _ _ (interrupted_execute hi 1), execute_add, Nat.add_comm]

/-- The command has the machine execute as many instructions as it asks for. -/
theorem advance_eq_execute (o : Options) (n : Nat) (hi : m.interrupted = false) :
    (Command.advance o n m).2 = m.execute n := by
  unfold Command.advance
  split
  · exact traced_eq_execute n m _ hi
  · rfl

/-- The number of instructions in a round of the command. -/
def pace (t : Traffic) : Nat := if t.isWatched then 1 else Command.roundLength

theorem pace_pos (t : Traffic) : 0 < pace t := by
  unfold pace Command.roundLength
  split <;> omega

/-- **The command follows the run** of its machine, unless what the machine writes comes back to it:
as the text of `prd`, or as the refusal of a device without room. -/
theorem commandRun_eq_execute (o : Options) : ∀ (rounds : Nat) (t : Traffic) (m : Machine)
    (w : Command.Outcome), t.resume = none → t.device ≠ some .full → m.interrupted = false →
      (Command.Outcome.run o rounds t m w).1 = m.execute (rounds * pace t) := by
  intro rounds
  induction rounds with
  | zero =>
    intro t m w _ _ hi
    rw [Nat.zero_mul, execute_zero hi, Command.Outcome.run]
  | succ rounds ih =>
    intro t m w hresume hdevice hi
    have hsum : pace t + rounds * pace t = (rounds + 1) * pace t := by rw [Nat.succ_mul]; omega
    rw [Command.Outcome.run]
    split
    · rename_i hs
      exact (execute_of_stopped hs _).symm
    · have hprepare : t.prepare m = m := by rw [Traffic.prepare, if_neg hdevice]
      have hfeed : ∀ new m', t.feed new m' = m' := by
        intro new m'
        rw [Traffic.feed, hresume]
      have hadvance : (Command.advance o (if t.isWatched = true then 1 else Command.roundLength) m).2 =
          m.execute (pace t) := advance_eq_execute o _ hi
      -- what goes out changes the buffers, but not where they lead
      have hpace : pace (t.account (m.execute (pace t))) = pace t := rfl
      simp only [hprepare, hfeed, hadvance]
      rw [ih (t.account _) _ _ hresume hdevice (interrupted_execute hi _), hpace, execute_add, hsum]

/-! ### One run -/

/-- The machine comes to a stop, and this is what it is then. -/
def EndsIn (m r : Machine) : Prop := r.isStopped = true ∧ ∃ n, m.execute n = r

/-- A run has one end. -/
theorem EndsIn.unique {r' : Machine} (h : m.EndsIn r) (h' : m.EndsIn r') : r = r' := by
  obtain ⟨hs, a, rfl⟩ := h
  obtain ⟨hs', b, rfl⟩ := h'
  rcases Nat.le_total a b with hle | hle
  · exact (execute_of_le hs hle).symm
  · exact execute_of_le hs' hle

/-- Rounds of any length come to the same end. -/
theorem endsIn_iff_rounds {k : Nat} (hk : 0 < k) :
    m.EndsIn r ↔ r.isStopped = true ∧ ∃ rounds, m.execute (rounds * k) = r := by
  constructor
  · rintro ⟨hs, n, rfl⟩
    have hle : n ≤ n * k := Nat.le_mul_of_pos_right n hk
    exact ⟨hs, n, execute_of_le hs hle⟩
  · rintro ⟨hs, rounds, rfl⟩
    exact ⟨hs, _, rfl⟩

/-- What can be asked of a machine. -/
inductive Control where
  | execute (n : Nat)
  | run (rounds : Nat)
  | interrupt

/-- The machine after it was asked for something. -/
def Control.apply (m : Machine) : Control → Machine
  | execute n => m.execute n
  | run rounds => m.runRounds rounds
  | interrupt => m.interrupt

/-- What is asked of a machine that is stopped changes nothing but the request to interrupt it. -/
theorem apply_of_stopped (h : m.isStopped = true) (c : Control) :
    c.apply m = { m with interrupted := (c.apply m).interrupted } := by
  cases c with
  | execute n => rw [Control.apply, execute_of_stopped h]
  | run rounds =>
    have hrun : m.runRounds rounds = m := by
      cases rounds with
      | zero => rfl
      | succ rounds => rw [runRounds, if_pos h]
    rw [Control.apply, hrun]
  | interrupt => rfl

/-- **A machine that has stopped** stays as it is, whatever is asked of it; only the wish to stop it
is noted. -/
theorem foldl_apply_of_stopped : ∀ (cs : List Control) (m : Machine), m.isStopped = true →
    cs.foldl Control.apply m = { m with interrupted := (cs.foldl Control.apply m).interrupted } := by
  intro cs
  induction cs with
  | nil => intro m _; rfl
  | cons c cs ih =>
    intro m h
    have hone := apply_of_stopped h c
    have hs : (c.apply m).isStopped = true := by
      rw [hone]
      exact h
    rw [List.foldl_cons]
    have hrest := ih _ hs
    rw [hrest, hone]

/-- **A run is one run, however it is cut.** Two calls leave the same machine, its status included, as
one call with the sum of their numbers. A machine without a pending interrupt comes to the same end
one instruction at a time, in the rounds of an uninterrupted run and in those of the command. Once it
has stopped, nothing that is asked of it changes a register, a cell, a file or its status. An interrupt
makes the next call fail at the next instruction, which is not executed. -/
theorem run_uncut (m : Machine) :
    (∀ a b, (m.execute a).execute b = m.execute (a + b)) ∧
    (m.interrupted = false →
      (∀ n, (execute 1)^[n] m = m.execute n) ∧
      (∀ rounds, m.runRounds rounds = m.execute (rounds * roundLength)) ∧
      (∀ o t w rounds, t.resume = none → t.device ≠ some .full →
        (Command.Outcome.run o rounds t m w).1 = m.execute (rounds * pace t)) ∧
      ∀ r, r.isStopped = true →
        ((∃ n, (execute 1)^[n] m = r) ↔ ∃ n, m.execute n = r) ∧
        ((∃ rounds, m.runRounds rounds = r) ↔ ∃ n, m.execute n = r) ∧
        ∀ o t w, t.resume = none → t.device ≠ some .full →
          ((∃ rounds, (Command.Outcome.run o rounds t m w).1 = r) ↔ ∃ n, m.execute n = r)) ∧
    (∀ r r', m.EndsIn r → m.EndsIn r' → r = r') ∧
    (m.isStopped = true → ∀ cs : List Control,
      cs.foldl Control.apply m = { m with interrupted := (cs.foldl Control.apply m).interrupted }) ∧
    (m.isStopped = false → m.interrupted = true → ∀ n, m.execute n =
      { m with interrupted := false, status := .failed (Fault.interrupted.atAddress m.pc) }) := by
  refine ⟨fun a b => execute_add a b m, ?_, fun r r' h h' => h.unique h',
    fun h cs => foldl_apply_of_stopped cs m h, execute_of_interrupted⟩
  intro hi
  have hones : ∀ n, (execute 1)^[n] m = m.execute n := by
    intro n
    rw [execute_iterate 1 n m hi, Nat.mul_one]
  have hrounds : ∀ rounds, m.runRounds rounds = m.execute (rounds * roundLength) := fun rounds =>
    runRounds_eq_execute rounds m hi
  have hcommand : ∀ o t w rounds, t.resume = none → t.device ≠ some .full →
      (Command.Outcome.run o rounds t m w).1 = m.execute (rounds * pace t) :=
    fun o t w rounds hresume hdevice => commandRun_eq_execute o rounds t m w hresume hdevice hi
  refine ⟨hones, hrounds, hcommand, fun r hr => ⟨by simp only [hones], ?_, ?_⟩⟩
  · have hiff := endsIn_iff_rounds (m := m) (r := r) (show 0 < roundLength by decide)
    simp only [hrounds]
    exact ⟨fun h => (hiff.2 ⟨hr, h⟩).2, fun h => (hiff.1 ⟨hr, h⟩).2⟩
  · intro o t w hresume hdevice
    have hiff := endsIn_iff_rounds (m := m) (r := r) (pace_pos t)
    simp only [fun rounds => hcommand o t w rounds hresume hdevice]
    exact ⟨fun h => (hiff.2 ⟨hr, h⟩).2, fun h => (hiff.1 ⟨hr, h⟩).2⟩

/-- A machine with one constant to load before it stops. -/
def brief : Machine where
  pc := 0
  mp := 0
  sp := -1
  np := 9
  code := #[⟨.ldc, 1, 7⟩, ⟨.stp, 0, 0⟩]
  store := ⟨default, Array.replicate 9 .undefined, default⟩
  files := default

theorem run_uncut_brief :
    (execute 1)^[2] brief = brief.execute 2 ∧ (brief.execute 2).status = .stopped ∧
    (∃ rounds, brief.runRounds rounds = brief.execute 2) ∧
    (∃ rounds, (Command.Outcome.run { program := "p" } rounds {} brief { tree := ⟨[], []⟩ }).1 =
      brief.execute 2) ∧
    [.interrupt, .execute 3, .run 1].foldl Control.apply (brief.execute 2) =
      { brief.execute 2 with interrupted := true } ∧
    (brief.interrupt.execute 5).status = .failed (Fault.interrupted.atAddress 0) := by
  have hstopped : (brief.execute 2).isStopped = true := by decide +kernel
  obtain ⟨-, hways, -⟩ := run_uncut brief
  obtain ⟨hones, -, -, hends⟩ := hways rfl
  obtain ⟨-, hrounds, hcommand⟩ := hends _ hstopped
  have hstays := (run_uncut (brief.execute 2)).2.2.2.1 hstopped [.interrupt, .execute 3, .run 1]
  have hbreak := (run_uncut brief.interrupt).2.2.2.2 (by decide) rfl 5
  refine ⟨hones 2, by decide +kernel, hrounds.2 ⟨2, rfl⟩, hcommand _ _ _ rfl (by decide) |>.2 ⟨2, rfl⟩,
    ?_, by rw [hbreak]; rfl⟩
  rw [hstays]
  have hflag : ([.interrupt, .execute 3, .run 1].foldl Control.apply (brief.execute 2)).interrupted =
      true := by decide +kernel
  rw [hflag]

end PMachine.Machine
