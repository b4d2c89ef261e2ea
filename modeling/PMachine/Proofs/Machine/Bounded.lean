import PMachine.Proofs.Machine.Boot
import PMachine.Proofs.Machine.Policy

/-!
# Numbers that fit

Addresses are unsigned, operands and the top of the stack are signed, and the machine converts between
them without a check. It comes to no harm: registers and the addresses in cells are below `2 ^ 63` in
every machine that a loaded program reaches, and then every conversion and every sum is exact.

* `Machine.Bounded`: the registers and the addresses in cells are below `2 ^ 63`.
* `Machine.step_bounded`: so they are after a step that succeeds.
* `Machine.reachable_bounded`: the numbers of reachable machines, and of their next steps.
-/

namespace PMachine

open Observed (Ends)

/-- An effect that is exact or excused: by the instruction, or as the width of a field that is too
wide for formatting. -/
def Effect.Excused (instruction : Bool) (e : Effect) : Prop :=
  e.Exact ∨ instruction = true ∨ ∃ w : Int, e = .result .width w ∧ 65535 < w

/-- Whether an instruction is a call whose number of parameters leaves no room for the links. -/
def Instruction.overlong (i : Instruction) : Bool := i.op = .cup ∧ 0x8000000000000000 - 3 ≤ i.p

namespace Machine

/-- The stack is inside the store, and the registers and the addresses in cells are below `2 ^ 63`. -/
structure Bounded (m : Machine) : Prop where
  bottom : -1 ≤ m.sp
  top : m.sp < m.store.cells.size
  pc : m.pc < 0x8000000000000000
  mp : m.mp < 0x8000000000000000
  np : m.np < 0x8000000000000000
  cells : ∀ (a : Nat) (c : Cell), m.store.cells[a]? = some c → c.Points (· < 0x8000000000000000)
  buffers : 8 ≤ m.store.cells.size
  size : m.store.cells.size < 0x8000000000000000
  code : m.code.size < 0x8000000000000000

variable {m : Machine} {x : Bool}

/-- Cells that point to certain addresses still do when one is replaced by such a cell. -/
theorem points_set {V : Nat → Prop} {cells : Array Cell} {a : Nat} {c : Cell}
    (h : ∀ (b : Nat) (d : Cell), cells[b]? = some d → d.Points V) (hc : c.Points V) (b : Nat) (d : Cell)
    (hd : (cells.setIfInBounds a c)[b]? = some d) : d.Points V := by
  rw [Array.getElem?_setIfInBounds] at hd
  split at hd
  · split at hd
    · cases hd
      exact hc
    · cases hd
  · exact h b d hd

/-- A cell may be replaced by one that points below `2 ^ 63`. -/
theorem Bounded.set (h : m.Bounded) {a : Nat} {c : Cell} (hc : c.Points (· < 0x8000000000000000)) :
    Bounded { m with store := { m.store with cells := m.store.cells.setIfInBounds a c } } := by
  have hsize : (m.store.cells.setIfInBounds a c).size = m.store.cells.size := Array.size_setIfInBounds
  refine ⟨h.bottom, ?_, h.pc, h.mp, h.np, points_set h.cells hc, ?_, ?_, h.code⟩ <;> simp only [hsize]
  · exact h.top
  · exact h.buffers
  · exact h.size

/-- The stack may be moved anywhere in the store. -/
theorem Bounded.moved (h : m.Bounded) {sp : Int} (hbottom : -1 ≤ sp) (htop : sp < m.store.cells.size) :
    Bounded { m with sp } :=
  ⟨hbottom, htop, h.pc, h.mp, h.np, h.cells, h.buffers, h.size, h.code⟩

/-- A push computes numbers that fit, because the stack is inside the store. -/
theorem push_bounded (h : m.Bounded) {c : Cell} (hc : c.Points (· < 0x8000000000000000)) :
    Ends (Effect.Excused x) (fun _ => True) (Observed.push c) (fun _ => Bounded) m := by
  have hbottom := h.bottom
  have htop := h.top
  have hsize := h.size
  have hword : Effect.Excused x (.result .word (m.sp + 1)) := Or.inl ⟨by omega, by omega⟩
  have haddress : Effect.Excused x (.result .address (m.sp + 1)) := Or.inl ⟨by omega, by omega⟩
  refine .bind <| .look <| .computes hword <| .computes haddress ?_
  refine .ite (fun _ => .failed trivial) fun _ => .bind <| .change ?_
  -- the stack pointer moves first; it is inside the store because the write succeeds
  refine .write (Or.inl trivial) (fun _ => trivial) fun hlt => ?_
  have hsp : (Address.ofSigned (m.sp + 1) : Int) = m.sp + 1 := by
    unfold Address.ofSigned
    omega
  exact (h.set hc).moved (by omega) (by simp only [Array.size_setIfInBounds] at hlt ⊢; omega)

/-- A frame is reserved with numbers that fit. -/
theorem reserve_bounded (h : m.Bounded) (q : Word) :
    Ends (Effect.Excused x) (fun _ => True) (Observed.reserve q) (fun _ => Bounded) m := by
  have hmp := h.mp
  have hbuffers := h.buffers
  have hsize := h.size
  have hframe : Effect.Excused x (.result .word m.mp) := Or.inl ⟨by omega, by omega⟩
  refine .bind <| .look <| .bind <| .computes hframe <| .orFault trivial fun top hoffset => ?_
  have htop := Address.offset?_lt hoffset
  refine .ite (fun _ => .failed trivial) fun _ => .bind <| .change <| .bind <| .look ?_
  obtain ⟨sp, hskip, hsp⟩ := Observed.skip_cases m
  rw [hskip]
  have hsp₁ : 4 ≤ sp ∧ sp < m.store.cells.size := by
    have := h.top
    omega
  have hfirst : (Address.ofSigned (sp + 1) : Int) = sp + 1 := by
    unfold Address.ofSigned
    omega
  have hword : Effect.Excused x (.result .word (sp + 1)) := Or.inl ⟨by omega, by omega⟩
  have haddress : Effect.Excused x (.result .address (sp + 1)) := Or.inl ⟨by omega, by omega⟩
  have hlast : Effect.Excused x (.result .word top) := Or.inl ⟨by omega, by omega⟩
  refine .computes hword <| .computes haddress <| .bind ?_
  refine .clear (I := Bounded) (fun _ _ hI => hI.set trivial) _ _ (h.moved (by omega) hsp₁.2)
    (fun _ _ _ => Or.inl trivial) (fun _ _ _ => trivial) fun m' h' hcells hall => ?_
  have hsame : m'.store.cells.size = m.store.cells.size := hcells
  -- what is cleared is in the store, and otherwise the stack shrinks
  refine .computes hlast <| .change <| h'.moved (by omega) ?_
  by_cases hn : 0 < top + 1 - Address.ofSigned (sp + 1)
  · have hin : Address.ofSigned (sp + 1) + (top + 1 - Address.ofSigned (sp + 1)) ≤ m.store.cells.size :=
      hall hn
    omega
  · omega

end Machine

open Machine

/-- The numbers fit, but for those that are excused. -/
def Policy.bounded (x : Bool) : Policy where
  holds := Bounded
  faulted _ := True
  address a := a < 0x8000000000000000
  effect := Effect.Excused x
  fault _ := trivial
  small h := h
  lower h hle := by omega
  cell h hc := h.cells _ _ hc
  next h hlt := by have := h.size; omega
  nil h := h.size
  mp h := h.mp
  np h := h.np
  base h := Or.inl ⟨by omega, by omega⟩
  link h hk := Or.inl ⟨by omega, by omega⟩
  depth h hn := by
    have hbottom := h.bottom
    have htop := h.top
    have hsize := h.size
    exact Or.inl ⟨by omega, by omega⟩
  width n := by
    by_cases hn : (n : Int) ≤ 65535
    · exact Or.inl hn
    · exact Or.inr (Or.inr ⟨n, rfl, by omega⟩)
  write _ _ _ := Or.inl trivial
  set h hc := h.set hc
  files h := ⟨h.bottom, h.top, h.pc, h.mp, h.np, h.cells, h.buffers, h.size, h.code⟩
  jumped h ha := ⟨h.bottom, h.top, ha, h.mp, h.np, h.cells, h.buffers, h.size, h.code⟩
  fetched {m} h hlt := by
    have hcode := h.code
    have hpc : m.pc + 1 < 0x8000000000000000 := by omega
    exact ⟨⟨h.bottom, h.top, hpc, h.mp, h.np, h.cells, h.buffers, h.size, h.code⟩,
      Or.inl ⟨by omega, by omega⟩⟩
  dropped h hn hle := by
    have htop := h.top
    exact h.moved (by omega) (by omega)
  taken h hle _ := by
    have hnp := h.np
    exact ⟨h.bottom, h.top, h.pc, h.mp, by simp only; omega, h.cells, h.buffers, h.size, h.code⟩
  pushed h hc := push_bounded h hc
  reserved h q := reserve_bounded h q

namespace Machine

variable {m : Machine} {x : Bool}

/-- A frame is found at a signed number that is not negative, however many parameters a call counts. -/
theorem enterFrame_bounded {p : Nat} (h : m.Bounded) (hx : 0x8000000000000000 - 3 ≤ p → x = true)
    (q : Word) : (Policy.bounded x).Ends (Observed.enterFrame p q) (fun _ => Bounded) m := by
  have hbottom := h.bottom
  have htop := h.top
  have hsize := h.size
  have hresult : ∀ {r : Range} {n : Int}, (p < 0x8000000000000000 - 3 → r.Admits n) →
      Effect.Excused x (.result r n) := by
    intro r n hn
    by_cases hp : p < 0x8000000000000000 - 3
    · exact Or.inl (hn hp)
    · exact Or.inr (Or.inl (hx (by omega)))
  have hsigned : p < 0x8000000000000000 - 3 → Address.signed p = p := fun hp =>
    Address.signed_of_lt (by omega)
  have hcount : Effect.Excused x (.result .word p) := hresult fun hp => ⟨by omega, by omega⟩
  have hlinks : Effect.Excused x (.result .word (Address.signed p + 3)) :=
    hresult fun hp => by rw [hsigned hp]; exact ⟨by omega, by omega⟩
  have hframe : Effect.Excused x (.result .word (m.sp - (Address.signed p + 3))) :=
    hresult fun hp => by rw [hsigned hp]; exact ⟨by omega, by omega⟩
  refine .bind <| .look <| .computes hcount <| .computes hlinks <| .computes hframe <| .bind <|
    .orFault trivial fun frame hstart => ?_
  have hmp : frame < 0x8000000000000000 := (frameStart?_eq_some.1 hstart).2
  have hlink : Effect.Excused x (.result .address (frame + returnLink : Nat)) :=
    Or.inl ⟨by omega, by unfold returnLink; omega⟩
  refine .bind <| .change <| .computes hlink <| .bind <|
    .write (Or.inl trivial) (fun _ => trivial) fun hlt => ?_
  have hcall : Bounded { m with mp := frame } :=
    ⟨h.bottom, h.top, h.pc, hmp, h.np, h.cells, h.buffers, h.size, h.code⟩
  exact Policy.jump_ends (P := Policy.bounded x) q (hcall.set (c := .mark m.pc) h.pc)

/-- A return that succeeds has read the links of its frame, so the frame is inside the store. -/
theorem leaveFrame_bounded (h : m.Bounded) (p : Nat) :
    (Policy.bounded x).Ends (Observed.leaveFrame p) (fun _ => Bounded) m := by
  have hmp := h.mp
  have hsize := h.size
  have hsigned : Address.signed m.mp = m.mp := Address.signed_of_lt hmp
  have hframe : Effect.Excused x (.result .word m.mp) := Or.inl ⟨by omega, by omega⟩
  have hsp : Effect.Excused x
      (.result .word (if p = 0 then Address.signed m.mp - 1 else Address.signed m.mp)) := by
    split <;> exact Or.inl ⟨by omega, by omega⟩
  have hlink : ∀ k ≤ 3, Effect.Excused x (.result .address (m.mp + k : Nat)) :=
    fun k hk => Or.inl ⟨by omega, by omega⟩
  refine .bind <| .look <| .computes hframe <| .computes hsp <| .bind <| .change ?_
  refine .computes (hlink 3 (by decide)) <| .bind <| .read trivial fun c hc => ?_
  have hlt : m.mp + 3 < m.store.cells.size := (Array.getElem?_eq_some_iff.1 hc).1
  refine .bind <| .lift trivial fun pc hpc => .bind <| .change ?_
  refine .computes (hlink 2 (by decide)) <| .bind <| .read trivial fun d hd => ?_
  refine .bind <| .lift trivial fun mp hmp' => .change ?_
  have hreturn : pc < 0x8000000000000000 := (h.cells _ c hc).asAddress id hpc
  have hcaller : mp < 0x8000000000000000 := (h.cells _ d hd).asAddress id hmp'
  have hbounds : -1 ≤ (if p = 0 then Address.signed m.mp - 1 else Address.signed m.mp) ∧
      (if p = 0 then Address.signed m.mp - 1 else Address.signed m.mp) < m.store.cells.size := by
    split <;> omega
  exact ⟨hbounds.1, hbounds.2, hreturn, hcaller, h.np, h.cells, h.buffers, h.size, h.code⟩

/-- A release sets the heap to an address from a cell. -/
theorem restore_bounded (h : m.Bounded) :
    (Policy.bounded x).Ends Observed.restore (fun _ => Bounded) m :=
  .bind <| Policy.popAddress_ends (P := Policy.bounded x) h fun _ _ h₁ ha =>
    .change ⟨h₁.bottom, h₁.top, h₁.pc, h₁.mp, ha, h₁.cells, h₁.buffers, h₁.size, h₁.code⟩

/-- **One step** leads to bounds again if it succeeds, and its numbers fit in any case. -/
theorem step_bounded (h : m.Bounded) :
    Ends (Effect.Excused (m.code[m.pc]?.any Instruction.overlong)) (fun _ => True) Observed.step
      (fun _ => Bounded) m := by
  refine Policy.step_ends (P := Policy.bounded _) h fun i hi hfetched => ?_
  refine Policy.perform_ends hfetched (fun _ _ => Or.inl trivial) (fun hcup => ?_)
    (fun _ => leaveFrame_bounded (m := m.fetched) hfetched i.p)
    fun _ _ => restore_bounded (m := m.fetched) hfetched
  refine enterFrame_bounded (m := m.fetched) hfetched (fun hp => ?_) i.q
  rw [hi]
  exact decide_eq_true ⟨hcup, hp⟩

end Machine

/-! ### Runs of loaded programs -/

namespace Machine

/-- A machine at the start of a loaded program. -/
theorem bounded_of_boot {p p' : Program} {files : Files} {m : Machine} (hp : p.store.Fresh)
    (hstore : p.store.size < 0x8000000000000000) (hcode : p.code.size < 0x8000000000000000)
    (h : boot files p = .ok m p') : m.Bounded := by
  obtain ⟨hroom, rfl⟩ := boot_ok h
  have hstack := hp.stack
  have hsame := size_withBuffers p.store
  have hzero : (0 : Nat) < 0x8000000000000000 := by decide
  unfold Store.size Channel.number at *
  refine ⟨Int.le_refl _, ?_, hzero, hzero, ?_, ?_, ?_, ?_, hcode⟩
  · simp only [hsame]
    omega
  · simp only
    omega
  · intro a c hc
    simp only [getElem?_withBuffers hroom] at hc
    cases hbuffer : buffer? a with
    | some d =>
      rw [hbuffer, Option.some_or] at hc
      cases hc
      exact points_of_buffer? hbuffer _
    | none =>
      rw [hbuffer, Option.none_or] at hc
      exact hp.cells c (Array.mem_of_getElem? hc) _
  · rw [hsame]
    exact hroom
  · rw [hsame]
    exact hstore

/-- **The numbers of a reachable machine fit.** After any number of instructions that succeed, from the
start of a loaded program on, with whatever input, the stack is inside the store, and the registers and
the addresses in cells are below `2 ^ 63`. So no number that the next step computes or converts
without a check exceeds its type, whether the step succeeds or fails. Excepted are calls with too many
parameters to count the links of the frame, and fields too wide for formatting. -/
theorem reachable_bounded (l : Limits) (text : Source) (p : Program) (rest : List UInt8)
    (hload : Program.load l text = .ok (p, rest)) (hstore : p.store.size < 0x8000000000000000)
    (hcode : p.code.size < 0x8000000000000000) (files : Files) (m₀ : Machine) (p' : Program)
    (hboot : boot files p = .ok m₀ p') (m : Machine)
    (hreach : Relation.ReflTransGen (fun m m' => ∃ b, step m = .ok b m') m₀ m) :
    (-1 ≤ m.sp ∧ m.sp < m.store.size) ∧
    (m.pc < 0x8000000000000000 ∧ m.mp < 0x8000000000000000 ∧ m.np < 0x8000000000000000) ∧
    (∀ a n : Nat, m.store.cells[a]? = some (.address n) ∨ m.store.cells[a]? = some (.mark n) →
      n < 0x8000000000000000) ∧
    Observed.step.act = step ∧
    ∀ e ∈ Observed.step.effects m, e.Exact ∨
      (∃ i, m.code[m.pc]? = some i ∧ i.op = .cup ∧ 0x8000000000000000 - 3 ≤ i.p) ∨
      ∃ w : Int, e = .result .width w ∧ 65535 < w := by
  have h : m.Bounded := by
    induction hreach with
    | refl => exact bounded_of_boot (Program.fresh_of_load hload) hstore hcode hboot
    | tail _ hstep ih =>
      obtain ⟨b, hb⟩ := hstep
      exact (step_bounded ih).ok b _ hb
  refine ⟨⟨h.bottom, h.top⟩, ⟨h.pc, h.mp, h.np⟩, ?_, Observed.step_act, ?_⟩
  · rintro a n (ha | ha)
    · exact h.cells a _ ha
    · exact h.cells a _ ha
  · intro e he
    rcases (step_bounded h).effects e he with hexact | hany | hwide
    · exact Or.inl hexact
    · refine Or.inr (Or.inl ?_)
      obtain ⟨i, hi, hlong⟩ := (Option.any_eq_true _ _).1 hany
      exact ⟨i, hi, of_decide_eq_true hlong⟩
    · exact Or.inr (Or.inr hwide)

/-- A program that puts the pointer to nothing on the stack. -/
def nilText : List Char := "\n LDC N\n STP\n".toList

/-- Limits with room for this text and the file buffers. -/
def nilLimits : Limits := { stackSize := 8, pools := {}, codeSize := 8, maxLabel := 0 }

theorem reachable_bounded_nilText : ∃ p rest m₀ p' m,
    Program.load nilLimits ⟨Lines.encode nilText, none⟩ = .ok (p, rest) ∧ boot {} p = .ok m₀ p' ∧
      step m₀ = .ok true m ∧ m.sp < m.store.size := by
  have hrun : (Program.load nilLimits ⟨Lines.encode nilText, none⟩).toOption.map (fun x =>
      (x.1.store.size, x.1.code.size, match boot {} x.1 with
        | .ok m _ => match step m with
          | .ok b _ => some b
          | .error _ _ => none
        | .error _ _ => none)) = some (9, 3, some true) := by decide +kernel
  cases hload : Program.load nilLimits ⟨Lines.encode nilText, none⟩ with
  | error f =>
    rw [hload] at hrun
    cases hrun
  | ok x =>
    obtain ⟨p, rest⟩ := x
    rw [hload] at hrun
    have hrun := Prod.mk.inj (Option.some.inj hrun)
    obtain ⟨hstore, hrun⟩ := hrun
    obtain ⟨hcode, hrun⟩ := Prod.mk.inj hrun
    cases hboot : boot {} p with
    | error f p' =>
      rw [hboot] at hrun
      cases hrun
    | ok m₀ p' =>
      rw [hboot] at hrun
      cases hstep : step m₀ with
      | error f m =>
        simp only [hstep] at hrun
        cases hrun
      | ok b m =>
        simp only [hstep] at hrun
        cases hrun
        have hbounded := reachable_bounded nilLimits ⟨Lines.encode nilText, none⟩ p rest hload
          (hstore.trans_lt (by decide)) (hcode.trans_lt (by decide)) {} m₀ p' hboot m (.single ⟨true, hstep⟩)
        exact ⟨p, rest, m₀, p', m, rfl, hboot, hstep, hbounded.1.2⟩

end Machine

end PMachine
