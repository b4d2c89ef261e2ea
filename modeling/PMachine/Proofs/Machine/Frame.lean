import PMachine.Proofs.Statement.Mnemonic
import PMachine.Proofs.Machine.Stack

/-!
# Where a call enters its frame

A call names the number of cells that its parameters take, and its frame lies below these and the
links. Where the stack is not that high, there is no frame to enter. A size that makes `2 ^ 63` with the
links, which the assembler admits too, is taken for the signed number with its bits: the frame is then
looked for `2 ^ 64` cells above the place where the size puts it, unless that is out of range too.

* `Machine.frameStart?_of_ge`: where a size beyond `2 ^ 63` has its frame looked for.
* `Machine.entered`: a machine in another frame, with the link back.
* `Machine.EntersFrame`, `Machine.CallsExactly`: a call that enters a frame, and the right one or none.
* `Machine.step_underflow_iff`: where there is none.
* `Machine.callsExactly_iff`: which calls are exact.
-/

namespace PMachine

namespace Statement

theorem ofMnemonic?_cup : Opcode.ofMnemonic? "CUP" = some .cup := @Opcode.ofMnemonic?_mnemonic .cup nofun

/-- A call is assembled from the size of its parameters and the label of the procedure. -/
theorem assembleText_cup {text t : LineText} {site : Nat} {tables tables' : Tables} {i : Instruction}
    (hname : Lexeme.name text = .ok "CUP" t) (h : assembleText text site tables = .ok i tables') :
    ∃ p label u v, Lexeme.unsigned t = .ok p u ∧ Lexeme.label u = .ok label v ∧
      i.op = .cup ∧ i.p = p := by
  obtain ⟨st, _, hlift, h⟩ := Action.bind_eq_ok.1 h
  obtain ⟨hparse, rfl⟩ := Action.lift_eq_ok.1 hlift
  rw [parse_of_name hname ofMnemonic?_cup] at hparse
  obtain ⟨w, hoperands⟩ := Action.outcome_eq_ok.1 hparse
  obtain ⟨p, u, hp, hoperands⟩ := Action.bind_eq_ok.1 hoperands
  obtain ⟨label, v, hlabel, hlast⟩ := Action.bind_eq_ok.1 hoperands
  cases hlast
  obtain ⟨q, _, _, hlast⟩ := Action.bind_eq_ok.1 h
  cases hlast
  exact ⟨p, label, u, w, hp, hlabel, rfl, rfl⟩

end Statement

namespace Machine

variable {m : Machine} {p frame : Nat} {q : Word}

/-! ### Frames -/

/-- The machine in another frame, with the link back to where it goes on. -/
def entered (m : Machine) (frame : Nat) : Machine :=
  { m with
    mp := frame
    store := { m.store with
      cells := m.store.cells.setIfInBounds (frame + returnLink) (.mark m.pc) } }

/-- A jump to an operand that is no address below zero goes there. -/
theorem jump_eq (h : 0 ≤ q.toInt) : jump q m = .ok () { m with pc := q.toInt.toNat } := by
  have hlt := q.toInt_lt
  rw [jump, operand, Action.bind_of_ok (offset_eq (by omega) (by omega) (by omega))]
  simp

/-- A jump to a negative operand fails. -/
theorem jump_error (h : q.toInt < 0) : jump q m = .error .addressOutOfStore m := by
  have hnone : Address.offset? 0 q.toInt = none := by
    rw [Address.offset?, Address.signed_of_lt (by omega), if_neg (by omega)]
  rw [jump, operand, offset, hnone, Action.bind_of_error (Action.orFault_none _ m)]

/-- A size that leaves no room for the links is counted less `2 ^ 64`, the bits of a word being all that
is left of it. -/
theorem frameStart?_of_ge (hp : 0x8000000000000000 ≤ p + 3) (hp' : p < 0x10000000000000000) :
    m.frameStart? p = some frame ↔
      (frame : Int) = m.sp + 0x10000000000000000 - (p + 3) ∧ frame < 0x8000000000000000 := by
  rw [frameStart?_eq_some, Address.wrap_signed_add, Word.wrap_of_ge (by omega) (by omega)]
  omega

/-- Where there is a frame, the link is written and the procedure gone to. -/
theorem enterFrame_of_frame (hframe : m.frameStart? p = some frame) :
    enterFrame p q m = (do
      write (frame + returnLink) (.mark m.pc)
      jump q : Action Machine Unit) { m with mp := frame } := by
  rw [enterFrame, Action.bind_of_ok (Action.get_apply m), hframe,
    Action.bind_of_ok (Action.orFault_some frame _ m), Action.bind_of_ok (Action.modify_apply _ m)]

/-- A call with its link in the store enters the frame and jumps. -/
theorem enterFrame_eq (hframe : m.frameStart? p = some frame)
    (hroom : frame + returnLink < m.store.cells.size) :
    enterFrame p q m = jump q (m.entered frame) := by
  have hlink : write (frame + returnLink) (.mark m.pc) { m with mp := frame } =
      .ok () (m.entered frame) :=
    write_eq (m := { m with mp := frame }) hroom _
  rw [enterFrame_of_frame hframe]
  exact Action.bind_of_ok hlink

/-- A call whose link is outside the store has set the frame by the time that it fails. -/
theorem enterFrame_outside (hframe : m.frameStart? p = some frame)
    (hroom : m.store.cells.size ≤ frame + returnLink) :
    enterFrame p q m = .error .addressOutOfStore { m with mp := frame } := by
  rw [enterFrame_of_frame hframe]
  exact Action.bind_of_error (write_error (m := { m with mp := frame }) hroom _)

/-- A call without a frame changes nothing. -/
theorem enterFrame_underflow (h : m.frameStart? p = none) :
    enterFrame p q m = .error .stackUnderflow m := by
  rw [enterFrame, Action.bind_of_ok (Action.get_apply m), h]
  exact Action.bind_of_error (Action.orFault_none _ m)

/-! ### Steps -/

/-- A call goes on in the frame at `frame`. Nothing is written but the link back, and the procedure is
gone to unless its address is negative. -/
structure EntersFrame (q : Word) (frame : Nat) (m : Machine) : Prop where
  mp : (step.after m).mp = frame
  sp : (step.after m).sp = m.sp
  room : frame + returnLink < m.store.cells.size
  store : (step.after m).store = { m.store with
    cells := m.store.cells.setIfInBounds (frame + returnLink) (.mark (m.pc + 1)) }
  goes : 0 ≤ q.toInt → step m = .ok true (step.after m) ∧ (step.after m).pc = q.toInt

/-- A call enters the frame below its parameters and the links, or the stack is not that high and
nothing happens. -/
def CallsExactly (p : Nat) (q : Word) (m : Machine) : Prop :=
  (∃ frame : Nat, (p : Int) + 3 ≤ m.sp ∧ (frame : Int) = m.sp - (p + 3) ∧ EntersFrame q frame m) ∨
    step m = .error .stackUnderflow m.fetched

/-- A step that leaves the machine in the frame has entered it. -/
theorem entersFrame_of_after {pc : Nat}
    (hafter : step.after m = { m.fetched.entered frame with pc := pc })
    (hroom : frame + returnLink < m.store.cells.size)
    (hgoes : 0 ≤ q.toInt → step m = .ok true (step.after m) ∧ (step.after m).pc = q.toInt) :
    EntersFrame q frame m where
  mp := congrArg (fun m => m.mp) hafter
  sp := congrArg (fun m => m.sp) hafter
  room := hroom
  store := congrArg (fun m => m.store) hafter
  goes := hgoes

variable (hcode : m.code[m.pc]? = some ⟨.cup, p, q⟩)

include hcode

/-- A step with a frame that has its link in the store enters the frame, and then jumps or fails. -/
theorem step_in_frame (hframe : m.frameStart? p = some frame)
    (hroom : frame + returnLink < m.store.cells.size) :
    (0 ≤ q.toInt ∧
      step m = .ok true { m.fetched.entered frame with pc := q.toInt.toNat }) ∨
    (q.toInt < 0 ∧ step m = .error .addressOutOfStore (m.fetched.entered frame)) := by
  have hperform : perform ⟨.cup, p, q⟩ m.fetched = jump q (m.fetched.entered frame) :=
    enterFrame_eq (m := m.fetched) hframe hroom
  by_cases hq : 0 ≤ q.toInt
  · exact Or.inl ⟨hq, step_of_ok hcode (hperform.trans (jump_eq hq))⟩
  · exact Or.inr ⟨by omega, step_of_error hcode (hperform.trans (jump_error (by omega)))⟩

/-- Every frame that has its link in the store is entered. -/
theorem entersFrame (hframe : m.frameStart? p = some frame)
    (hroom : frame + returnLink < m.store.cells.size) : EntersFrame q frame m := by
  rcases step_in_frame hcode hframe hroom with ⟨hq, hstep⟩ | ⟨hq, hstep⟩
  · have hafter := Action.after_of_ok hstep
    refine entersFrame_of_after hafter hroom fun _ => ?_
    rw [hafter]
    exact ⟨hstep, Int.toNat_of_nonneg hq⟩
  · have hafter := Action.after_of_error hstep
    exact entersFrame_of_after hafter hroom fun hq' => absurd hq (Int.not_lt.2 hq')

/-- The stack underflows just if there is no frame, in the store or outside. -/
theorem step_underflow_iff :
    step m = .error .stackUnderflow m.fetched ↔ m.frameStart? p = none := by
  have hfaults : Fault.addressOutOfStore ≠ .stackUnderflow := by decide
  constructor
  · intro h
    by_contra hsome
    obtain ⟨frame, hframe⟩ := Option.ne_none_iff_exists'.1 hsome
    by_cases hroom : frame + returnLink < m.store.cells.size
    · rcases step_in_frame hcode hframe hroom with ⟨-, hstep⟩ | ⟨-, hstep⟩
      · exact nomatch hstep.symm.trans h
      · injection hstep.symm.trans h with hf
        exact hfaults hf
    · have hperform : perform ⟨.cup, p, q⟩ m.fetched =
          .error .addressOutOfStore { m.fetched with mp := frame } :=
        enterFrame_outside (m := m.fetched) hframe (Nat.not_lt.1 hroom)
      injection (step_of_error hcode hperform).symm.trans h with hf
      exact hfaults hf
  · intro h
    exact step_of_error hcode (enterFrame_underflow (m := m.fetched) h)

/-- A size that leaves room for the links is counted as it is. -/
theorem callsExactly_of_lt (hsp : m.sp < m.store.cells.size) (hp : p + 3 < 0x8000000000000000) :
    CallsExactly p q m := by
  have hlink : returnLink = 3 := rfl
  cases hframe : m.frameStart? p with
  | none => exact Or.inr ((step_underflow_iff hcode).2 hframe)
  | some frame =>
    obtain ⟨heq, -⟩ := (frameStart?_of_lt hp).1 hframe
    exact Or.inl ⟨frame, by omega, heq, entersFrame hcode hframe (by omega)⟩

/-- A stack is not as high as a size that leaves no room for the links, so that no frame is right. -/
theorem callsExactly_iff_of_ge (hsp : m.sp < m.store.cells.size)
    (hsize : m.store.cells.size ≤ 0x8000000000000000) (hp : 0x8000000000000000 ≤ p + 3)
    (hp' : p < 0x10000000000000000) : CallsExactly p q m ↔
      (p : Int) + 3 ≤ m.sp + 0x8000000000000000 ∨ m.sp + 0x10000000000000000 < p + 3 := by
  have hnone : ¬ ∃ frame : Nat, (p : Int) + 3 ≤ m.sp ∧ (frame : Int) = m.sp - (p + 3) ∧
      EntersFrame q frame m := by
    rintro ⟨frame, hlow, -, -⟩
    omega
  have hstart : ∀ frame, m.frameStart? p = some frame ↔
      (frame : Int) = m.sp + 0x10000000000000000 - (p + 3) ∧ frame < 0x8000000000000000 :=
    fun _ => frameStart?_of_ge hp hp'
  unfold CallsExactly
  rw [or_iff_right hnone, step_underflow_iff hcode, Option.eq_none_iff_forall_ne_some]
  constructor
  · intro h
    by_contra hin
    exact h (m.sp + 0x10000000000000000 - (p + 3)).toNat ((hstart _).2 (by omega))
  · intro h frame hframe
    have := (hstart frame).1 hframe
    omega

omit hcode

open Statement (Tables assembleText)

/-- **Where a call enters its frame.** Let a call be assembled from a line, with a size of up to
`2 ^ 64 - 1`, and be performed over a stack that lies in the store. The step enters the frame below the
parameters and the links, or the stack underflows and nothing happens, just if the size with the links
is at most `2 ^ 63` above the top of the stack, or more than `2 ^ 64`. In between only the latter would be
right, but a frame is looked for `2 ^ 64` cells above its place, and entered if it lies in the store. -/
theorem callsExactly_iff {text t : LineText} {site : Nat} {tables tables' : Tables} {i : Instruction}
    (hname : Lexeme.name text = .ok "CUP" t) (h : assembleText text site tables = .ok i tables') :
    ∃ p label u v, Lexeme.unsigned t = .ok p u ∧ Lexeme.label u = .ok label v ∧
      i.op = .cup ∧ i.p = p ∧ p < 0x10000000000000000 ∧
      ∀ (m : Machine) (q : Word), m.code[m.pc]? = some ⟨.cup, p, q⟩ →
        -1 ≤ m.sp → m.sp < m.store.cells.size → m.store.cells.size ≤ 0x8000000000000000 →
        (CallsExactly p q m ↔
          (p : Int) + 3 ≤ m.sp + 0x8000000000000000 ∨ m.sp + 0x10000000000000000 < p + 3) ∧
        ∀ frame : Nat, (frame : Int) = m.sp + 0x10000000000000000 - (p + 3) →
          frame + returnLink < m.store.cells.size → EntersFrame q frame m := by
  obtain ⟨p, label, u, v, hp, hlabel, hop, hi⟩ := Statement.assembleText_cup hname h
  have hlt := Lexeme.unsigned_lt hp
  refine ⟨p, label, u, v, hp, hlabel, hop, hi, hlt, fun m q hcode hlow hsp hsize => ?_⟩
  by_cases hroom : p + 3 < 0x8000000000000000
  · -- a stack is at least `-1`, so that a size that is counted as it is lies in the range
    have hexact := callsExactly_of_lt (q := q) hcode hsp hroom
    refine ⟨iff_of_true hexact (Or.inl (by omega)), fun frame hframe hin => ?_⟩
    omega
  · refine ⟨callsExactly_iff_of_ge hcode hsp hsize (by omega) hlt, fun frame hframe hin => ?_⟩
    exact entersFrame hcode ((frameStart?_of_ge (by omega) hlt).2 ⟨hframe, by omega⟩) hin

/-- A machine with three cells on its stack, at a call for parameters of `2 ^ 64 - 1` cells. -/
def calling : Machine where
  pc := 0
  mp := 0
  sp := 2
  np := 4
  code := #[⟨.cup, 0xffffffffffffffff, 0⟩]
  store := ⟨default, #[.undefined, .undefined, .undefined, .undefined], default⟩
  files := default

theorem callsExactly_iff_calling :
    ¬ CallsExactly 0xffffffffffffffff 0 calling ∧ EntersFrame 0 0 calling ∧
      (step.after calling).store.cells = #[.undefined, .undefined, .undefined, .mark 1] := by
  have hname : Lexeme.name "CUP 18446744073709551615 L0".toList =
      .ok "CUP" " 18446744073709551615 L0".toList := rfl
  have hread : Lexeme.unsigned " 18446744073709551615 L0".toList =
      .ok 0xffffffffffffffff " L0".toList := rfl
  obtain ⟨i, tables', h⟩ : ∃ i tables', assembleText "CUP 18446744073709551615 L0".toList 0
      ⟨default, .new 0⟩ = .ok i tables' := ⟨_, _, rfl⟩
  obtain ⟨p, label, u, v, hp, -, -, -, -, hcalls⟩ := callsExactly_iff hname h
  obtain ⟨rfl, -⟩ : p = 0xffffffffffffffff ∧ u = " L0".toList := by
    rw [hread] at hp
    injection hp with hp hu
    exact ⟨hp.symm, hu.symm⟩
  obtain ⟨hexact, hframe⟩ := hcalls calling 0 rfl (by decide) (by decide) (by decide)
  have henters : EntersFrame 0 0 calling := hframe 0 (by decide) (by decide)
  refine ⟨fun h => absurd (hexact.1 h) (by decide), henters, ?_⟩
  rw [henters.store]
  rfl

end Machine

end PMachine
