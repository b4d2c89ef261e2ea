import PMachine.Proofs.Machine.Steady

/-!
# Calls and returns

A call marks the stack, evaluates its arguments, enters the frame and reserves its variables; a
return leaves it. The linkage of a frame stands in ordinary cells: the call fills it in two steps and
the return reads it back. Between these two anything may happen that spares the linkage of the frames
that are open, further calls included.

* `Machine.Balanced`: a run in which every call is matched by its return.
* `Machine.Call`: the five instructions of a call, with the runs between them left open.
* `Machine.Balanced.kept`: a balanced run comes back to the frame in which it starts.
* `Machine.call_returns`: so a call comes back to its caller, however deep the calls within it go.
-/

namespace PMachine.Machine

open PMachine.Action (Keeps bind_eq_ok)

variable {m m' : Machine}

/-! ### Single instructions -/

/-- The instruction at the program counter is executed and succeeds. -/
def Executes (i : Instruction) (m m' : Machine) : Prop :=
  m.code[m.pc]? = some i ∧ step m = .ok (i.op ≠ .stp) m'

/-- An instruction that is executed is performed with the program counter behind it. -/
theorem Executes.perform {i : Instruction} (h : Executes i m m') :
    perform i { m with pc := m.pc + 1 } = .ok () m' := by
  obtain ⟨hi, hstep⟩ := h
  have hfetch : fetch m = .ok i { m with pc := m.pc + 1 } := by
    rw [fetch, Action.bind_of_ok (Action.get_apply m), hi]
    rfl
  rw [step, Action.bind_of_ok hfetch] at hstep
  obtain ⟨_, m₁, hrun, hlast⟩ := bind_eq_ok.1 hstep
  cases hlast
  exact hrun

/-- The current frame and the number of cells. -/
def frameAndSize (m : Machine) : Nat × Nat := (m.mp, m.store.cells.size)

/-- The frame and the size of the store are kept by all instructions but calls and returns. -/
theorem steady_frameAndSize : Steady frameAndSize where
  registers _ _ _ _ := rfl
  files _ _ := rfl
  cells m cells h := by simp only [frameAndSize, h]

/-- Every instruction but a call and a return stays in its frame. -/
theorem Executes.kept {i : Instruction} (h : Executes i m m') (hcup : i.op ≠ .cup)
    (hret : i.op ≠ .ret) : m'.mp = m.mp ∧ m'.store.cells.size = m.store.cells.size := by
  have hview : frameAndSize m' = frameAndSize { m with pc := m.pc + 1 } :=
    (perform_keeps steady_frameAndSize hcup hret).ok h.perform
  exact ⟨congrArg Prod.fst hview, congrArg Prod.snd hview⟩

/-- What is read is the cell, and reading changes nothing. -/
theorem read_ok {a : Nat} {c : Cell} (h : read a m = .ok c m') :
    m.store.cells[a]? = some c ∧ m' = m := by
  rw [read, Action.bind_of_ok (Action.get_apply m)] at h
  obtain ⟨hread, rfl⟩ := Action.lift_eq_ok.1 h
  unfold Store.read at hread
  split at hread
  · rename_i hc
    cases hread
    exact ⟨hc, rfl⟩
  · cases hread

/-- What is written goes to a cell of the store and nowhere else. -/
theorem write_ok {a : Nat} {c : Cell} (h : write a c m = .ok () m') :
    a < m.store.cells.size ∧
      m' = { m with store := { m.store with cells := m.store.cells.setIfInBounds a c } } := by
  rcases Nat.lt_or_ge a m.store.cells.size with ha | ha
  · rw [write_eq ha] at h
    cases h
    exact ⟨ha, rfl⟩
  · rw [write_error ha] at h
    cases h

/-- A push that succeeds writes the cell above the stack. -/
theorem push_ok {c : Cell} (h : push c m = .ok () m') :
    Address.ofSigned (m.sp + 1) < m.store.cells.size ∧
      m' = { m with
        sp := m.sp + 1
        store := { m.store with
          cells := m.store.cells.setIfInBounds (Address.ofSigned (m.sp + 1)) c } } := by
  rw [push, Action.bind_of_ok (Action.get_apply m)] at h
  by_cases hfull : m.np ≤ Address.ofSigned (m.sp + 1)
  · simp only [if_pos hfull] at h
    cases h
  · simp only [if_neg hfull] at h
    obtain ⟨_, m₁, hsp, hwrite⟩ := bind_eq_ok.1 h
    cases hsp
    exact write_ok hwrite

/-- The mark of a new frame: a result, the static link, the dynamic link and the return address. -/
theorem markStack_ok {p : Nat} (h : markStack p m = .ok () m') :
    ∃ link, base p m = .ok link m ∧ Address.ofSigned (m.sp + 3) < m.store.cells.size ∧
      m' = { m with
        sp := m.sp + 4
        store := { m.store with
          cells := (((m.store.cells.setIfInBounds (Address.ofSigned (m.sp + 1)) .undefined).setIfInBounds
            (Address.ofSigned (m.sp + 2)) (.mark link)).setIfInBounds
            (Address.ofSigned (m.sp + 3)) (.mark m.mp)).setIfInBounds
            (Address.ofSigned (m.sp + 4)) .undefined } } := by
  obtain ⟨link, m₀, hbase, hpushes⟩ := bind_eq_ok.1 h
  have hsame : id m₀ = id m := (Keeps.bind .get fun _ => follow_keeps p _).ok hbase
  obtain rfl : m₀ = m := hsame
  rw [Action.bind_of_ok (Action.get_apply m₀)] at hpushes
  obtain ⟨_, m₁, hpush₁, hpushes⟩ := bind_eq_ok.1 hpushes
  obtain ⟨-, rfl⟩ := push_ok hpush₁
  obtain ⟨_, m₂, hpush₂, hpushes⟩ := bind_eq_ok.1 hpushes
  obtain ⟨-, rfl⟩ := push_ok hpush₂
  obtain ⟨_, m₃, hpush₃, hpush₄⟩ := bind_eq_ok.1 hpushes
  obtain ⟨hlt, rfl⟩ := push_ok hpush₃
  obtain ⟨-, rfl⟩ := push_ok hpush₄
  have h2 : m₀.sp + 1 + 1 = m₀.sp + 2 := by omega
  have h3 : m₀.sp + 2 + 1 = m₀.sp + 3 := by omega
  have h4 : m₀.sp + 3 + 1 = m₀.sp + 4 := by omega
  simp only [Array.size_setIfInBounds, h2, h3] at hlt
  refine ⟨link, hbase, hlt, ?_⟩
  simp only [h2, h3, h4]

/-- A call that succeeds enters the frame that its number of parameters names and links it to the caller.
-/
theorem enterFrame_ok {p : Nat} {q : Word} (h : enterFrame p q m = .ok () m') :
    m.frameStart? p = some m'.mp ∧ m'.mp + 3 < m.store.cells.size ∧
      m'.store = { m.store with cells := m.store.cells.setIfInBounds (m'.mp + 3) (.mark m.pc) } := by
  rw [enterFrame, Action.bind_of_ok (Action.get_apply m)] at h
  obtain ⟨frame, m₁, hstart, h⟩ := bind_eq_ok.1 h
  obtain ⟨hframe, rfl⟩ := Action.orFault_eq_ok.1 hstart
  obtain ⟨_, m₂, hmp, h⟩ := bind_eq_ok.1 h
  cases hmp
  obtain ⟨_, m₃, hwrite, h⟩ := bind_eq_ok.1 h
  obtain ⟨hlt, rfl⟩ := write_ok hwrite
  obtain ⟨a, m₄, hoff, h⟩ := bind_eq_ok.1 h
  obtain ⟨-, rfl⟩ := Action.orFault_eq_ok.1 hoff
  cases h
  exact ⟨hframe, hlt, rfl⟩

/-- A return that succeeds goes to where the links of its frame lead. -/
theorem leaveFrame_ok {p : Nat} (h : leaveFrame p m = .ok () m') :
    m'.sp = (if p = 0 then Address.signed m.mp - 1 else Address.signed m.mp) ∧ m'.store = m.store ∧
      (∃ c, m.store.cells[m.mp + 3]? = some c ∧ c.asAddress = .ok m'.pc) ∧
      ∃ d, m.store.cells[m.mp + 2]? = some d ∧ d.asAddress = .ok m'.mp := by
  rw [leaveFrame, Action.bind_of_ok (Action.get_apply m)] at h
  obtain ⟨_, m₁, hsp, h⟩ := bind_eq_ok.1 h
  cases hsp
  obtain ⟨c, m₂, hread, h⟩ := bind_eq_ok.1 h
  obtain ⟨hc, rfl⟩ := read_ok hread
  obtain ⟨pc, m₃, hlift, h⟩ := bind_eq_ok.1 h
  obtain ⟨hpc, rfl⟩ := Action.lift_eq_ok.1 hlift
  obtain ⟨_, m₄, hset, h⟩ := bind_eq_ok.1 h
  cases hset
  obtain ⟨d, m₅, hread', h⟩ := bind_eq_ok.1 h
  obtain ⟨hd, rfl⟩ := read_ok hread'
  obtain ⟨mp, m₆, hlift', h⟩ := bind_eq_ok.1 h
  obtain ⟨hmp, rfl⟩ := Action.lift_eq_ok.1 hlift'
  cases h
  exact ⟨rfl, rfl, ⟨c, hc, hpc⟩, d, hd, hmp⟩

/-! ### Runs -/

/-- The cells of the linkage of the frames are the same before and after. -/
def Spares (frames : List Nat) (m m' : Machine) : Prop :=
  ∀ f ∈ frames, ∀ i ∈ [staticLink, dynamicLink, returnLink],
    m'.store.cells[f + i]? = m.store.cells[f + i]?

instance (frames : List Nat) (m m' : Machine) : Decidable (Spares frames m m') :=
  inferInstanceAs (Decidable (∀ f ∈ frames, ∀ i ∈ [staticLink, dynamicLink, returnLink],
    m'.store.cells[f + i]? = m.store.cells[f + i]?))

/-- The frame that marking the stack starts. -/
def nextFrame (m : Machine) : Nat := (m.sp + 1).toNat

/-- The instructions of a call with `k` cells of arguments that returns with `RET t`: it marks the
stack, has its arguments there, enters the frame, reserves its variables and leaves it. The linkage of
the frames that are open is spared throughout, that of the new frame once it is built. -/
structure Call (frames : List Nat) (k t : Nat)
    (m marked argued entered started finished returned : Machine) : Prop where
  mark : ∃ p q, Executes ⟨.mst, p, q⟩ m marked
  mark_spares : Spares frames m marked
  arguments : argued.sp = marked.sp + k
  arguments_lt : k < 0x8000000000000000 - 3
  enter : ∃ q, Executes ⟨.cup, k, q⟩ argued entered
  enter_spares : Spares frames argued entered
  reserve : ∃ p q, Executes ⟨.ent, p, q⟩ entered started
  reserve_spares : Spares (nextFrame m :: frames) entered started
  leave : ∃ q, Executes ⟨.ret, t, q⟩ finished returned

/-- A run in which every call is matched by its return and the linkage of the frames that are open is
left alone. -/
inductive Balanced : List Nat → Machine → Machine → Prop where
  | done (frames : List Nat) (m : Machine) : Balanced frames m m
  | step {frames : List Nat} {m m₁ m' : Machine} {i : Instruction} (h : Executes i m m₁)
      (hcup : i.op ≠ .cup) (hret : i.op ≠ .ret) (hspares : Spares frames m m₁)
      (rest : Balanced frames m₁ m') : Balanced frames m m'
  | call {frames : List Nat} {k t : Nat}
      {m marked argued entered started finished returned m' : Machine}
      (h : Call frames k t m marked argued entered started finished returned)
      (arguments : Balanced (nextFrame m :: frames) marked argued)
      (body : Balanced (nextFrame m :: frames) started finished)
      (rest : Balanced frames returned m') : Balanced frames m m'

/-- What a balanced run keeps: the frame, the number of cells and the linkage of the open frames. -/
structure Kept (frames : List Nat) (m m' : Machine) : Prop where
  mp : m'.mp = m.mp
  size : m'.store.cells.size = m.store.cells.size
  spares : Spares frames m m'

theorem Spares.trans {frames : List Nat} {m₁ : Machine} (h : Spares frames m m₁)
    (h' : Spares frames m₁ m') : Spares frames m m' := fun f hf i hi =>
  (h' f hf i hi).trans (h f hf i hi)

/-- Runs that spare frames spare fewer of them. -/
theorem Spares.tail {frame : Nat} {frames : List Nat} (h : Spares (frame :: frames) m m') :
    Spares frames m m' := fun f hf => h f (List.mem_cons_of_mem _ hf)

theorem Kept.trans {frames : List Nat} {m₁ : Machine} (h : Kept frames m m₁) (h' : Kept frames m₁ m') :
    Kept frames m m' :=
  ⟨h'.mp.trans h.mp, h'.size.trans h.size, h.spares.trans h'.spares⟩

/-! ### Calls -/

namespace Call

variable {frames : List Nat} {k t : Nat} {marked argued entered started finished returned : Machine}

/-- Marking the stack leaves the dynamic link in the new frame. -/
theorem marked_link (h : Call frames k t m marked argued entered started finished returned)
    (hlow : 0 ≤ m.sp + 1) (hhigh : m.sp + 4 < 0x8000000000000000) :
    marked.store.cells[nextFrame m + dynamicLink]? = some (.mark m.mp) := by
  obtain ⟨p, q, hmst⟩ := h.mark
  obtain ⟨link, -, hlt, rfl⟩ := markStack_ok hmst.perform
  have hthree : Address.ofSigned (m.sp + 3) = nextFrame m + dynamicLink := by
    unfold Address.ofSigned nextFrame dynamicLink
    omega
  have hfour : Address.ofSigned (m.sp + 4) ≠ nextFrame m + dynamicLink := by
    unfold Address.ofSigned nextFrame dynamicLink
    omega
  simp only [hthree] at hlt ⊢
  rw [Array.getElem?_setIfInBounds_ne hfour, Array.getElem?_setIfInBounds_self_of_lt]
  simpa only [Array.size_setIfInBounds] using hlt

/-- A marked stack has four cells more, in the same frame. -/
theorem marked_sp (h : Call frames k t m marked argued entered started finished returned) :
    marked.sp = m.sp + 4 ∧ marked.mp = m.mp ∧
      marked.store.cells.size = m.store.cells.size := by
  obtain ⟨p, q, hmst⟩ := h.mark
  obtain ⟨hmp, hsize⟩ := hmst.kept nofun nofun
  obtain ⟨link, -, hlt, hm⟩ := markStack_ok hmst.perform
  exact ⟨by rw [hm], hmp, hsize⟩

/-- Entering makes the marked frame current and completes its linkage. -/
theorem entered_frame (h : Call frames k t m marked argued entered started finished returned)
    (harg : Kept (nextFrame m :: frames) marked argued)
    (hsize : m.store.cells.size ≤ 0x8000000000000000) :
    (nextFrame m : Int) = m.sp + 1 ∧ entered.mp = nextFrame m ∧
      entered.store.cells.size = m.store.cells.size ∧ nextFrame m + 3 < m.store.cells.size ∧
      entered.store.cells[nextFrame m + dynamicLink]? = some (.mark m.mp) ∧
      entered.store.cells[nextFrame m + returnLink]? = some (.mark (argued.pc + 1)) := by
  obtain ⟨hsp, -, hmarked⟩ := h.marked_sp
  obtain ⟨q, hcup⟩ := h.enter
  obtain ⟨hstart, hlt, hstore⟩ := enterFrame_ok hcup.perform
  have hk := h.arguments_lt
  have harguments := h.arguments
  have hframe : (entered.mp : Int) = argued.sp - (k + 3) :=
    ((frameStart?_of_lt (m := argued) (p := k) (by omega)).1 hstart).1
  -- the mark is four cells long, and the call goes back over three of them and the arguments
  have hnext : (nextFrame m : Int) = m.sp + 1 := by unfold nextFrame; omega
  have hmp : entered.mp = nextFrame m := by omega
  have hargued : argued.store.cells.size = m.store.cells.size := harg.size.trans hmarked
  simp only [hmp, hargued] at hlt
  rw [hmp] at hstore
  have hsame : argued.store.cells[nextFrame m + dynamicLink]? = some (.mark m.mp) := by
    rw [harg.spares (nextFrame m) List.mem_cons_self dynamicLink (by decide)]
    exact h.marked_link (by omega) (by omega)
  refine ⟨hnext, hmp, ?_, hlt, ?_, ?_⟩
  · rw [hstore, Array.size_setIfInBounds]
    exact hargued
  · rw [hstore, Array.getElem?_setIfInBounds_ne (by unfold dynamicLink; omega)]
    exact hsame
  · rw [hstore]
    exact Array.getElem?_setIfInBounds_self_of_lt (by rw [hargued]; exact hlt)

/-- A procedure that has reserved its variables is still in its frame. -/
theorem started_kept (h : Call frames k t m marked argued entered started finished returned) :
    started.mp = entered.mp ∧ started.store.cells.size = entered.store.cells.size := by
  obtain ⟨p, q, hent⟩ := h.reserve
  exact hent.kept nofun nofun

/-- **A call comes back**, if the runs between its instructions stay in their frames. -/
theorem returns (h : Call frames k t m marked argued entered started finished returned)
    (harg : Kept (nextFrame m :: frames) marked argued)
    (hbody : Kept (nextFrame m :: frames) started finished)
    (hsize : m.store.cells.size ≤ 0x8000000000000000) :
    finished.mp = nextFrame m ∧ returned.mp = m.mp ∧ returned.pc = argued.pc + 1 ∧
      returned.sp = (if t = 0 then m.sp else m.sp + 1) ∧ returned.store = finished.store ∧
      finished.store.cells.size = m.store.cells.size := by
  obtain ⟨hnext, hmp, hentered, hlt, hdynamic, hreturn⟩ := h.entered_frame harg hsize
  obtain ⟨hstarted, hstartedSize⟩ := h.started_kept
  have hfinished : finished.mp = nextFrame m := by rw [hbody.mp, hstarted, hmp]
  -- nothing has touched the linkage since it was complete
  have hspares := h.reserve_spares.trans hbody.spares
  rw [← hspares (nextFrame m) List.mem_cons_self dynamicLink (by decide)] at hdynamic
  rw [← hspares (nextFrame m) List.mem_cons_self returnLink (by decide)] at hreturn
  obtain ⟨q', hret⟩ := h.leave
  obtain ⟨hsp, hstore, ⟨c, hc, hpc⟩, d, hd, hmp'⟩ := leaveFrame_ok hret.perform
  simp only [hfinished] at hsp hc hd
  have hc : finished.store.cells[nextFrame m + returnLink]? = some c := hc
  have hd : finished.store.cells[nextFrame m + dynamicLink]? = some d := hd
  rw [hreturn] at hc
  rw [hdynamic] at hd
  cases hc
  cases hd
  refine ⟨hfinished, ?_, ?_, ?_, hstore, ?_⟩
  · exact (Except.ok.inj hmp').symm
  · exact (Except.ok.inj hpc).symm
  · rw [hsp, Address.signed_of_lt (by omega), hnext]
    by_cases ht : t = 0
    · rw [if_pos ht, if_pos ht]
      omega
    · rw [if_neg ht, if_neg ht]
  · rw [hbody.size, hstartedSize, hentered]

/-- A call keeps what a balanced run keeps. -/
theorem kept (h : Call frames k t m marked argued entered started finished returned)
    (harg : Kept (nextFrame m :: frames) marked argued)
    (hbody : Kept (nextFrame m :: frames) started finished)
    (hsize : m.store.cells.size ≤ 0x8000000000000000) : Kept frames m returned := by
  obtain ⟨-, hmp, -, -, hstore, hcells⟩ := h.returns harg hbody hsize
  refine ⟨hmp, by rw [hstore, hcells], ?_⟩
  have hto : Spares frames m finished :=
    (((h.mark_spares.trans harg.spares.tail).trans h.enter_spares).trans
      h.reserve_spares.tail).trans hbody.spares.tail
  intro f hf i hi
  rw [hstore]
  exact hto f hf i hi

end Call

/-- **A balanced run comes back** to the frame in which it starts. -/
theorem Balanced.kept {frames : List Nat} (h : Balanced frames m m') :
    m.store.cells.size ≤ 0x8000000000000000 → Kept frames m m' := by
  -- one case for each way to go on; a call has its arguments, its body and what follows it below it
  induction h with
  | done frames m => intro _; exact ⟨rfl, rfl, fun _ _ _ _ => rfl⟩
  | step hrun hcup hret hspares _ ih =>
    intro hsize
    obtain ⟨hmp, hcells⟩ := hrun.kept hcup hret
    exact Kept.trans ⟨hmp, hcells, hspares⟩ (ih (by omega))
  | call hcall _ _ _ iharg ihbody ihrest =>
    intro hsize
    -- the arguments first: the body starts from the frame that they leave to enter
    have harg := iharg (by rw [hcall.marked_sp.2.2]; exact hsize)
    have hstarted := hcall.started_kept.2
    have hentered := (hcall.entered_frame harg hsize).2.2.1
    have hbody := ihbody (by omega)
    have hkept := hcall.kept harg hbody hsize
    exact hkept.trans (ihrest (by rw [hkept.size]; exact hsize))

/-- **Calls nest.** The frame of a call starts right above the stack of its caller. After its return
the frame of the caller is current again, the code goes on behind the call, and the stack is as it was
before the call, with the result of a function on top. The arguments and the body may hold calls in
turn, to any depth. Cells are addressed by words of 64 bits, so no store has more than `2 ^ 63`. -/
theorem call_returns {frames : List Nat} {k t : Nat}
    {m marked argued entered started finished returned : Machine}
    (h : Call frames k t m marked argued entered started finished returned)
    (harguments : Balanced (nextFrame m :: frames) marked argued)
    (hbody : Balanced (nextFrame m :: frames) started finished)
    (hsize : m.store.cells.size ≤ 0x8000000000000000) :
    (entered.mp : Int) = m.sp + 1 ∧ finished.mp = entered.mp ∧
      returned.mp = m.mp ∧ returned.pc = argued.pc + 1 ∧
      returned.sp = (if t = 0 then m.sp else m.sp + 1) ∧ returned.store = finished.store ∧
      ∃ c, finished.store.read entered.mp = .ok c ∧ (t ≠ 0 → peek 0 returned = .ok c returned) := by
  have harg := harguments.kept (by rw [h.marked_sp.2.2]; exact hsize)
  obtain ⟨hnext, hmp, hentered, hlt, -⟩ := h.entered_frame harg hsize
  have hkept := hbody.kept (by rw [h.started_kept.2, hentered]; exact hsize)
  obtain ⟨hfinished, hcaller, hpc, hsp, hstore, hcells⟩ := h.returns harg hkept hsize
  refine ⟨by rw [hmp]; exact hnext, by rw [hfinished, hmp], hcaller, hpc, hsp, hstore, ?_⟩
  have hin : nextFrame m < finished.store.cells.size := by omega
  have hread : finished.store.read (nextFrame m) = .ok finished.store.cells[nextFrame m] := by
    rw [Store.read, Array.getElem?_eq_getElem hin]
  refine ⟨finished.store.cells[nextFrame m], by rw [hmp]; exact hread, fun ht => ?_⟩
  rw [if_neg ht] at hsp
  have htop : returned.sp - (0 : Nat) = nextFrame m := by omega
  have hbelow : below 0 returned = .ok (nextFrame m) returned := by
    rw [below, Action.bind_of_ok (Action.get_apply returned)]
    simp only [htop]
    rw [if_pos (Int.natCast_nonneg _)]
    rfl
  rw [peek, Action.bind_of_ok hbelow, read, Action.bind_of_ok (Action.get_apply returned), hstore, hread]
  rfl

/-- A machine before the call of a procedure that calls a function in turn. -/
def nested : Machine where
  pc := 0
  mp := 5
  sp := 10
  np := 32
  code := #[⟨.mst, 0, 0⟩, ⟨.cup, 0, 3⟩, ⟨.stp, 0, 0⟩, ⟨.ent, 0, 5⟩, ⟨.mst, 0, 0⟩, ⟨.cup, 0, 7⟩,
    ⟨.ret, 0, 0⟩, ⟨.ent, 0, 5⟩, ⟨.ret, 1, 0⟩]
  store := ⟨default, Array.replicate 32 .undefined, default⟩
  files := default

/-- The same machine after a number of steps. -/
def nestedAfter : Nat → Machine
  | 0 => nested
  | n + 1 => step.after (nestedAfter n)

theorem call_returns_nested : (nestedAfter 2).mp = 11 ∧ (nestedAfter 5).mp = 17 ∧
    (nestedAfter 8).mp = 5 ∧ (nestedAfter 8).pc = 2 ∧ (nestedAfter 8).sp = 10 := by
  have inner : Call [11] 0 1 (nestedAfter 3) (nestedAfter 4) (nestedAfter 4) (nestedAfter 5)
      (nestedAfter 6) (nestedAfter 6) (nestedAfter 7) :=
    ⟨⟨0, 0, rfl, rfl⟩, by decide +kernel, rfl, by decide, ⟨7, rfl, rfl⟩, by decide +kernel,
      ⟨0, 5, rfl, rfl⟩, by decide +kernel, ⟨0, rfl, rfl⟩⟩
  have outer : Call [] 0 0 nested (nestedAfter 1) (nestedAfter 1) (nestedAfter 2) (nestedAfter 3)
      (nestedAfter 7) (nestedAfter 8) :=
    ⟨⟨0, 0, rfl, rfl⟩, by decide +kernel, rfl, by decide, ⟨3, rfl, rfl⟩, by decide +kernel,
      ⟨0, 5, rfl, rfl⟩, by decide +kernel, ⟨0, rfl, rfl⟩⟩
  obtain ⟨hframe, -⟩ := call_returns inner (.done _ _) (.done _ _) (by decide +kernel)
  obtain ⟨hframe', -, hmp, hpc, hsp, -⟩ := call_returns outer (.done _ _)
    (.call inner (.done _ _) (.done _ _) (.done _ _)) (by decide +kernel)
  have hinner : (nestedAfter 3).sp + 1 = 17 := by decide +kernel
  have houter : nested.sp + 1 = 11 := rfl
  exact ⟨by omega, by omega, hmp, hpc, hsp⟩

end PMachine.Machine
