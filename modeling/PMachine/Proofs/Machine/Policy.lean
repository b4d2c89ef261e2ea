import PMachine.Proofs.Cell
import PMachine.Proofs.Machine.Observed
import PMachine.Proofs.Machine.Stack

/-!
# What every instruction respects

A claim about all instructions is mostly about a few small actions of which they are made. A policy
says what is to hold of the machine between these actions, of the addresses in its cells and of its
effects. If the small actions respect it then all instructions do, but for those that set registers
in their own way: a call, a return and the release of heap blocks.

* `Observed.Ends`: what the effects and the end of an action are.
* `Policy`: what is to hold, with the small actions respecting it.
* `Policy.perform_ends`, `Policy.step_ends`: instructions and steps respect it.
-/

namespace PMachine

namespace Observed

variable {α β : Type} {x y : Action Machine α}

/-- From `m` an action has effects with `E` only, and ends with `Q` or else with a fault and `F`. -/
structure Ends (E : Effect → Prop) (F : Machine → Prop) (r : Observed x) (Q : α → Machine → Prop)
    (m : Machine) : Prop where
  effects : ∀ e ∈ r.effects m, E e
  ok : ∀ a m', x m = .ok a m' → Q a m'
  fault : ∀ f m', x m = .error f m' → F m'

namespace Ends

variable {E : Effect → Prop} {F : Machine → Prop} {Q : α → Machine → Prop} {m : Machine}

/-- Two actions, one after the other: the second one starts from whatever the first one ends with. -/
theorem bind {k : α → Action Machine β} {first : Observed x} {next : ∀ a, Observed (k a)}
    {Q : β → Machine → Prop} (h : Ends E F first (fun a => Ends E F (next a) Q) m) :
    Ends E F (andThen first next) Q m := by
  cases hrun : x m with
  | ok a m₁ =>
    have hk := h.ok a m₁ hrun
    refine ⟨fun e he => ?_, fun b m' hb => hk.ok b m' ?_, fun f m' hf => hk.fault f m' ?_⟩
    · rw [effects_andThen_of_ok hrun] at he
      exact (List.mem_append.1 he).elim (h.effects e) (hk.effects e)
    · rwa [Action.bind_of_ok hrun] at hb
    · rwa [Action.bind_of_ok hrun] at hf
  | error f m₁ =>
    refine ⟨fun e he => ?_, fun b m' hb => ?_, fun g m' hg => ?_⟩
    · rw [effects_andThen_of_error hrun] at he
      exact h.effects e he
    · rw [Action.bind_of_error hrun] at hb
      cases hb
    · rw [Action.bind_of_error hrun] at hg
      cases hg
      exact h.fault f m₁ hrun

theorem mono {r : Observed x} {R : α → Machine → Prop} (h : Ends E F r R m)
    (hq : ∀ a m', R a m' → Q a m') : Ends E F r Q m :=
  ⟨h.effects, fun a m' ha => hq a m' (h.ok a m' ha), h.fault⟩

/-- An action without effects is judged by how it ends. -/
theorem silent {r : Observed x} (hr : r.effects m = []) (hok : ∀ a m', x m = .ok a m' → Q a m')
    (hfault : ∀ f m', x m = .error f m' → F m') : Ends E F r Q m :=
  ⟨fun _ he => absurd (hr ▸ he) List.not_mem_nil, hok, hfault⟩

theorem pure {a : α} (h : Q a m) : Ends E F (Observed.pure a) Q m :=
  silent rfl (fun _ _ heq => by cases heq; exact h) fun _ _ heq => by cases heq

theorem look {Q : Machine → Machine → Prop} (h : Q m m) : Ends E F look Q m :=
  silent rfl (fun _ _ heq => by cases heq; exact h) fun _ _ heq => by cases heq

theorem fail {f : Fault} (h : F m) : Ends E F (Observed.fail f) Q m :=
  silent rfl (fun _ _ heq => by cases heq) fun _ _ heq => by cases heq; exact h

theorem failed {f : Fault} {k : β → Action Machine α} (h : F m) : Ends E F (Observed.failed f k) Q m :=
  silent rfl (fun _ _ heq => by cases heq) fun _ _ heq => by cases heq; exact h

theorem lift {x : Except Fault α} (hF : F m) (h : ∀ a, x = .ok a → Q a m) :
    Ends E F (Observed.lift x) Q m := by
  refine silent rfl (fun a m' heq => ?_) fun f m' heq => ?_
  · obtain ⟨hx, rfl⟩ := Action.lift_eq_ok.1 heq
    exact h a hx
  · cases x <;> cases heq
    exact hF

theorem orFault {x : Option α} {f : Fault} (hF : F m) (h : ∀ a, x = some a → Q a m) :
    Ends E F (Observed.orFault x f) Q m := by
  refine silent rfl (fun a m' heq => ?_) fun f m' heq => ?_
  · obtain ⟨hx, rfl⟩ := Action.orFault_eq_ok.1 heq
    exact h a hx
  · cases x <;> cases heq
    exact hF

theorem change {f : Machine → Machine} {hf : ∀ m, (f m).store.cells = m.store.cells}
    {Q : Unit → Machine → Prop} (h : Q () (f m)) : Ends E F (Observed.change hf) Q m :=
  silent rfl (fun _ _ heq => by cases heq; exact h) fun _ _ heq => by cases heq

/-- An action on the files leaves all else as it is. -/
theorem onFiles {act : Action Files α} (hF : ∀ files, F { m with files })
    (h : ∀ a files, act m.files = .ok a files → Q a { m with files }) :
    Ends E F (Observed.onFiles act) Q m := by
  refine silent rfl (fun a m' heq => ?_) fun f m' heq => ?_ <;>
    simp only [Machine.onFiles, Action.zoom] at heq <;> cases hrun : act m.files <;>
    rw [hrun] at heq <;> cases heq
  · exact h _ _ hrun
  · exact hF _

/-- A cell that is read is one of the store. -/
theorem read {a : Nat} {Q : Cell → Machine → Prop} (hF : F m)
    (h : ∀ c, m.store.cells[a]? = some c → Q c m) : Ends E F (Observed.read a) Q m := by
  have hread : Machine.read a m = Action.lift (m.store.read a) m := rfl
  refine silent rfl (fun c m' heq => ?_) fun f m' heq => ?_ <;> rw [hread, Store.read] at heq <;>
    cases hc : m.store.cells[a]? <;> rw [hc] at heq <;> cases heq
  · exact h c hc
  · exact hF

/-- A number that is computed on the way is an effect of the action. -/
theorem computes {t : Range} {n : Int} {rest : Observed x} (he : E (.result t n)) (h : Ends E F rest Q m) :
    Ends E F (Observed.computes t n rest) Q m := by
  refine ⟨fun e hmem => ?_, h.ok, h.fault⟩
  rw [effects_computes] at hmem
  rcases List.mem_cons.1 hmem with rfl | hmem
  · exact he
  · exact h.effects e hmem

/-- A cell is written if there is one with the address. -/
theorem write {o : Origin} {a : Nat} {c : Cell} {Q : Unit → Machine → Prop} (he : E (.write o a))
    (hF : m.store.cells.size ≤ a → F m)
    (h : a < m.store.cells.size →
      Q () { m with store := { m.store with cells := m.store.cells.setIfInBounds a c } }) :
    Ends E F (Observed.write o a c) Q m := by
  have heffects : ∀ e ∈ (Observed.write o a c).effects m, E e := by
    rw [effects_write]
    exact fun _ hmem => List.mem_singleton.1 hmem ▸ he
  rcases Nat.lt_or_ge a m.store.cells.size with ha | ha
  · refine ⟨heffects, fun u m' heq => ?_, fun f m' heq => ?_⟩ <;> rw [Machine.write_eq ha] at heq
    · cases heq
      exact h ha
    · cases heq
  · refine ⟨heffects, fun u m' heq => ?_, fun f m' heq => ?_⟩ <;> rw [Machine.write_error ha] at heq
    · cases heq
    · cases heq
      exact hF ha

/-- One of two actions, as a condition says. -/
theorem ite {c : Prop} [Decidable c] {yes : Observed x} {no : Observed y} (hyes : c → Ends E F yes Q m)
    (hno : ¬ c → Ends E F no Q m) : Ends E F (choose (c := c) yes no) Q m := by
  by_cases hc : c
  · obtain ⟨heffects, hok, hfault⟩ := hyes hc
    refine ⟨fun e he => heffects e ?_, by rwa [if_pos hc], by rwa [if_pos hc]⟩
    rwa [effects_choose, if_pos hc] at he
  · obtain ⟨heffects, hok, hfault⟩ := hno hc
    refine ⟨fun e he => heffects e ?_, by rwa [if_neg hc], by rwa [if_neg hc]⟩
    rwa [effects_choose, if_neg hc] at he

theorem drop {n : Nat} {Q : Unit → Machine → Prop} (he : E (.result .word (m.sp - n)))
    (h : Q () { m with sp := m.sp - n }) : Ends E F (Observed.drop n) Q m :=
  ⟨fun _ hmem => List.mem_singleton.1 hmem ▸ he, fun _ _ heq => by cases heq; exact h,
    fun _ _ heq => by cases heq⟩

/-- Clearing a block keeps what each write keeps. If it succeeds then all cells of the block are in the
store, and if there is nothing to clear then it does not fail. -/
theorem clear {o : Origin} {I : Machine → Prop} {Q : Unit → Machine → Prop}
    (hset : ∀ (m : Machine) (a : Nat), I m →
      I { m with store := { m.store with cells := m.store.cells.setIfInBounds a .undefined } })
    (n : Nat) : ∀ {m : Machine} (a : Nat), I m → (∀ b, a ≤ b → b < a + n → E (.write o b)) →
      (0 < n → ∀ m', I m' → F m') →
      (∀ m', I m' → m'.store.cells.size = m.store.cells.size →
        (0 < n → a + n ≤ m.store.cells.size) → Q () m') →
      Ends E F (Observed.clear o n a) Q m := by
  induction n with
  | zero =>
    intro m a hI _ _ k
    exact .pure (k m hI rfl fun h => absurd h (Nat.lt_irrefl 0))
  | succ n ih =>
    intro m a hI he hF k
    have hfault := hF (Nat.succ_pos n)
    refine .bind <| .write (he a (Nat.le_refl a) (by omega)) (fun _ => hfault m hI) fun hlt => ?_
    refine ih (a + 1) (hset m a hI) (fun b hb hb' => he b (by omega) (by omega)) (fun _ => hfault) ?_
    intro m' hI' hsize hall
    rw [Array.size_setIfInBounds] at hsize hall
    refine k m' hI' hsize fun _ => ?_
    by_cases hn : 0 < n
    · have := hall hn
      omega
    · omega

end Ends

/-- Stepping over the file buffers moves nothing but the top of the stack, to a place above them. -/
theorem skip_cases (m : Machine) : ∃ sp : Int,
    (if m.sp < (Channel.input.number : Int) then { m with sp := Channel.prr.number } else m) = { m with sp } ∧
      (sp = 7 ∨ sp = m.sp ∧ 4 ≤ sp) := by
  have hinput : (Channel.input.number : Int) = 4 := rfl
  by_cases hlow : m.sp < (Channel.input.number : Int)
  · exact ⟨7, by rw [if_pos hlow]; rfl, Or.inl rfl⟩
  · exact ⟨m.sp, by rw [if_neg hlow], Or.inr ⟨rfl, by omega⟩⟩

end Observed

/-- Whether a standard procedure stores through an address operand. -/
def Procedure.stores : Procedure → Bool
  | get | put | rln | new | rdi | rdr | rdc | sav => true
  | rst | wln | wrs | eln | wri | wrr | wrc | sin | cos | exp | log | sqt | atn => false

/-- Whether an instruction stores through an address that the program gives. -/
def Instruction.stores (i : Instruction) : Bool :=
  match i.op with
  | .str | .sro | .sto | .mov => true
  | .csp => (Procedure.ofNumber? i.q).any Procedure.stores
  | _ => false

/-- What is to hold in the course of a step. -/
structure Policy where
  /-- Of the machine, between the small actions. -/
  holds : Machine → Prop
  /-- Of the machine that a fault leaves behind. -/
  faulted : Machine → Prop
  /-- Of addresses in registers and cells. -/
  address : Nat → Prop
  effect : Effect → Prop
  fault : ∀ {m}, holds m → faulted m
  -- where addresses come from: operands, cells, registers and the ends of blocks
  small : ∀ {a}, a < 0x8000000000000000 → address a
  lower : ∀ {a b}, address b → a ≤ b → address a
  cell : ∀ {m} {a : Nat} {c}, holds m → m.store.cells[a]? = some c → c.Points address
  next : ∀ {m a}, holds m → a < m.store.cells.size → address (a + 1)
  nil : ∀ {m}, holds m → address m.store.nil
  mp : ∀ {m}, holds m → address m.mp
  np : ∀ {m}, holds m → address m.np
  -- numbers computed on the way, from addresses and from the top of the stack
  base : ∀ {a : Nat}, address a → effect (.result .word a)
  link : ∀ {a k : Nat}, address a → k ≤ 3 → effect (.result .address (a + k : Nat))
  depth : ∀ {m} {n : Nat}, holds m → n ≤ 4 → effect (.result .word (m.sp - n))
  width : ∀ n : Nat, effect (.result .width n)
  write : ∀ {m o} {a : Nat}, holds m → o ≠ .store → (a : Int) ≤ m.sp ∨ a < m.np → effect (.write o a)
  -- small changes of the machine
  set : ∀ {m} {a : Nat} {c}, holds m → c.Points address →
    holds { m with store := { m.store with cells := m.store.cells.setIfInBounds a c } }
  files : ∀ {m} {files : Files}, holds m → holds { m with files }
  jumped : ∀ {m a}, holds m → address a → holds { m with pc := a }
  fetched : ∀ {m}, holds m → m.pc < m.code.size →
    holds { m with pc := m.pc + 1 } ∧ effect (.result .address (m.pc + 1 : Nat))
  dropped : ∀ {m} {n : Nat}, holds m → n ≤ 4 → (n : Int) ≤ m.sp + 1 → holds { m with sp := m.sp - n }
  taken : ∀ {m heap}, holds m → heap ≤ m.np → m.sp < Address.signed heap → holds { m with np := heap }
  -- two actions that pass through machines of which it need not hold
  pushed : ∀ {m c}, holds m → c.Points address →
    Observed.Ends effect faulted (Observed.push c) (fun _ => holds) m
  reserved : ∀ {m}, holds m → ∀ q,
    Observed.Ends effect faulted (Observed.reserve q) (fun _ => holds) m

namespace Policy

open Observed

variable (P : Policy) {α : Type} {m : Machine}

/-- The effects and the end of an action are as the policy demands. -/
abbrev Ends {x : Action Machine α} (r : Observed x) (Q : α → Machine → Prop) (m : Machine) : Prop :=
  Observed.Ends P.effect P.faulted r Q m

variable {P}

/-! ### Cells and the stack -/

/-- A value that is loaded points where cells may. -/
theorem load_ends {a : Nat} {Q : Cell → Machine → Prop} (h : P.holds m)
    (k : ∀ c, c.Points P.address → Q c m) : P.Ends (load a) Q m :=
  .bind <| .read (P.fault h) fun _ hc => .lift (P.fault h) fun d hd =>
    k d ((P.cell h hc).defined d hd)

/-- An address at an offset is below `2 ^ 63`, and its base is converted. -/
theorem offset_ends {base : Nat} {d : Int} {Q : Nat → Machine → Prop} (h : P.holds m)
    (hb : P.address base) (k : ∀ a, a < 0x8000000000000000 → Q a m) : P.Ends (offset base d) Q m :=
  .computes (P.base hb) <| .orFault (P.fault h) fun a ha => k a (Address.offset?_lt ha)

theorem operand_ends {q : Word} {Q : Nat → Machine → Prop} (h : P.holds m)
    (k : ∀ a, a < 0x8000000000000000 → Q a m) : P.Ends (operand q) Q m :=
  offset_ends h (P.small (by decide)) k

/-- A jump goes to an address below `2 ^ 63`. -/
theorem jump_ends (q : Word) (h : P.holds m) : P.Ends (jump q) (fun _ => P.holds) m :=
  .bind <| operand_ends h fun _ ha => .change (P.jumped h (P.small ha))

/-- A place below the top is computed, and is not below the bottom. -/
theorem below_ends {depth : Nat} {Q : Nat → Machine → Prop} (h : P.holds m) (hd : depth ≤ 4)
    (k : (depth : Int) ≤ m.sp → Q (m.sp - depth).toNat m) : P.Ends (below depth) Q m :=
  .bind <| .look <| .computes (P.depth h hd) <|
    .ite (fun hle => .pure (k (by omega))) fun _ => .fail (P.fault h)

theorem peek_ends {depth : Nat} {Q : Cell → Machine → Prop} (h : P.holds m) (hd : depth ≤ 4)
    (k : ∀ c, (depth : Int) ≤ m.sp → m.store.cells[(m.sp - depth).toNat]? = some c → Q c m) :
    P.Ends (peek depth) Q m :=
  .bind <| below_ends h hd fun hle => .read (P.fault h) fun c hc => k c hle hc

/-- The stack moves down by no more than it holds. -/
theorem drop_ends {n : Nat} (h : P.holds m) (hn : n ≤ 4) (hsp : (n : Int) ≤ m.sp + 1) :
    P.Ends (drop n) (fun _ => P.holds) m :=
  .drop (P.depth h hn) (P.dropped h hn hsp)

/-- What is taken from the stack points where cells may. -/
theorem pop_ends {Q : Cell → Machine → Prop} (h : P.holds m)
    (k : ∀ c m', P.holds m' → c.Points P.address → Q c m') : P.Ends pop Q m :=
  .bind <| peek_ends h (by decide) fun c hsp hc => .bind <|
    (drop_ends h (by decide) (by omega)).mono fun _ m' hm' => .pure (k c m' hm' (P.cell h hc))

/-- The top may be replaced by a cell that points where cells may. -/
theorem setTop_ends {c : Cell} (h : P.holds m) (hc : c.Points P.address) :
    P.Ends (setTop c) (fun _ => P.holds) m :=
  .bind <| below_ends h (by decide) fun hsp =>
    .write (P.write h (by decide) (Or.inl (by omega))) (fun _ => P.fault h) fun _ => P.set h hc

theorem peekInt_ends {depth : Nat} {Q : Word → Machine → Prop} (h : P.holds m) (hd : depth ≤ 4)
    (k : ∀ n, (depth : Int) ≤ m.sp → Q n m) : P.Ends (peekInt depth) Q m :=
  .bind <| peek_ends h hd fun _ hsp _ => .lift (P.fault h) fun n _ => k n hsp

/-- An address on the stack is one that cells may point to. -/
theorem peekAddress_ends {depth : Nat} {Q : Nat → Machine → Prop} (h : P.holds m) (hd : depth ≤ 4)
    (k : ∀ a, (depth : Int) ≤ m.sp → P.address a → Q a m) : P.Ends (peekAddress depth) Q m :=
  .bind <| peek_ends h hd fun _ hsp hc => .lift (P.fault h) fun a ha =>
    k a hsp ((P.cell h hc).asAddress P.small ha)

theorem popInt_ends {Q : Word → Machine → Prop} (h : P.holds m) (k : ∀ n m', P.holds m' → Q n m') :
    P.Ends popInt Q m :=
  .bind <| pop_ends h fun _ m' hm' _ => .lift (P.fault hm') fun n _ => k n m' hm'

/-- An address from the stack is one that cells may point to. -/
theorem popAddress_ends {Q : Nat → Machine → Prop} (h : P.holds m)
    (k : ∀ a m', P.holds m' → P.address a → Q a m') : P.Ends popAddress Q m :=
  .bind <| pop_ends h fun _ m' hm' hc => .lift (P.fault hm') fun a ha =>
    k a m' hm' (hc.asAddress P.small ha)

/-- An operator on one cell is as good as its results. -/
theorem unary_ends {f : Cell → Except Fault Cell} (h : P.holds m)
    (hf : ∀ c, Cell.Yields P.address (f c)) : P.Ends (unary f) (fun _ => P.holds) m :=
  .bind <| peek_ends h (by decide) fun c _ _ => .bind <| .lift (P.fault h) fun d hd =>
    setTop_ends h (hf c d hd)

/-- An operator on two cells is as good as its results. -/
theorem binary_ends {f : Cell → Cell → Except Fault Cell} (h : P.holds m)
    (hf : ∀ c d, Cell.Yields P.address (f c d)) : P.Ends (binary f) (fun _ => P.holds) m :=
  .bind <| pop_ends h fun right _ h₁ _ => .bind <| peek_ends h₁ (by decide) fun left _ _ => .bind <|
    .lift (P.fault h₁) fun c hc => setTop_ends h₁ (hf left right c hc)

/-- Static links lead to addresses that cells may point to. -/
theorem follow_ends {Q : Nat → Machine → Prop} (h : P.holds m) (k : ∀ a, P.address a → Q a m)
    (levels : Nat) : ∀ frame, P.address frame → P.Ends (follow levels frame) Q m := by
  induction levels with
  | zero =>
    intro frame hframe
    exact .pure (k frame hframe)
  | succ levels ih =>
    intro frame hframe
    refine .computes (P.link hframe (by decide)) <| .bind <| .read (P.fault h) fun c hc => ?_
    exact .bind <| .lift (P.fault h) fun a ha => ih a ((P.cell h hc).asAddress P.small ha)

theorem base_ends {levels : Nat} {Q : Nat → Machine → Prop} (h : P.holds m)
    (k : ∀ a, P.address a → Q a m) : P.Ends (Observed.base levels) Q m :=
  .bind <| .look <| follow_ends h k levels _ (P.mp h)

/-- The address of a variable is below `2 ^ 63`. -/
theorem variableAt_ends {levels : Nat} {q : Word} {Q : Nat → Machine → Prop} (h : P.holds m)
    (k : ∀ a, a < 0x8000000000000000 → Q a m) : P.Ends (variableAt levels q) Q m :=
  .bind <| base_ends h fun _ ha => offset_ends h ha k

/-! ### Blocks -/

/-- A block may be copied if every cell may be stored to. -/
theorem copy_ends (hstore : ∀ a, P.effect (.write .store a)) (n : Nat) : ∀ {m : Machine} (source target : Nat),
    P.holds m → P.address source → P.address target →
      P.Ends (copy n source target) (fun _ => P.holds) m := by
  induction n with
  | zero =>
    intro m source target h _ _
    exact .pure h
  | succ n ih =>
    intro m source target h hsource htarget
    refine .computes (P.link (k := 0) hsource (by decide)) <| .bind <|
      .read (P.fault h) fun c hc => ?_
    refine .computes (P.link (k := 0) htarget (by decide)) <| .bind <|
      .write (hstore target) (fun _ => P.fault h) fun hlt => ?_
    have hread := (Array.getElem?_eq_some_iff.1 hc).1
    exact ih _ _ (P.set h (P.cell h hc)) (P.next h hread) (P.next h hlt)

/-- To compare blocks changes nothing. -/
theorem compareBlocks_ends {Q : Ordering → Machine → Prop} (h : P.holds m) (k : ∀ o, Q o m) (n : Nat) :
    ∀ left right, P.address left → P.address right → P.Ends (compareBlocks n left right) Q m := by
  induction n with
  | zero =>
    intro left right _ _
    exact .pure (k _)
  | succ n ih =>
    intro left right hleft hright
    refine .computes (P.link (k := 0) hleft (by decide)) <| .bind <|
      .read (P.fault h) fun c hc => ?_
    refine .computes (P.link (k := 0) hright (by decide)) <| .bind <|
      .read (P.fault h) fun d hd => ?_
    have hl := (Array.getElem?_eq_some_iff.1 hc).1
    have hr := (Array.getElem?_eq_some_iff.1 hd).1
    exact .ite (fun _ => ih _ _ (P.next h hl) (P.next h hr)) fun _ => .lift (P.fault h) fun o _ => k o

theorem compare_ends (r : Relation) (p : Nat) (q : Word) (h : P.holds m) :
    P.Ends (compare r p q) (fun _ => P.holds) m := by
  refine .bind <| pop_ends h fun right m₁ h₁ hright => .bind <|
    peek_ends h₁ (by decide) fun left _ hleft => .bind ?_
  have hset : ∀ b : Bool, P.Ends (setTop (.bool b)) (fun _ => P.holds) m₁ := fun b =>
    setTop_ends h₁ trivial
  refine .ite (fun _ => ?_) fun _ => .lift (P.fault h₁) fun b _ => hset b
  refine .bind <| .lift (P.fault h₁) fun a ha => .bind <| .lift (P.fault h₁) fun b hb => .bind ?_
  exact compareBlocks_ends h₁ (fun _ => .pure (hset _)) _ _ _ ((P.cell h₁ hleft).asAddress P.small ha)
    (hright.asAddress P.small hb)

/-- To read character data changes nothing. -/
theorem characters_ends (h : P.holds m) (n : Nat) :
    ∀ a {Q : List UInt8 → Machine → Prop}, P.address a → (∀ l, Q l m) → P.Ends (characters n a) Q m := by
  induction n with
  | zero =>
    intro a Q _ k
    exact .pure (k _)
  | succ n ih =>
    intro a Q ha k
    refine .computes (P.link (k := 0) ha (by decide)) <| .bind <|
      .read (P.fault h) fun c hc => .bind <| .lift (P.fault h) fun b _ => .bind ?_
    exact ih _ (P.next h (Array.getElem?_eq_some_iff.1 hc).1) fun l => .pure (k _)

/-- A block below the end of the heap is cleared, and the stack and the heap stay where they are. -/
theorem clear_ends {o : Origin} (ho : o ≠ .store) {n a : Nat} {Q : Unit → Machine → Prop} (h : P.holds m)
    (hnp : a + n ≤ m.np) (k : ∀ m', P.holds m' → m'.sp = m.sp → m'.np = m.np → Q () m') :
    P.Ends (clear o n a) Q m := by
  refine .clear (I := fun m' => P.holds m' ∧ m'.sp = m.sp ∧ m'.np = m.np) ?_ n a ⟨h, rfl, rfl⟩ ?_ ?_ ?_
  · rintro m₁ b ⟨h₁, hsp, hnp⟩
    exact ⟨P.set h₁ trivial, hsp, hnp⟩
  · intro b _ hb
    exact P.write h ho (Or.inr (by omega))
  · rintro - m₁ ⟨h₁, -⟩
    exact P.fault h₁
  · rintro m₁ ⟨h₁, hsp, hnp⟩ - -
    exact k m₁ h₁ hsp hnp

/-! ### Standard procedures -/

theorem applyMath_ends (f : Procedure) (h : P.holds m) : P.Ends (applyMath f) (fun _ => P.holds) m := by
  refine .bind <| peek_ends h (by decide) fun c _ _ => ?_
  have hmath : ∀ x, f.math c = some x → Cell.Yields P.address x := by
    intro x hx
    obtain ⟨g, -, rfl⟩ := Option.map_eq_some_iff.1 hx
    intro d hd
    cases hreal : c.asReal with
    | ok y =>
      rw [hreal] at hd
      cases hd
      trivial
    | error f =>
      rw [hreal] at hd
      cases hd
  cases hx : f.math c with
  | some x => exact .bind <| .lift (P.fault h) fun d hd => setTop_ends h (hmath x hx d hd)
  | none => exact .fail (P.fault h)

theorem writeLine_ends (h : P.holds m) : P.Ends writeLine (fun _ => P.holds) m :=
  .bind <| popAddress_ends h fun _ _ h₁ _ => .onFiles (fun _ => P.fault (P.files h₁)) fun _ _ _ => P.files h₁

theorem writeString_ends (h : P.holds m) : P.Ends writeString (fun _ => P.holds) m := by
  refine .bind <| peekAddress_ends h (by decide) fun file _ _ => ?_
  refine .bind <| peek_ends h (by decide) fun c _ _ => .bind <| .lift (P.fault h) fun length _ => ?_
  refine .bind <| peek_ends h (by decide) fun d _ _ => .bind <| .lift (P.fault h) fun width _ => ?_
  refine .bind <| peekAddress_ends h (by decide) fun start hsp hstart => .bind ?_
  refine characters_ends h _ start hstart fun bytes => .bind ?_
  refine .onFiles (fun _ => P.fault (P.files h)) fun _ files _ => ?_
  exact drop_ends (P.files h) (by decide) (by simp only; omega)

theorem writeValue_ends (field : Nat → Cell → Except Fault (List UInt8)) (h : P.holds m) :
    P.Ends (writeValue field) (fun _ => P.holds) m := by
  refine .bind <| peekAddress_ends h (by decide) fun file _ _ => ?_
  refine .bind <| peek_ends h (by decide) fun c _ _ => .bind <| .lift (P.fault h) fun width _ => ?_
  refine .bind <| peek_ends h (by decide) fun value hsp _ => .computes (P.width width) ?_
  refine .bind <| .lift (P.fault h) fun bytes _ => .bind ?_
  refine .onFiles (fun _ => P.fault (P.files h)) fun _ files _ => ?_
  exact drop_ends (P.files h) (by decide) (by simp only; omega)

theorem testLineEnd_ends (h : P.holds m) : P.Ends testLineEnd (fun _ => P.holds) m :=
  .bind <| peekAddress_ends h (by decide) fun _ _ _ => .bind <|
    .onFiles (fun _ => P.fault (P.files h)) fun _ _ _ => setTop_ends (P.files h) trivial

theorem testEnd_ends (h : P.holds m) : P.Ends testEnd (fun _ => P.holds) m :=
  .bind <| peekAddress_ends h (by decide) fun _ _ _ => .bind <|
    .onFiles (fun _ => P.fault (P.files h)) fun _ _ _ => setTop_ends (P.files h) trivial

/-- What is read from a file is what the action on its text gives. -/
theorem reading_ok {file : Nat} {act : Action TextInput α} {a : α} {files files' : Files}
    (h : Files.reading file act files = .ok a files') : ∃ s s', act s = .ok a s' := by
  obtain ⟨channel, files₁, -, hrun⟩ := Action.bind_eq_ok.1 h
  cases channel with
  | input =>
    simp only [Action.zoom] at hrun
    cases hact : act files₁.input <;> rw [hact] at hrun <;> cases hrun
    exact ⟨_, _, hact⟩
  | prd =>
    simp only [Action.zoom] at hrun
    cases hact : act files₁.prd <;> rw [hact] at hrun <;> cases hrun
    exact ⟨_, _, hact⟩
  | output | prr => cases hrun

/-- A result that is mapped is the image of one. -/
theorem map_ok {β : Type} {g : α → β} {act : Action TextInput α} {s s' : TextInput} {b : β}
    (h : (g <$> act) s = .ok b s') : ∃ a, b = g a := by
  have hmap : (g <$> act) s = (act >>= fun a => pure (g a)) s := rfl
  rw [hmap] at h
  obtain ⟨a, s₁, -, hlast⟩ := Action.bind_eq_ok.1 h
  cases hlast
  exact ⟨a, rfl⟩

section Stores

variable (hstore : ∀ a, P.effect (.write .store a))

include hstore

/-- A store is allowed to any address. -/
theorem write_ends {a : Nat} {c : Cell} (h : P.holds m) (hc : c.Points P.address) :
    P.Ends (Observed.write .store a c) (fun _ => P.holds) m :=
  .write (hstore a) (fun _ => P.fault h) fun _ => P.set h hc

theorem getCharacter_ends (h : P.holds m) : P.Ends getCharacter (fun _ => P.holds) m :=
  .bind <| popAddress_ends h fun _ _ h₁ _ => .bind <|
    .onFiles (fun _ => P.fault (P.files h₁)) fun _ _ _ => write_ends hstore (P.files h₁) trivial

theorem putCharacter_ends (h : P.holds m) : P.Ends putCharacter (fun _ => P.holds) m := by
  refine .bind <| popAddress_ends h fun file m₁ h₁ _ => .bind ?_
  refine .onFiles (fun _ => P.fault (P.files h₁)) fun _ files _ => ?_
  have h₂ : P.holds { m₁ with files } := P.files h₁
  refine .bind <| .read (P.fault h₂) fun c _ => .bind <| .lift (P.fault h₂) fun b _ => .bind ?_
  exact .onFiles (fun _ => P.fault (P.files h₂)) fun _ _ _ => write_ends hstore (P.files h₂) trivial

theorem nextLine_ends (h : P.holds m) : P.Ends nextLine (fun _ => P.holds) m :=
  .bind <| popAddress_ends h fun _ _ h₁ _ => .bind <|
    .onFiles (fun _ => P.fault (P.files h₁)) fun _ _ _ => write_ends hstore (P.files h₁) trivial

/-- A value that is read may be stored if it points where cells may. -/
theorem readValue_ends {value : Action TextInput Cell} (h : P.holds m)
    (hvalue : ∀ s c s', value s = .ok c s' → c.Points P.address) :
    P.Ends (readValue value) (fun _ => P.holds) m := by
  refine .bind <| peekAddress_ends h (by decide) fun file _ _ => .bind <|
    peekAddress_ends h (by decide) fun target hsp _ => .bind ?_
  refine .onFiles (fun _ => P.fault (P.files h)) fun c files hread => ?_
  obtain ⟨s, s', hs⟩ := reading_ok hread
  refine .bind <| .write (hstore target) (fun _ => P.fault (P.files h)) fun _ => ?_
  exact drop_ends (P.set (P.files h) (hvalue s c s' hs)) (by decide) (by simp only; omega)

theorem save_ends (h : P.holds m) : P.Ends (standard .sav) (fun _ => P.holds) m :=
  .bind <| popAddress_ends h fun _ _ h₁ _ => .bind <| .look <| write_ends hstore h₁ (P.np h₁)

/-- A block is taken from the heap: its cells are below the old end of the heap. -/
theorem allocate_ends (h : P.holds m) : P.Ends allocate (fun _ => P.holds) m := by
  refine .bind <| peekInt_ends h (by decide) fun n _ => .bind <| .look ?_
  have hheap : P.address (m.np - n.count) := P.lower (P.np h) (Nat.sub_le _ _)
  refine .computes (P.base hheap) <| .ite (fun hroom => ?_) fun _ => .fail (P.fault h)
  refine .bind <| peekAddress_ends h (by decide) fun pointer hsp _ => .bind ?_
  refine clear_ends (by decide) h (by omega) fun m₁ h₁ hsp₁ hnp₁ => ?_
  have h₂ : P.holds { m₁ with np := m.np - n.count } :=
    P.taken h₁ (by omega) (by rw [hsp₁]; exact hroom.2)
  refine .bind <| .change <| .bind <| .write (hstore pointer) (fun _ => P.fault h₂) fun _ => ?_
  exact drop_ends (P.set h₂ hheap) (by decide) (by simp only; omega)

end Stores

/-- **Standard procedures** respect a policy, if those that store are allowed to. -/
theorem standard_ends {f : Procedure} (h : P.holds m)
    (hstore : f.stores = true → ∀ a, P.effect (.write .store a))
    (hrst : f = .rst → P.Ends restore (fun _ => P.holds) m) :
    P.Ends (standard f) (fun _ => P.holds) m := by
  have hmath := applyMath_ends f h
  cases f with
  | get => exact getCharacter_ends (hstore rfl) h
  | put => exact putCharacter_ends (hstore rfl) h
  | rst => exact hrst rfl
  | rln => exact nextLine_ends (hstore rfl) h
  | new => exact allocate_ends (hstore rfl) h
  | wln => exact writeLine_ends h
  | wrs => exact writeString_ends h
  | eln => exact testLineEnd_ends h
  | wri | wrr | wrc => exact writeValue_ends _ h
  | rdi | rdr | rdc =>
    refine readValue_ends (hstore rfl) h fun s c s' hc => ?_
    obtain ⟨n, rfl⟩ := map_ok hc
    trivial
  | sin | cos | exp | log | sqt | atn => exact hmath
  | sav => exact save_ends (hstore rfl) h

/-! ### Instructions -/

theorem loadFrom_ends {a : Nat} (h : P.holds m) : P.Ends (loadFrom a) (fun _ => P.holds) m :=
  .bind <| load_ends h fun _ hc => P.pushed h hc

/-- The constant of an instruction points to nothing, or to where nothing is. -/
theorem constant_points (h : P.holds m) (p : Nat) (q : Word) : (m.constant p q).Points P.address := by
  unfold Machine.constant
  split
  · trivial
  · trivial
  · exact P.nil h

theorem loadIndirect_ends (q : Word) (h : P.holds m) : P.Ends (loadIndirect q) (fun _ => P.holds) m :=
  .bind <| peekAddress_ends h (by decide) fun _ _ ha => .bind <| offset_ends h ha fun _ _ => .bind <|
    load_ends h fun _ hc => setTop_ends h hc

/-- A cell that is moved points to an address below `2 ^ 63`; if it is an address, that is converted. -/
theorem moveTop_ends (d : Word) (h : P.holds m) : P.Ends (moveTop d) (fun _ => P.holds) m := by
  refine .bind <| peek_ends h (by decide) fun c _ hc => ?_
  have hmove : P.Ends (andThen (lift (c.increment d)) setTop) (fun _ => P.holds) m :=
    .bind <| .lift (P.fault h) fun e he => setTop_ends h (Cell.increment_yields P.small d e he)
  cases c with
  | address a | mark a => exact .computes (P.base (P.cell h hc)) hmove
  | undefined | int _ | real _ | bool _ | set _ => exact hmove

/-- The address of an element is below `2 ^ 63`. -/
theorem index_ends (q : Word) (h : P.holds m) : P.Ends (index q) (fun _ => P.holds) m :=
  .bind <| popInt_ends h fun _ _ h₁ => .bind <| peekAddress_ends h₁ (by decide) fun _ _ ha => .bind <|
    .orFault (P.fault h₁) fun _ _ => .bind <| offset_ends h₁ ha fun _ hb =>
      setTop_ends h₁ (P.small hb)

/-- The links of a new frame point to frames. -/
theorem markStack_ends (p : Nat) (h : P.holds m) : P.Ends (markStack p) (fun _ => P.holds) m := by
  refine .bind <| base_ends h fun link hlink => ?_
  refine .bind <| .look <| .bind <| (P.pushed (c := .undefined) h trivial).mono fun _ _ h₁ => ?_
  refine .bind <| (P.pushed (c := .mark link) h₁ hlink).mono fun _ _ h₂ => ?_
  exact .bind <| (P.pushed (c := .mark m.mp) h₂ (P.mp h)).mono fun _ _ h₃ => P.pushed h₃ trivial

theorem checkBounds_ends (q : Word) (h : P.holds m) : P.Ends (checkBounds q) (fun _ => P.holds) m := by
  refine .bind <| peekInt_ends h (by decide) fun value _ => .bind <| operand_ends h fun upperAt hu => ?_
  refine .bind <| offset_ends h (P.small hu) fun lowerAt _ => ?_
  refine .bind <| .read (P.fault h) fun c _ => .bind <| .lift (P.fault h) fun lower _ => ?_
  refine .bind <| .read (P.fault h) fun d _ => .bind <| .lift (P.fault h) fun upper _ => ?_
  exact .ite (fun _ => .fail (P.fault h)) fun _ => .pure h

/-- The cell below the top may be replaced by a real. -/
theorem floatBelow_ends (h : P.holds m) : P.Ends floatBelow (fun _ => P.holds) m :=
  .bind <| below_ends h (by decide) fun _ => .bind <| .read (P.fault h) fun _ _ => .bind <|
    .lift (P.fault h) fun d hd =>
      .write (P.write h (by decide) (Or.inl (by omega))) (fun _ => P.fault h) fun _ =>
        P.set h (Cell.float_yields d hd)

/-- **All instructions** respect a policy, if those that store are allowed to and if those do that
set registers in their own way. -/
theorem perform_ends {i : Instruction} (h : P.holds m)
    (hstore : i.stores = true → ∀ a, P.effect (.write .store a))
    (hcup : i.op = .cup → P.Ends (enterFrame i.p i.q) (fun _ => P.holds) m)
    (hret : i.op = .ret → P.Ends (leaveFrame i.p) (fun _ => P.holds) m)
    (hrst : i.op = .csp → Procedure.ofNumber? i.q = some .rst → P.Ends restore (fun _ => P.holds) m) :
    P.Ends (perform i) (fun _ => P.holds) m := by
  obtain ⟨op, p, q⟩ := i
  cases op with
  | lod => exact .bind <| variableAt_ends h fun _ _ => loadFrom_ends h
  | ldo => exact .bind <| operand_ends h fun _ _ => loadFrom_ends h
  | str =>
    exact .bind <| variableAt_ends h fun _ _ => .bind <| pop_ends h fun _ _ h₁ hc =>
      write_ends (hstore rfl) h₁ hc
  | sro =>
    exact .bind <| pop_ends h fun _ _ h₁ hc => .bind <| operand_ends h₁ fun _ _ =>
      write_ends (hstore rfl) h₁ hc
  | lda => exact .bind <| variableAt_ends h fun _ ha => P.pushed h (P.small ha)
  | lao | lca => exact .bind <| operand_ends h fun _ ha => P.pushed h (P.small ha)
  | sto =>
    exact .bind <| pop_ends h fun _ _ h₁ hc => .bind <| popAddress_ends h₁ fun _ _ h₂ _ =>
      write_ends (hstore rfl) h₂ hc
  | ldc => exact .bind <| .look <| P.pushed h (constant_points h p q)
  | lci =>
    exact .bind <| operand_ends h fun _ _ => .bind <| .read (P.fault h) fun _ hc =>
      P.pushed h (P.cell h hc)
  | ind => exact loadIndirect_ends q h
  | inc => exact moveTop_ends q h
  | dec => exact .bind <| .orFault (P.fault h) fun d _ => moveTop_ends d h
  | mst => exact markStack_ends p h
  | cup => exact hcup rfl
  | ent => exact P.reserved h q
  | ret => exact hret rfl
  | csp =>
    refine .bind <| .orFault (P.fault h) fun f hf => standard_ends h (fun hs => hstore ?_) ?_
    · rw [Instruction.stores, hf]
      exact hs
    · rintro rfl
      exact hrst rfl hf
  | ixa => exact index_ends q h
  | equ | neq | geq | grt | leq | les => exact compare_ends _ p q h
  | ujp => exact jump_ends q h
  | fjp =>
    exact .bind <| pop_ends h fun _ _ h₁ _ => .bind <| .lift (P.fault h₁) fun _ _ =>
      .ite (fun _ => .pure h₁) fun _ => jump_ends q h₁
  | xjp =>
    exact .bind <| popInt_ends h fun _ _ h₁ => .bind <| .orFault (P.fault h₁) fun d _ => jump_ends d h₁
  | chk => exact checkBounds_ends q h
  | eof => exact testEnd_ends h
  | flo => exact floatBelow_ends h
  | mov =>
    exact .bind <| popAddress_ends h fun _ _ h₁ hs => .bind <| popAddress_ends h₁ fun _ _ h₂ ht =>
      copy_ends (hstore rfl) _ _ _ h₂ hs ht
  | stp => exact .pure h
  | adi => exact binary_ends h fun _ _ => Cell.addInt_yields
  | adr => exact binary_ends h fun _ _ => Cell.addReal_yields
  | sbi => exact binary_ends h fun _ _ => Cell.subInt_yields
  | sbr => exact binary_ends h fun _ _ => Cell.subReal_yields
  | sgs => exact unary_ends h fun _ => Cell.singleton_yields
  | flt => exact unary_ends h fun _ => Cell.float_yields
  | trc => exact unary_ends h fun _ => Cell.truncate_yields
  | ngi => exact unary_ends h fun _ => Cell.negInt_yields
  | ngr => exact unary_ends h fun _ => Cell.negReal_yields
  | sqi => exact unary_ends h fun _ => Cell.mulInt_yields
  | sqr => exact unary_ends h fun _ => Cell.squareReal_yields
  | abi => exact unary_ends h fun _ => Cell.absInt_yields
  | abr => exact unary_ends h fun _ => Cell.absReal_yields
  | not => exact unary_ends h fun _ => Cell.not_yields
  | and => exact binary_ends h fun _ _ => Cell.and_yields
  | ior => exact binary_ends h fun _ _ => Cell.or_yields
  | dif => exact binary_ends h fun _ _ => Cell.difference_yields
  | int => exact binary_ends h fun _ _ => Cell.intersection_yields
  | uni => exact binary_ends h fun _ _ => Cell.union_yields
  | inn => exact binary_ends h fun _ _ => Cell.member_yields
  | mod => exact binary_ends h fun _ _ => Cell.modInt_yields
  | odd => exact unary_ends h fun _ => Cell.odd_yields
  | mpi => exact binary_ends h fun _ _ => Cell.mulInt_yields
  | mpr => exact binary_ends h fun _ _ => Cell.mulReal_yields
  | dvi => exact binary_ends h fun _ _ => Cell.divInt_yields
  | dvr => exact binary_ends h fun _ _ => Cell.divReal_yields

/-- **A step** respects a policy if its instruction does, from the next address on. -/
theorem step_ends (h : P.holds m)
    (hi : ∀ i, m.code[m.pc]? = some i → P.holds m.fetched → P.Ends (perform i) (fun _ => P.holds) m.fetched) :
    P.Ends step (fun _ => P.holds) m := by
  refine .bind <| .bind <| .look <| .bind <| .orFault (P.fault h) fun i hcode => ?_
  have hlt := (Array.getElem?_eq_some_iff.1 hcode).1
  obtain ⟨hfetched, hpc⟩ := P.fetched h hlt
  refine .computes hpc <| .bind <| .change <| .pure <| .bind ?_
  exact (hi i hcode hfetched).mono fun _ _ h₁ => .pure h₁

end Policy

end PMachine
