import PMachine.Proofs.Machine.Call
import PMachine.Proofs.Machine.Stack

/-!
# Static links

The static link of a frame names the frame around it, and a variable is addressed by the number of
links to follow and an offset. A call follows some links from its caller and leaves the frame that it
comes to as the link of the new frame. So the callee sees the frames around it as the caller does, and
one link further away.

* `Store.linked`, `Store.linkCells`: the frame some links away, and the cells that lead to it.
* `Machine.follow_eq`: what following links does is a matter of these cells.
* `Machine.Enters`: a call up to its body; `Machine.Descends`: calls within calls.
* `Machine.Enters.linked`: the callee sees what the caller sees.
* `Machine.lexical_addressing`: so both address the same variables, however many calls lie between.
-/

namespace PMachine

namespace Store

/-- The frame that the static link of a frame names. -/
def outer (s : Store) (frame : Nat) : Except Fault Nat := do
  let c ← s.read (frame + Machine.staticLink)
  c.asAddress

/-- The frame that lies a number of static links away from a frame. -/
def linked (s : Store) : (levels frame : Nat) → Except Fault Nat
  | 0, frame => .ok frame
  | levels + 1, frame => do
    let a ← s.outer frame
    s.linked levels a

/-- The cells of the static links that lead there. -/
def linkCells (s : Store) : (levels frame : Nat) → List Nat
  | 0, _ => []
  | levels + 1, frame =>
    (frame + Machine.staticLink) :: match s.outer frame with
      | .ok a => s.linkCells levels a
      | .error _ => []

variable {s s' : Store} {frame a : Nat}

/-- The first link leads to the frame from which the others are followed. -/
theorem linked_succ_of_ok (h : s.outer frame = .ok a) (levels : Nat) :
    s.linked (levels + 1) frame = s.linked levels a := by
  rw [linked, h]
  rfl

theorem linked_succ_of_error {f : Fault} (h : s.outer frame = .error f) (levels : Nat) :
    s.linked (levels + 1) frame = .error f := by
  rw [linked, h]
  rfl

/-- The cell of the first link comes before those of the others. -/
theorem linkCells_succ_of_ok (h : s.outer frame = .ok a) (levels : Nat) :
    s.linkCells (levels + 1) frame = (frame + Machine.staticLink) :: s.linkCells levels a := by
  rw [linkCells, h]

/-- Links are followed one number after the other. -/
theorem linked_add (l : Nat) : ∀ {p frame a : Nat}, s.linked p frame = .ok a →
    s.linked (p + l) frame = s.linked l a := by
  intro p
  induction p with
  | zero =>
    intro frame a h
    have hsame : frame = a := Except.ok.inj h
    rw [Nat.zero_add, hsame]
  | succ p ih =>
    intro frame a h
    rw [Nat.succ_add]
    cases ho : s.outer frame with
    | error f =>
      rw [linked_succ_of_error ho] at h
      cases h
    | ok b =>
      rw [linked_succ_of_ok ho] at h ⊢
      exact ih h

/-- The links from an outer frame on are among those from the inner one on. -/
theorem mem_linkCells_add {l : Nat} : ∀ {p frame a : Nat}, s.linked p frame = .ok a →
    ∀ x ∈ s.linkCells l a, x ∈ s.linkCells (p + l) frame := by
  intro p
  induction p with
  | zero =>
    intro frame a h x hx
    have hsame : frame = a := Except.ok.inj h
    rw [Nat.zero_add, hsame]
    exact hx
  | succ p ih =>
    intro frame a h x hx
    rw [Nat.succ_add]
    cases ho : s.outer frame with
    | error f =>
      rw [linked_succ_of_error ho] at h
      cases h
    | ok b =>
      rw [linked_succ_of_ok ho] at h
      rw [linkCells_succ_of_ok ho]
      exact List.mem_cons_of_mem _ (ih h x hx)

/-- A link depends on its own cell only. -/
theorem outer_congr (h : s'.cells[frame + Machine.staticLink]? = s.cells[frame + Machine.staticLink]?) :
    s'.outer frame = s.outer frame := by
  unfold outer read
  rw [h]

/-- Stores with the same links lead to the same frames. -/
theorem linked_congr : ∀ {levels frame : Nat},
    (∀ a ∈ s.linkCells levels frame, s'.cells[a]? = s.cells[a]?) →
      s'.linked levels frame = s.linked levels frame ∧
        s'.linkCells levels frame = s.linkCells levels frame := by
  intro levels
  induction levels with
  | zero => intro frame _; exact ⟨rfl, rfl⟩
  | succ levels ih =>
    intro frame h
    have ho : s'.outer frame = s.outer frame := outer_congr (h _ List.mem_cons_self)
    cases hs : s.outer frame with
    | error f =>
      have ho' := ho.trans hs
      rw [linked_succ_of_error hs, linked_succ_of_error ho', linkCells, linkCells, hs, ho']
      exact ⟨rfl, rfl⟩
    | ok a =>
      have ho' := ho.trans hs
      rw [linkCells_succ_of_ok hs] at h
      obtain ⟨hlinked, hcells⟩ := ih fun x hx => h x (List.mem_cons_of_mem _ hx)
      rw [linked_succ_of_ok hs, linked_succ_of_ok ho', linkCells_succ_of_ok hs,
        linkCells_succ_of_ok ho', hlinked, hcells]
      exact ⟨rfl, rfl⟩

end Store

namespace Machine

variable {m m' : Machine}

/-! ### Following links -/

/-- **Following links** is a matter of the link cells, and changes nothing. -/
theorem follow_eq (m : Machine) : ∀ levels frame : Nat,
    follow levels frame m = Action.lift (m.store.linked levels frame) m := by
  intro levels
  induction levels with
  | zero => intro frame; rfl
  | succ levels ih =>
    intro frame
    have hread : read (frame + staticLink) m = Action.lift (m.store.read (frame + staticLink)) m := rfl
    rw [follow, Action.bind_apply, hread]
    cases hc : m.store.read (frame + staticLink) with
    | error f =>
      have ho : m.store.outer frame = .error f := by rw [Store.outer, hc]; rfl
      rw [Store.linked_succ_of_error ho]
      rfl
    | ok c =>
      have ho : m.store.outer frame = c.asAddress := by rw [Store.outer, hc]; rfl
      simp only [Action.lift_ok]
      rw [Action.bind_apply]
      cases ha : c.asAddress with
      | error f =>
        rw [Store.linked_succ_of_error (ho.trans ha)]
        rfl
      | ok a =>
        rw [Store.linked_succ_of_ok (ho.trans ha)]
        exact ih a

/-- The frame that is some links away is found in the store alone, and nothing changes. -/
theorem base_eq (levels : Nat) (m : Machine) :
    base levels m = Action.lift (m.store.linked levels m.mp) m := follow_eq m levels m.mp

theorem base_eq_ok {levels b : Nat} :
    base levels m = .ok b m ↔ m.store.linked levels m.mp = .ok b := by
  rw [base_eq, Action.lift_eq_ok, and_iff_left rfl]

/-- What an instruction does with the variable that it addresses: it stores the top cell there, takes
the address or loads the value. -/
def access : Opcode → (a : Nat) → Action Machine Unit
  | .str, a => do
    let c ← pop
    write a c
  | .lda, a => push (.address a)
  | _, a => loadFrom a

/-- An instruction addresses its variable from the frame that its level leads to. -/
theorem perform_of_base {op : Opcode} (hop : op ∈ [.lod, .str, .lda]) {levels b : Nat}
    (hb : base levels m = .ok b m) (q : Word) :
    perform ⟨op, levels, q⟩ m = (offset b q.toInt >>= access op) m := by
  have hvariable : variableAt levels q m = offset b q.toInt m := Action.bind_of_ok hb
  have hrun : perform ⟨op, levels, q⟩ m = (variableAt levels q >>= access op) m := by
    simp only [List.mem_cons, List.not_mem_nil, or_false] at hop
    rcases hop with rfl | rfl | rfl <;> rfl
  rw [hrun, Action.bind_apply, Action.bind_apply, hvariable]

/-! ### Calls -/

/-- Instructions that succeed, none of which stores into the given cells. -/
def Passes (spared : List Nat) : Machine → Machine → Prop :=
  Relation.ReflTransGen fun m m' =>
    (∃ b, step m = .ok b m') ∧ ∀ a ∈ spared, m'.store.cells[a]? = m.store.cells[a]?

/-- No instruction changes the size of the store. -/
theorem fixed_size : Fixed fun m => m.store.cells.size where
  registers _ _ _ _ := rfl
  files _ _ := rfl
  cells _ _ h := h
  frame _ _ := rfl

/-- What a procedure is to spare is as it was, and the store has its size. -/
theorem Passes.spares {spared : List Nat} (h : Passes spared m m') :
    (∀ a ∈ spared, m'.store.cells[a]? = m.store.cells[a]?) ∧
      m'.store.cells.size = m.store.cells.size := by
  induction h with
  | refl => exact ⟨fun _ _ => rfl, rfl⟩
  | tail _ hstep ih =>
    obtain ⟨⟨b, hb⟩, hspared⟩ := hstep
    have hsize := (step_keeps fixed_size).ok hb
    exact ⟨fun a ha => (hspared a ha).trans (ih.1 a ha), hsize.trans ih.2⟩

/-- A call up to its body: the stack is marked for a procedure declared `p` links away, `k` cells of
arguments are put there, and the frame is entered. The links that lead `l` frames further lie at or
below the top of the stack, and the arguments are computed without a store into them or into the
linkage of the new frame. -/
structure Enters (p l k : Nat) (m marked argued entered : Machine) : Prop where
  low : ∀ a ∈ m.store.linkCells (p + l) m.mp, (a : Int) ≤ m.sp
  mark : ∃ q, Executes ⟨.mst, p, q⟩ m marked
  arguments : Passes (m.store.linkCells (p + l) m.mp ++
    [staticLink, dynamicLink, returnLink].map (nextFrame m + ·)) marked argued
  count : argued.sp = marked.sp + k
  count_lt : k < 0x8000000000000000 - 3
  enter : ∃ q, Executes ⟨.cup, k, q⟩ argued entered

namespace Enters

variable {p l k : Nat} {marked argued entered : Machine}

/-- The frame that is entered starts right above the stack of the caller. -/
theorem frame_eq (h : Enters p l k m marked argued entered) :
    (nextFrame m : Int) = m.sp + 1 ∧ entered.mp = nextFrame m ∧
      entered.store = { argued.store with
        cells := argued.store.cells.setIfInBounds (nextFrame m + returnLink) (.mark (argued.pc + 1)) } ∧
      nextFrame m + returnLink < argued.store.cells.size := by
  obtain ⟨_, hmst⟩ := h.mark
  obtain ⟨_, -, -, hmarked⟩ := markStack_ok hmst.perform
  have hsp : marked.sp = m.sp + 4 := by rw [hmarked]
  obtain ⟨_, hcup⟩ := h.enter
  obtain ⟨hstart, hlt, hstore⟩ := enterFrame_ok hcup.perform
  have hk := h.count_lt
  have hcount := h.count
  have hframe : (entered.mp : Int) = argued.sp - (k + 3) :=
    ((frameStart?_of_lt (m := argued) (p := k) (by omega)).1 hstart).1
  -- the mark takes four cells, and the call goes back over three of them and the arguments
  have hnext : (nextFrame m : Int) = m.sp + 1 := by unfold nextFrame; omega
  have hmp : entered.mp = nextFrame m := by omega
  rw [hmp] at hlt hstore
  exact ⟨hnext, hmp, hstore, hlt⟩

/-- Marking the stack leaves the frame `p` links away as the static link of the new frame, and writes
nothing below. -/
theorem marked_link (h : Enters p l k m marked argued entered)
    (hsize : m.store.cells.size ≤ 0x8000000000000000) :
    ∃ link, m.store.linked p m.mp = .ok link ∧
      marked.store.cells[nextFrame m + staticLink]? = some (.mark link) ∧
      (∀ a : Nat, (a : Int) ≤ m.sp → marked.store.cells[a]? = m.store.cells[a]?) ∧
      marked.store.cells.size = m.store.cells.size := by
  obtain ⟨hnext, -, -, hlt⟩ := h.frame_eq
  obtain ⟨_, hmst⟩ := h.mark
  have hcells : marked.store.cells.size = m.store.cells.size := (hmst.kept nofun nofun).2
  obtain ⟨link, hbase, -, hmarked⟩ := markStack_ok hmst.perform
  have hlinked : m.store.linked p m.mp = .ok link :=
    base_eq_ok (m := { m with pc := m.pc + 1 }) |>.1 hbase
  have hroom : nextFrame m + returnLink < m.store.cells.size := by
    rw [← hcells, ← h.arguments.spares.2]
    exact hlt
  have hplace : ∀ i : Nat, 0 < i → i ≤ 4 → Address.ofSigned (m.sp + i) = nextFrame m + (i - 1) := by
    intro i hpos hle
    unfold returnLink at hroom
    unfold Address.ofSigned
    omega
  have h₁ := hplace 1 (by decide) (by decide)
  have h₂ := hplace 2 (by decide) (by decide)
  have h₃ := hplace 3 (by decide) (by decide)
  have h₄ := hplace 4 (by decide) (by decide)
  norm_num at h₁ h₂ h₃ h₄
  simp only [h₁, h₂, h₃, h₄] at hmarked
  unfold returnLink at hroom
  refine ⟨link, hlinked, ?_, fun a ha => ?_, hcells⟩
  · rw [hmarked]
    have hin : nextFrame m + 1 < (m.store.cells.setIfInBounds (nextFrame m) .undefined).size := by
      rw [Array.size_setIfInBounds]
      omega
    rw [Array.getElem?_setIfInBounds_ne (by unfold staticLink; omega),
      Array.getElem?_setIfInBounds_ne (by unfold staticLink; omega)]
    exact Array.getElem?_setIfInBounds_self_of_lt hin
  · rw [hmarked]
    rw [Array.getElem?_setIfInBounds_ne (by omega), Array.getElem?_setIfInBounds_ne (by omega),
      Array.getElem?_setIfInBounds_ne (by omega), Array.getElem?_setIfInBounds_ne (by omega)]

/-- **The callee sees what the caller sees**, one link further away. -/
theorem linked (h : Enters p l k m marked argued entered)
    (hsize : m.store.cells.size ≤ 0x8000000000000000) :
    entered.store.linked (l + 1) entered.mp = m.store.linked (p + l) m.mp ∧
      entered.store.cells.size = m.store.cells.size := by
  obtain ⟨hnext, hmp, hstore, -⟩ := h.frame_eq
  obtain ⟨link, hlinked, hlink, hbelow, hcells⟩ := h.marked_link hsize
  obtain ⟨hspared, hargued⟩ := h.arguments.spares
  have hentered : ∀ a : Nat, a ≠ nextFrame m + returnLink →
      entered.store.cells[a]? = argued.store.cells[a]? := by
    intro a hne
    rw [hstore]
    exact Array.getElem?_setIfInBounds_ne (Ne.symm hne)
  -- the new frame still has the link with which it was marked
  have houter : entered.store.outer entered.mp = .ok link := by
    have hcell : entered.store.cells[nextFrame m + staticLink]? = some (.mark link) := by
      rw [hentered _ (by unfold staticLink returnLink; omega), hspared _ (by simp), hlink]
    rw [hmp, Store.outer, Store.read, hcell]
    rfl
  -- and the links behind it are below the stack of the caller, where nothing was stored
  have hsame : ∀ a ∈ m.store.linkCells l link, entered.store.cells[a]? = m.store.cells[a]? := by
    intro a ha
    have hmem := Store.mem_linkCells_add hlinked a ha
    have hlow := h.low a hmem
    rw [hentered a (by omega), hspared a (List.mem_append_left _ hmem), hbelow a hlow]
  refine ⟨?_, ?_⟩
  · rw [Store.linked_succ_of_ok houter, (Store.linked_congr hsame).1, Store.linked_add l hlinked]
  · rw [hstore, Array.size_setIfInBounds, hargued, hcells]

end Enters

/-! ### Calls within calls -/

/-- From a machine on, and from a level in its current frame, calls are entered one within another, and
in between instructions are executed in the frame that was entered last. The level is kept up with: it
leads to one frame throughout, the links to which are not stored into. -/
inductive Descends (m : Machine) (n : Nat) : Machine → Nat → Prop where
  | here : Descends m n m n
  | body {m₁ m₂ : Machine} {l : Nat} (before : Descends m n m₁ l)
      (run : Passes (m₁.store.linkCells l m₁.mp) m₁ m₂) (frame : m₂.mp = m₁.mp) : Descends m n m₂ l
  | call {p l k : Nat} {m₁ marked argued entered : Machine} (before : Descends m n m₁ (p + l))
      (call : Enters p l k m₁ marked argued entered) : Descends m n entered (l + 1)

/-- However deep the calls, the frame of the declaration stays where the links lead. -/
theorem Descends.linked {n n' : Nat} (h : Descends m n m' n')
    (hsize : m.store.cells.size ≤ 0x8000000000000000) :
    m'.store.linked n' m'.mp = m.store.linked n m.mp ∧
      m'.store.cells.size = m.store.cells.size := by
  -- each step of the descent keeps the frame that the level leads to
  induction h with
  | here => exact ⟨rfl, rfl⟩
  | body _ run frame ih =>
    obtain ⟨hspared, hcells⟩ := run.spares
    rw [frame, (Store.linked_congr hspared).1, hcells]
    exact ih
  | call _ call ih =>
    obtain ⟨hlinked, hcells⟩ := call.linked (by rw [ih.2]; exact hsize)
    exact ⟨hlinked.trans ih.1, hcells.trans ih.2⟩

/-- **Static links give lexical addressing.** If `p + l` links lead from the current frame to the frame
at `b`, then a call of a procedure declared `p` links away enters a frame right above the stack, from
which `l + 1` links lead to `b`. Over any number of calls within calls the level that is kept up with
leads to `b`, so the instructions that load a variable, store into it or take its address do so in the
same cell. Cells are addressed by words of 64 bits, so no store has more than `2 ^ 63`. -/
theorem lexical_addressing {m : Machine} (hsize : m.store.cells.size ≤ 0x8000000000000000) (b : Nat) :
    (∀ p l k marked argued entered, base (p + l) m = .ok b m →
      Enters p l k m marked argued entered →
        (∃ frame : Nat, (frame : Int) = m.sp + 1 ∧ base 0 entered = .ok frame entered) ∧
        base (l + 1) entered = .ok b entered) ∧
    ∀ n m' n', base n m = .ok b m → Descends m n m' n' →
      base n' m' = .ok b m' ∧ ∀ op ∈ [Opcode.lod, .str, .lda], ∀ q : Word,
        perform ⟨op, n, q⟩ m = (offset b q.toInt >>= access op) m ∧
        perform ⟨op, n', q⟩ m' = (offset b q.toInt >>= access op) m' := by
  constructor
  · intro p l k marked argued entered hb hcall
    obtain ⟨hnext, hmp, -⟩ := hcall.frame_eq
    refine ⟨⟨nextFrame m, hnext, base_eq_ok.2 (by rw [hmp]; rfl)⟩, ?_⟩
    rw [base_eq_ok, (hcall.linked hsize).1]
    exact base_eq_ok.1 hb
  · intro n m' n' hb hdescends
    have hb' : base n' m' = .ok b m' := by
      rw [base_eq_ok, (hdescends.linked hsize).1]
      exact base_eq_ok.1 hb
    exact ⟨hb', fun op hop q => ⟨perform_of_base hop hb q, perform_of_base hop hb' q⟩⟩

/-- A machine before a call of a procedure that calls a procedure declared in it, which calls itself. -/
def sibling : Machine where
  pc := 0
  mp := 5
  sp := 10
  np := 48
  code := #[⟨.mst, 0, 0⟩, ⟨.ldc, 1, 7⟩, ⟨.cup, 1, 4⟩, ⟨.stp, 0, 0⟩, ⟨.ent, 0, 6⟩, ⟨.mst, 0, 0⟩,
    ⟨.cup, 0, 8⟩, ⟨.ret, 0, 0⟩, ⟨.ent, 0, 5⟩, ⟨.mst, 1, 0⟩, ⟨.cup, 0, 8⟩, ⟨.ret, 0, 0⟩]
  store := ⟨default, Array.replicate 48 .undefined, default⟩
  files := default

/-- The same machine after a number of steps. -/
def siblingAfter : Nat → Machine
  | 0 => sibling
  | n + 1 => step.after (siblingAfter n)

theorem lexical_addressing_sibling : (siblingAfter 3).mp = 11 ∧
    base 1 (siblingAfter 3) = .ok 5 (siblingAfter 3) ∧ (siblingAfter 9).mp = 24 ∧ ∀ q : Word,
      perform ⟨.lod, 2, q⟩ (siblingAfter 9) = (offset 5 q.toInt >>= loadFrom) (siblingAfter 9) := by
  have hsize : sibling.store.cells.size ≤ 0x8000000000000000 := by decide +kernel
  have argument : Passes (sibling.store.linkCells 0 5 ++ [12, 13, 14]) (siblingAfter 1) (siblingAfter 2) :=
    .single ⟨⟨true, rfl⟩, by decide +kernel⟩
  have first : Enters 0 0 1 sibling (siblingAfter 1) (siblingAfter 2) (siblingAfter 3) :=
    ⟨by decide +kernel, ⟨0, rfl, rfl⟩, argument, rfl, by decide, ⟨4, rfl, rfl⟩⟩
  have second : Enters 0 1 0 (siblingAfter 4) (siblingAfter 5) (siblingAfter 5) (siblingAfter 6) :=
    ⟨by decide +kernel, ⟨0, rfl, rfl⟩, .refl, rfl, by decide, ⟨8, rfl, rfl⟩⟩
  have third : Enters 1 1 0 (siblingAfter 7) (siblingAfter 8) (siblingAfter 8) (siblingAfter 9) :=
    ⟨by decide +kernel, ⟨0, rfl, rfl⟩, .refl, rfl, by decide, ⟨8, rfl, rfl⟩⟩
  have one : Descends sibling 0 (siblingAfter 4) 1 :=
    .body (.call (p := 0) (l := 0) .here first) (.single ⟨⟨true, rfl⟩, by decide +kernel⟩) rfl
  have two : Descends sibling 0 (siblingAfter 7) 2 :=
    .body (.call (p := 0) (l := 1) one second) (.single ⟨⟨true, rfl⟩, by decide +kernel⟩) rfl
  have three : Descends sibling 0 (siblingAfter 9) 2 := .call (p := 1) (l := 1) two third
  obtain ⟨hcall, hnested⟩ := lexical_addressing hsize 5
  obtain ⟨-, hbase⟩ := hcall 0 0 1 _ _ _ (base_eq_ok.2 rfl) first
  obtain ⟨-, hsame⟩ := hnested 0 _ 2 (base_eq_ok.2 rfl) three
  exact ⟨rfl, hbase, rfl, fun q => (hsame .lod (by decide) q).2⟩

end Machine

end PMachine
