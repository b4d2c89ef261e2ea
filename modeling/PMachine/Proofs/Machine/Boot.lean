import PMachine.Machine
import PMachine.Proofs.Program.Fresh

/-!
# Constants at the start of a run

A run starts with the buffers of the files, whose addresses are fixed, while the pools start where the stack
ends. A stack that ends below the last buffer leaves that buffer to a pool: what was entered there is lost.

* `Store.Furnished`: the pools fill the store above the stack, and all their cells have values.
* `Program.furnished_of_load`: so they do in a loaded program.
* `Machine.buffer?`: what the start of a run puts at an address.
* `Machine.boot_eq`, `Machine.boot_error`: a run starts if there is an address for each buffer.
* `Machine.boot_keeps_iff`: which stacks leave the constants alone.
-/

namespace PMachine

namespace Store

/-- The pools fill the store above the stack, and all their cells have values. -/
structure Furnished (s : Store) : Prop where
  size : s.cells.size = s.limits.poolEnd .multiple
  values : ∀ a, s.limits.stackSize < a → s.cells[a]? ≠ some .undefined

/-- What stands behind a run of cells after pools were added is blank. -/
theorem blank_of_foldl {a : Nat} {c : Cell} (l : Limits) (ps : List Pool) : ∀ cells : Array Cell,
    (ps.foldl (fun cells p => cells ++ Array.replicate (l.pools.get p) (blank p)) cells)[a]? = some c →
      cells[a]? = some c ∨ ∃ p, c = blank p := by
  induction ps with
  | nil => exact fun cells h => Or.inl h
  | cons p ps ih =>
    intro cells h
    rcases ih _ h with hold | hblank
    · rw [Array.getElem?_append] at hold
      split at hold
      · exact Or.inl hold
      · rw [Array.getElem?_replicate] at hold
        split at hold
        · exact Or.inr ⟨p, (Option.some.inj hold).symm⟩
        · cases hold
    · exact Or.inr hblank

/-- In an empty store all cells above the stack have values. -/
theorem furnished_new (l : Limits) : (new l).Furnished where
  size := size_new l
  values a ha h := by
    have hbelow : l.stackSize < a := ha
    rcases blank_of_foldl l Pool.all _ h with hstack | ⟨p, hblank⟩
    · rw [Array.getElem?_replicate, if_neg (by omega)] at hstack
      cases hstack
    · cases p <;> cases hblank

/-- Constants have values. -/
theorem ne_undefined_of_mem_cells {c : Constant} {d : Cell} (hd : d ∈ c.cells) : d ≠ .undefined := by
  rintro rfl
  cases c with
  | integer _ | real _ | set _ => cases List.mem_singleton.1 hd
  | bounds lower upper => rcases List.mem_pair.1 hd with h | h <;> cases h
  | bytes l =>
    obtain ⟨b, -, hb⟩ := List.mem_map.1 hd
    cases hb

variable {s s' : Store}

/-- A constant that is entered has a value. -/
theorem Furnished.enter (h : s.Furnished) {c : Constant} {a : Nat} (hrun : c.enter s = .ok a s') :
    s'.Furnished := by
  rcases enter_ok hrun with rfl | ⟨b, happend⟩
  · exact h
  · have hgrows := append_grows happend
    refine ⟨by rw [hgrows.size, hgrows.limits, h.size], fun a ha hcell => ?_⟩
    rw [hgrows.limits] at ha
    rcases getElem?_append happend hcell with hold | hnew
    · exact h.values a ha hold
    · exact ne_undefined_of_mem_cells hnew rfl

/-- A cell above the stack is in a pool. -/
theorem Furnished.exists_pool (h : s.Furnished) {a : Nat} (hlow : s.limits.stackSize < a)
    (hhigh : a < s.cells.size) : ∃ p, s.limits.poolStart p ≤ a ∧ a < s.limits.poolEnd p := by
  rw [h.size] at hhigh
  by_contra hnone
  -- no pool holds the cell, so it is behind every pool that starts at or below it
  have hstep : ∀ p, s.limits.poolStart p ≤ a → s.limits.poolEnd p ≤ a := by
    intro p hstart
    by_contra hend
    exact hnone ⟨p, hstart, by omega⟩
  have hinteger := hstep .integer
  have hreal := hstep .real
  have hset := hstep .set
  have hboundary := hstep .boundary
  have hmultiple := hstep .multiple
  simp only [Limits.poolEnd, Limits.poolStart, Pool.Tally.before, Pool.Tally.get] at *
  omega

end Store

/-- In the store of a program that was loaded all cells above the stack have values. -/
theorem Program.furnished_of_load {l : Limits} {text : Source} {p : Program} {rest : List UInt8}
    (h : load l text = .ok (p, rest)) : p.store.Furnished :=
  store_of_load (Store.furnished_new l) (fun hs hrun => hs.enter hrun) h

namespace Store

variable {s s' : Store} {a : Nat} {c : Cell}

/-- What is written was in the store, which stays as large as it was. -/
theorem lt_of_write (h : write a c s = .ok () s') : a < s.cells.size ∧ s'.cells.size = s.cells.size := by
  rcases Nat.lt_or_ge a s.cells.size with hlt | hle
  · rw [write_of_lt hlt] at h
    cases h
    exact ⟨hlt, Array.size_setIfInBounds⟩
  · rw [write_of_le hle] at h
    cases h

/-- A write fails for one reason only. -/
theorem write_raises (a : Nat) (c : Cell) : Action.Raises (· = .addressOutOfStore) (write a c) := by
  intro s f s' h
  rcases Nat.lt_or_ge a s.cells.size with hlt | hle
  · rw [write_of_lt hlt] at h
    cases h
  · rw [write_of_le hle] at h
    cases h
    rfl

end Store

namespace Machine

/-- What the start of a run puts at an address: something to read in the buffers of the files that are
read, nothing in those of the others. -/
def buffer? (a : Nat) : Option Cell :=
  match Channel.ofNumber a with
  | .ok .input | .ok .prd => some (.int 0)
  | .ok .output | .ok .prr => some .undefined
  | .error _ => none

/-- A channel is found by its number. -/
theorem number_of_ofNumber {a : Nat} {ch : Channel} (h : Channel.ofNumber a = .ok ch) : a = ch.number := by
  unfold Channel.ofNumber at h
  split at h <;> cases h <;> rfl

/-- Only files have buffers. -/
theorem buffer?_of_ne {a : Nat} (h : ∀ ch : Channel, a ≠ ch.number) : buffer? a = none := by
  unfold buffer?
  cases hch : Channel.ofNumber a with
  | ok ch => exact absurd (number_of_ofNumber hch) (h ch)
  | error f => rfl

/-- The buffers of the files hold no addresses. -/
theorem points_of_buffer? {a : Nat} {c : Cell} (h : buffer? a = some c) (V : Nat → Prop) : c.Points V := by
  unfold buffer? at h
  split at h <;> cases h <;> trivial

/-- A store with the buffers of the files as they are before a run. -/
def withBuffers (s : Store) : Store :=
  { s with
    cells := s.cells
      |>.setIfInBounds Channel.input.number (.int 0)
      |>.setIfInBounds Channel.output.number .undefined
      |>.setIfInBounds Channel.prd.number (.int 0)
      |>.setIfInBounds Channel.prr.number .undefined }

variable {s s' : Store}

/-- The buffers are cells of the store, which keeps its size. -/
theorem size_withBuffers (s : Store) : (withBuffers s).cells.size = s.cells.size := by
  simp only [withBuffers, Array.size_setIfInBounds]

/-- The cells of the buffers are set, and all others are as before. -/
theorem getElem?_withBuffers (h : Channel.prr.number < s.cells.size) (a : Nat) :
    (withBuffers s).cells[a]? = (buffer? a).or s.cells[a]? := by
  have hroom : ∀ n ≤ 7, n < s.cells.size := fun n hn => Nat.lt_of_le_of_lt hn h
  simp only [withBuffers, Array.getElem?_setIfInBounds, Array.size_setIfInBounds]
  by_cases hfile : ∃ ch : Channel, a = ch.number
  · obtain ⟨ch, rfl⟩ := hfile
    cases ch <;> simp [Channel.number, buffer?, Channel.ofNumber, hroom]
  · have hne : ∀ ch : Channel, a ≠ ch.number := fun ch hch => hfile ⟨ch, hch⟩
    rw [buffer?_of_ne hne, Option.none_or, if_neg (hne .prr).symm, if_neg (hne .prd).symm,
      if_neg (hne .output).symm, if_neg (hne .input).symm]

/-- The buffers are set if all four are in the store. -/
theorem resetBuffers_of_lt (h : Channel.prr.number < s.cells.size) :
    resetBuffers s = .ok () (withBuffers s) := by
  have hroom : ∀ n ≤ 7, n < s.cells.size := fun n hn => Nat.lt_of_le_of_lt hn h
  unfold resetBuffers withBuffers
  rw [Action.bind_of_ok (Store.write_of_lt (hroom _ (by decide)) _),
    Action.bind_of_ok (Store.write_of_lt (by simpa using hroom _ (by decide)) _),
    Action.bind_of_ok (Store.write_of_lt (by simpa using hroom _ (by decide)) _),
    Store.write_of_lt (by simpa using h)]

/-- The store has to have an address for each buffer. -/
theorem lt_of_resetBuffers (h : resetBuffers s = .ok () s') : Channel.prr.number < s.cells.size := by
  obtain ⟨_, s₁, h₁, hrun₁⟩ := Action.bind_eq_ok.1 h
  obtain ⟨_, s₂, h₂, hrun₂⟩ := Action.bind_eq_ok.1 hrun₁
  obtain ⟨_, s₃, h₃, h₄⟩ := Action.bind_eq_ok.1 hrun₂
  rw [← (Store.lt_of_write h₁).2, ← (Store.lt_of_write h₂).2, ← (Store.lt_of_write h₃).2]
  exact (Store.lt_of_write h₄).1

/-- To set the buffers fails for one reason only. -/
theorem resetBuffers_raises : Action.Raises (· = .addressOutOfStore) resetBuffers :=
  .bind (Store.write_raises _ _) fun _ => .bind (Store.write_raises _ _) fun _ =>
    .bind (Store.write_raises _ _) fun _ => Store.write_raises _ _

variable {p p' : Program} {files : Files} {m : Machine}

/-- A store with addresses for the buffers is all that a program needs to start. -/
theorem boot_eq (files : Files) (h : Channel.prr.number < p.store.size) :
    boot files p = .ok
      { pc := 0, mp := 0, sp := -1, np := p.store.limits.stackSize + 1
        code := p.code, store := withBuffers p.store, files }
      { p with store := withBuffers p.store } := by
  unfold boot
  rw [Action.bind_of_ok (Action.zoom_of_ok (resetBuffers_of_lt h))]
  rfl

/-- In a store without room for the buffers no program starts. -/
theorem boot_error (files : Files) (h : p.store.size ≤ Channel.prr.number) :
    ∃ p', boot files p = .error .addressOutOfStore p' := by
  unfold boot
  cases hrun : resetBuffers p.store with
  | ok u s =>
    have hlt : Channel.prr.number < p.store.size := lt_of_resetBuffers hrun
    omega
  | error f s =>
    cases resetBuffers_raises _ _ _ hrun
    exact ⟨_, Action.bind_of_error (Action.zoom_of_error hrun)⟩

/-- A machine at the start of a program has room for the buffers. -/
theorem boot_ok (h : boot files p = .ok m p') : Channel.prr.number < p.store.size ∧
    m = { pc := 0, mp := 0, sp := -1, np := p.store.limits.stackSize + 1
          code := p.code, store := withBuffers p.store, files } := by
  by_cases hroom : Channel.prr.number < p.store.size
  · rw [boot_eq files hroom] at h
    cases h
    exact ⟨hroom, rfl⟩
  · obtain ⟨p₁, herror⟩ := boot_error (p := p) files (by omega)
    rw [herror] at h
    cases h

/-- **The start of a run and the constants.** A loaded program starts just if its store has an address
for each buffer. The start then fills the buffers and leaves all other cells as they are, so that the
pools are as loaded just if the stack reaches up to the last buffer. Otherwise that buffer is a cell of a
pool, and the value that stood there is lost. -/
theorem boot_keeps_iff (l : Limits) (text : Source) (p : Program) (rest : List UInt8)
    (hload : Program.load l text = .ok (p, rest)) (files : Files) :
    (p.store.size ≤ Channel.prr.number → ∃ p', boot files p = .error .addressOutOfStore p') ∧
    (Channel.prr.number < p.store.size → ∃ m p', boot files p = .ok m p' ∧
      (∀ a, m.store.cells[a]? = (buffer? a).or p.store.cells[a]?) ∧
      ((∀ q a, l.poolStart q ≤ a → a < l.poolEnd q → m.store.cells[a]? = p.store.cells[a]?) ↔
        Channel.prr.number ≤ l.stackSize)) := by
  refine ⟨boot_error files, fun hroom => ⟨_, _, boot_eq files hroom, getElem?_withBuffers hroom, ?_⟩⟩
  have hfurnished := Program.furnished_of_load hload
  have hlimits := Program.limits_of_load hload
  constructor
  · intro hkept
    by_contra hlow
    -- the last buffer is above the stack, so in a pool: it had a value, and has none now
    obtain ⟨q, hstart, hend⟩ := hfurnished.exists_pool (by rw [hlimits]; omega) hroom
    rw [hlimits] at hstart hend
    have hcell := hkept q _ hstart hend
    simp only [getElem?_withBuffers hroom] at hcell
    exact hfurnished.values _ (by rw [hlimits]; omega) hcell.symm
  · intro hstack q a hstart _
    have hpool := l.stackSize_lt_poolStart q
    have hnone : buffer? a = none := buffer?_of_ne fun ch => by
      cases ch <;> simp only [Channel.number] at * <;> omega
    simp only [getElem?_withBuffers hroom, hnone, Option.none_or]

/-- A program with a constant in the first cell of the first pool. -/
def constantText : List Char := "\n LDC I 1000000\n STP\n".toList

/-- Limits under which the buffers are in the first pool. -/
def shortLimits : Limits := { stackSize := 3, pools := { integer := 5 }, codeSize := 8, maxLabel := 0 }

theorem boot_keeps_iff_short : ∃ p rest m p',
    Program.load shortLimits ⟨Lines.encode constantText, none⟩ = .ok (p, rest) ∧
      p.store.contents .integer = [.int 1000000] ∧ boot {} p = .ok m p' ∧
      m.store.contents .integer = [.int 0] ∧
      ¬ ∀ q a, shortLimits.poolStart q ≤ a → a < shortLimits.poolEnd q →
        m.store.cells[a]? = p.store.cells[a]? := by
  have hrun : (Program.load shortLimits ⟨Lines.encode constantText, none⟩).toOption.map (fun x =>
      (x.1.store.size, x.1.store.contents .integer,
        (withBuffers x.1.store).contents .integer)) = some (9, [.int 1000000], [.int 0]) := by
    decide +kernel
  cases hload : Program.load shortLimits ⟨Lines.encode constantText, none⟩ with
  | error f =>
    rw [hload] at hrun
    cases hrun
  | ok x =>
    obtain ⟨p, rest⟩ := x
    rw [hload] at hrun
    obtain ⟨hsize, hrun⟩ := Prod.mk.inj (Option.some.inj hrun)
    obtain ⟨hloaded, hstarted⟩ := Prod.mk.inj hrun
    have hroom : Channel.prr.number < p.store.size := hsize.symm ▸ (by decide)
    obtain ⟨m, p', hboot, -, hkept⟩ := (boot_keeps_iff _ _ p rest hload {}).2 hroom
    refine ⟨p, rest, m, p', rfl, hloaded, hboot, ?_, hkept.not.2 (by decide)⟩
    obtain ⟨-, rfl⟩ := boot_ok hboot
    exact hstarted

end Machine

end PMachine
