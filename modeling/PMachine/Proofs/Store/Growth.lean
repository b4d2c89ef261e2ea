import PMachine.Proofs.Store.Constants

/-!
# The growth of a pool

Whatever a store holds, entering a constant either finds it or adds its cells behind those that its pool
has handed out. All other cells, the other pools and the sizes stay as they are. A constant that is refused
leaves the whole store as it is.

* `Store.Grows`: one store comes from another by adding cells to a pool.
* `Store.append_grows`, `Store.append_error`: entering cells, with room for them and without.
* `Store.enter_ok`, `Store.enter_error`: entering a constant, with a place for it and without.
-/

namespace PMachine.Store

/-- One store comes from another by adding cells to a pool that has room for them. -/
structure Grows (p : Pool) (s s' : Store) : Prop where
  limits : s'.limits = s.limits
  size : s'.cells.size = s.cells.size
  others : ∀ q, q ≠ p → s'.used.get q = s.used.get q
  used : s.used.get p ≤ s'.used.get p
  room : s'.used.get p - s.used.get p ≤ s.room p
  cells : ∀ a, ¬ (s.free p ≤ a ∧ a < s'.free p) → s'.cells[a]? = s.cells[a]?

/-- Replacing consecutive cells leaves the cells before and behind them alone. -/
theorem getElem?_overwrite_of_outside {i : Nat} (cs : List Cell) : ∀ (cells : Array Cell) (a : Nat),
    ¬ (a ≤ i ∧ i < a + cs.length) → (overwrite cells a cs)[i]? = cells[i]? := by
  induction cs with
  | nil => intro cells a _; rfl
  | cons c cs ih =>
    intro cells a h
    rw [List.length_cons] at h
    rw [overwrite, ih _ _ (by omega), Array.getElem?_setIfInBounds_ne (by omega)]

/-- A cell after a replacement was there before or is a new one. -/
theorem getElem?_overwrite_or {c : Cell} {i : Nat} (cs : List Cell) : ∀ (cells : Array Cell) (a : Nat),
    (overwrite cells a cs)[i]? = some c → cells[i]? = some c ∨ c ∈ cs := by
  induction cs with
  | nil => exact fun cells a h => Or.inl h
  | cons d cs ih =>
    intro cells a h
    rcases ih _ _ h with hold | hnew
    · rw [Array.getElem?_setIfInBounds] at hold
      split at hold
      · split at hold
        · exact Or.inr (List.mem_cons.2 (Or.inl (Option.some.inj hold).symm))
        · cases hold
      · exact Or.inl hold
    · exact Or.inr (List.mem_cons_of_mem d hnew)

variable {s s' : Store} {p : Pool} {cs : List Cell} {a : Nat} {f : Fault}

theorem append_ok (h : append p cs s = .ok a s') : cs.length ≤ s.room p ∧
    s' = { s with cells := overwrite s.cells (s.free p) cs, used := s.used.add cs.length p } := by
  by_cases hroom : cs.length ≤ s.room p
  · rw [append_eq hroom] at h
    cases h
    exact ⟨hroom, rfl⟩
  · rw [append_full hroom] at h
    cases h

theorem append_error (h : append p cs s = .error f s') : s' = s := by
  by_cases hroom : cs.length ≤ s.room p
  · rw [append_eq hroom] at h
    cases h
  · rw [append_full hroom] at h
    cases h
    rfl

/-- Cells that find room make their pool grow. -/
theorem append_grows (h : append p cs s = .ok a s') : s.Grows p s' := by
  obtain ⟨hroom, rfl⟩ := append_ok h
  have hused : (s.used.add cs.length p).get p = s.used.get p + cs.length := by
    rw [Pool.Tally.get_add, if_pos rfl]
  refine ⟨rfl, size_overwrite cs _ _, fun q hq => ?_, ?_, ?_, fun b hb => ?_⟩
  · rw [Pool.Tally.get_add, if_neg hq]
  · rw [hused]
    omega
  · rw [hused]
    omega
  · refine getElem?_overwrite_of_outside cs _ _ ?_
    simp only [free, start, hused] at hb ⊢
    omega

/-- Entering cells adds no others. -/
theorem getElem?_append (h : append p cs s = .ok a s') {b : Nat} {c : Cell}
    (hc : s'.cells[b]? = some c) : s.cells[b]? = some c ∨ c ∈ cs := by
  obtain ⟨-, rfl⟩ := append_ok h
  exact getElem?_overwrite_or cs _ _ hc

/-! ### Constants -/

variable {c : Constant}

/-- Interning a cell finds it or adds it. -/
theorem intern_cases (p : Pool) (c : Cell) (s : Store) :
    (∃ b, intern p c s = .ok b s) ∨ intern p c s = append p [c] s := by
  unfold intern
  cases hidx : (s.contents p).idxOf? c with
  | some i => exact Or.inl ⟨_, rfl⟩
  | none => exact Or.inr rfl

/-- Entering a constant finds it, or adds its cells to its pool. -/
theorem enter_cases (c : Constant) (s : Store) :
    (∃ b, c.enter s = .ok b s) ∨
      ∃ d, c.enter s = (append c.pool c.cells >>= fun b => pure (b + d)) s := by
  have hplain : ∀ (p : Pool) (cs : List Cell),
      append p cs s = (append p cs >>= fun b => pure (b + 0)) s := by
    intro p cs
    rw [Action.bind_apply]
    cases append p cs s <;> rfl
  cases c with
  | integer n => exact (intern_cases .integer (.int n) s).imp id fun h => ⟨0, h.trans (hplain _ _)⟩
  | real x => exact (intern_cases .real (.real x) s).imp id fun h => ⟨0, h.trans (hplain _ _)⟩
  | set t => exact (intern_cases .set (.set t) s).imp id fun h => ⟨0, h.trans (hplain _ _)⟩
  | bytes l => exact Or.inr ⟨0, hplain _ _⟩
  | bounds lower upper =>
    rw [Constant.enter, internBounds, Action.bind_of_ok (Action.get_apply s)]
    cases pairIdx? (.int lower) (.int upper) (s.contents .boundary) with
    | some i => exact Or.inl ⟨_, rfl⟩
    | none => exact Or.inr ⟨1, rfl⟩

/-- A constant that is accepted was there, or its cells are added to its pool. -/
theorem enter_ok (h : c.enter s = .ok a s') :
    s' = s ∨ ∃ b, append c.pool c.cells s = .ok b s' := by
  rcases enter_cases c s with ⟨b, hfound⟩ | ⟨d, hadded⟩
  · rw [hfound] at h
    cases h
    exact Or.inl rfl
  · rw [hadded] at h
    obtain ⟨b, s₁, happend, hlast⟩ := Action.bind_eq_ok.1 h
    cases hlast
    exact Or.inr ⟨b, happend⟩

/-- A constant that is refused changes nothing. -/
theorem enter_error (h : c.enter s = .error f s') : s' = s := by
  rcases enter_cases c s with ⟨b, hfound⟩ | ⟨d, hadded⟩
  · rw [hfound] at h
    cases h
  · rw [hadded, Action.bind_apply] at h
    cases hrun : append c.pool c.cells s with
    | ok b s₁ =>
      rw [hrun] at h
      cases h
    | error g s₁ =>
      rw [hrun] at h
      cases h
      exact append_error hrun

/-- A constant whose cells have room in its pool is accepted. -/
theorem enter_total (h : c.cells.length ≤ s.room c.pool) : ∃ a s', c.enter s = .ok a s' := by
  rcases enter_cases c s with ⟨b, hfound⟩ | ⟨d, hadded⟩
  · exact ⟨b, s, hfound⟩
  · rw [hadded, Action.bind_of_ok (append_eq h)]
    exact ⟨_, _, rfl⟩

end PMachine.Store
