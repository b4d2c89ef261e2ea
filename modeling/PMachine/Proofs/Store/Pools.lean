import PMachine.Proofs.Store.Constants

/-!
# The pools keep to their tables

Five tables share one array with the stack. A request enters a constant or writes to the stack, and
every run of requests, from a new store on, leaves the pools as the tables of the constants that
were accepted.

* `Store.Holds`: the pools of a store are the tables of the accepted constants.
* `Store.Holds.enter_ok`, `Store.Holds.enter_full`: one more constant, with a place for it and without.
* `Store.serve_holds`: the invariant along every run of requests.
* `Store.pools_refine_tables`: contents, addresses, failures and stability of the pools.
-/

namespace PMachine.Store

open Constant

/-- The pools of a store of the given sizes are the tables of the accepted constants. -/
structure Holds (l : Limits) (accepted : List Constant) (s : Store) : Prop where
  limits : s.limits = l
  size : s.cells.size = l.poolEnd .multiple
  used : ∀ p, s.used.get p = (tableCells p accepted).length
  room : ∀ p, (tableCells p accepted).length ≤ l.pools.get p
  held : ∀ p i, i < (tableCells p accepted).length →
    s.cells[l.poolStart p + i]? = (tableCells p accepted)[i]?

variable {l : Limits} {accepted : List Constant} {s : Store} {c : Constant}

/-- An empty store holds no constants. -/
theorem holds_new (l : Limits) : Holds l [] (new l) := by
  have hnil : ∀ p, tableCells p [] = [] := by intro p; cases p <;> rfl
  refine ⟨rfl, size_new l, ?_, ?_, ?_⟩
  · intro p; rw [used_new, hnil]; rfl
  · intro p; rw [hnil]; exact Nat.zero_le _
  · intro p i hi; rw [hnil] at hi; simp at hi

namespace Holds

theorem start_eq (h : Holds l accepted s) (p : Pool) : s.start p = l.poolStart p := by
  rw [start, h.limits]

/-- The next free cell of a pool is behind the cells of its table. -/
theorem free_eq (h : Holds l accepted s) (p : Pool) :
    s.free p = l.poolStart p + (tableCells p accepted).length := by
  rw [free, h.start_eq, h.used]

/-- The room in a pool is what its table leaves. -/
theorem room_eq (h : Holds l accepted s) (p : Pool) :
    s.room p = l.pools.get p - (tableCells p accepted).length := by
  rw [Store.room, h.limits, h.used]

/-- Pools lie in the store. -/
theorem region_le (h : Holds l accepted s) (p : Pool) :
    l.poolStart p + l.pools.get p ≤ s.cells.size := by
  rw [h.size]
  exact l.poolEnd_le p

/-- **A pool holds exactly its table.** -/
theorem contents_eq (h : Holds l accepted s) (p : Pool) : s.contents p = tableCells p accepted := by
  have hend := h.region_le p
  have hroom := h.room p
  unfold contents
  rw [h.start_eq, h.free_eq]
  apply List.ext_getElem?
  intro i
  rw [Array.getElem?_toList, Array.getElem?_extract]
  by_cases hi : i < (tableCells p accepted).length
  · rw [if_pos (by omega), h.held p i hi]
  · rw [if_neg (by omega), List.getElem?_eq_none (by omega)]

/-- A write to the stack leaves the pools alone. -/
theorem write (h : Holds l accepted s) {a : Nat} (ha : a ≤ l.stackSize) (c : Cell) :
    Holds l accepted ((Store.write a c).after s) := by
  have hlt : a < s.cells.size := by
    have h1 := l.stackSize_lt_poolStart .multiple
    have h2 := h.region_le .multiple
    omega
  rw [Action.after_of_ok (write_of_lt hlt c)]
  refine ⟨h.limits, by rw [Array.size_setIfInBounds]; exact h.size, h.used, h.room, ?_⟩
  intro p i hi
  have h1 := l.stackSize_lt_poolStart p
  rw [Array.getElem?_setIfInBounds_ne (by omega)]
  exact h.held p i hi

/-- Cells for a constant with a place in no table yet keep the pools as tables. -/
theorem append (h : Holds l accepted s) (hc : c.pool = .multiple ∨ c ∉ accepted)
    (hf : (tableCells c.pool accepted).length + c.cells.length ≤ l.pools.get c.pool) :
    Holds l (accepted ++ [c])
      { s with
        cells := overwrite s.cells (s.free c.pool) c.cells
        used := s.used.add c.cells.length c.pool } := by
  have hend := h.region_le c.pool
  have hfree := h.free_eq c.pool
  have hin : s.free c.pool + c.cells.length ≤ s.cells.size := by omega
  refine ⟨h.limits, by rw [size_overwrite]; exact h.size, ?_, ?_, ?_⟩
  · intro p
    rw [Pool.Tally.get_add, tableCells_append_of_new hc, h.used]
    by_cases hp : p = c.pool
    · rw [if_pos hp, if_pos hp.symm, List.length_append]
    · rw [if_neg hp, if_neg (Ne.symm hp), List.append_nil]
  · intro p
    rw [tableCells_append_of_new hc]
    by_cases hp : c.pool = p
    · subst hp; rw [if_pos rfl, List.length_append]; exact hf
    · rw [if_neg hp, List.append_nil]; exact h.room p
  · intro p i hi
    rw [tableCells_append_of_new hc] at hi ⊢
    rw [getElem?_overwrite _ _ _ _ hin, hfree]
    by_cases hp : c.pool = p
    · subst hp
      rw [if_pos rfl, List.length_append] at hi
      rw [if_pos rfl]
      by_cases hlt : i < (tableCells c.pool accepted).length
      · rw [if_neg (by omega), List.getElem?_append_left hlt]
        exact h.held _ i hlt
      · rw [if_pos (by omega), List.getElem?_append_right (by omega)]
        congr 1
        omega
    · rw [if_neg hp, List.append_nil] at hi ⊢
      have hroom := h.room p
      have hdis := l.pools_disjoint hp
      unfold Limits.poolEnd at hdis
      rw [if_neg (by omega)]
      exact h.held p i hi

/-- Entering a constant finds it in its table or appends its cells to the pool. -/
theorem enter_eq (h : Holds l accepted s) (c : Constant) :
    c.enter s =
      if c.pool ≠ .multiple ∧ c ∈ accepted then .ok (address l accepted c) s
      else match Store.append c.pool c.cells s with
        | .ok a s => .ok (a + (width c.pool - 1)) s
        | .error f s => .error f s := by
  have hcon := h.contents_eq c.pool
  have hpools : ∀ d ∈ table c.pool accepted, d.pool = c.pool := fun d hd => (mem_table.1 hd).2
  have hmem : c ∈ table c.pool accepted ↔ c ∈ accepted := by simp [mem_table]
  -- a constant with one cell, in a pool of shared constants
  have single : ∀ cell, c.pool ≠ .multiple → c.cells = [cell] → width c.pool = 1 →
      Store.intern c.pool cell s =
        if c.pool ≠ .multiple ∧ c ∈ accepted then .ok (address l accepted c) s
        else match Store.append c.pool c.cells s with
          | .ok a s => .ok (a + (width c.pool - 1)) s
          | .error f s => .error f s := by
    intro cell hs hc hw
    unfold Store.intern
    rw [hcon, tableCells, idxOf?_flatMap_cells hs hc _ hpools, idxOf?_eq_ite, hw, hc]
    by_cases hin : c ∈ accepted
    · rw [if_pos (hmem.2 hin), if_pos ⟨hs, hin⟩]
      simp only [address, firstCell, if_neg hs, table_append_of_mem hs hin, hw, Nat.one_mul,
        h.start_eq, Nat.sub_self, Nat.add_zero]
    · rw [if_neg (fun hh => hin (hmem.1 hh)), if_neg (fun hh => hin hh.2)]
      simp only [Nat.sub_self, Nat.add_zero]
      split <;> rename_i heq <;> exact heq
  cases c with
  | integer n => exact single (.int n) (by simp [pool]) rfl rfl
  | real x => exact single (.real x) (by simp [pool]) rfl rfl
  | set t => exact single (.set t) (by simp [pool]) rfl rfl
  | bounds lower upper =>
    have hs : (bounds lower upper).pool ≠ .multiple := by simp [pool]
    change s.contents .boundary = _ at hcon
    rw [enter, Store.internBounds, Action.bind_of_ok (Action.get_apply s)]
    rw [hcon, tableCells, pairIdx?_flatMap_cells lower upper _ hpools, idxOf?_eq_ite]
    by_cases hin : bounds lower upper ∈ accepted
    · rw [if_pos (hmem.2 hin), if_pos ⟨hs, hin⟩]
      simp only [address, firstCell, if_neg hs, table_append_of_mem hs hin, h.start_eq,
        Option.map_some]
      rfl
    · rw [if_neg (fun hh => hin (hmem.1 hh)), if_neg (fun hh => hin hh.2)]
      simp only [Option.map_none, pool, width, Constant.cells]
      rw [Action.bind_apply]
      cases Store.append .boundary [.int lower, .int upper] s <;> rfl
  | bytes b =>
    simp only [enter, Store.appendBytes, pool, width, ne_eq, not_true_eq_false, false_and,
      if_false, Nat.sub_self, Nat.add_zero]
    split <;> rename_i heq <;> exact heq

theorem firstCell_of_new (hc : c.pool = .multiple ∨ c ∉ accepted) :
    firstCell l accepted c = l.poolStart c.pool + (tableCells c.pool accepted).length := by
  unfold firstCell
  by_cases hm : c.pool = .multiple
  · rw [if_pos hm, hm]
  · have hn : c ∉ table c.pool accepted := fun h => (hc.resolve_left hm) (mem_table.1 h).1
    rw [if_neg hm, table_append_of_new hc, if_pos rfl, List.idxOf_append_of_notMem hn,
      List.idxOf_cons_self, Nat.add_zero, length_tableCells hm]

/-- **A constant with a place.** It is entered, its address follows from the table, and no cell
changes but those that it takes. -/
theorem enter_ok (h : Holds l accepted s) (hf : Fits l accepted c) :
    ∃ s', c.enter s = .ok (address l accepted c) s' ∧ Holds l (accepted ++ [c]) s' ∧
      ∀ a, ¬ (firstCell l accepted c ≤ a ∧ a < firstCell l accepted c + c.cells.length) →
        s'.cells[a]? = s.cells[a]? := by
  rw [h.enter_eq]
  by_cases hc : c.pool ≠ .multiple ∧ c ∈ accepted
  · refine ⟨s, if_pos hc, ⟨h.limits, h.size, ?_, ?_, ?_⟩, fun a _ => rfl⟩
    · intro p; rw [tableCells_append_of_mem hc.1 hc.2]; exact h.used p
    · intro p; rw [tableCells_append_of_mem hc.1 hc.2]; exact h.room p
    · intro p; rw [tableCells_append_of_mem hc.1 hc.2]; exact h.held p
  · have hnew : c.pool = .multiple ∨ c ∉ accepted := by tauto
    have hle := (fits_iff_of_new hnew).1 hf
    have hroom : c.cells.length ≤ s.room c.pool := by rw [h.room_eq]; omega
    refine ⟨_, ?_, h.append hnew hle, ?_⟩
    · rw [if_neg hc, append_eq hroom]
      simp only [address, firstCell_of_new hnew, h.free_eq]
    · intro a ha
      have hend := h.region_le c.pool
      rw [firstCell_of_new hnew, ← h.free_eq] at ha
      rw [getElem?_overwrite _ _ _ _ (by rw [h.free_eq]; omega), if_neg ha]

/-- **A constant without a place** is refused, and the store stays as it is. -/
theorem enter_full (h : Holds l accepted s) (hf : ¬ Fits l accepted c) :
    c.enter s = .error (.tableFull c.pool.name) s := by
  have hc : ¬ (c.pool ≠ .multiple ∧ c ∈ accepted) := fun hc => hf (fits_of_mem hc.1 hc.2)
  have hle := (fits_iff_of_new (l := l) (by tauto)).not.1 hf
  have hroom : ¬ c.cells.length ≤ s.room c.pool := by
    have := h.room c.pool
    rw [h.room_eq]; omega
  rw [h.enter_eq, if_neg hc, append_full hroom]

/-- An accepted constant is read back from its place, whatever was accepted after it. -/
theorem read_eq {more : List Constant} (h : Holds l (accepted ++ [c] ++ more) s) {i : Nat}
    (hi : i < c.cells.length) : s.read (firstCell l accepted c + i) = .ok c.cells[i] := by
  have hle : l.poolStart c.pool ≤ firstCell l accepted c := Nat.le_add_right _ _
  have hcell := getElem?_tableCells l accepted more hi
  rw [List.getElem?_eq_getElem hi] at hcell
  have hlt := (List.getElem?_eq_some_iff.1 hcell).1
  have hheld := h.held c.pool _ hlt
  rw [hcell, show l.poolStart c.pool + (firstCell l accepted c - l.poolStart c.pool + i)
    = firstCell l accepted c + i by omega] at hheld
  simp only [read, hheld]

end Holds

/-! ### Runs of requests -/

/-- A request to a store of the given sizes. -/
inductive Request (l : Limits) where
  /-- Enters a constant into its pool. -/
  | enter (c : Constant)
  /-- Writes to a cell of the stack. -/
  | write (a : Nat) (onStack : a ≤ l.stackSize) (cell : Cell)

/-- The store after one request, and the constants accepted so far. -/
def serve : Store × List Constant → Request l → Store × List Constant
  | (s, accepted), .enter c => match c.enter s with
    | .ok _ s => (s, accepted ++ [c])
    | .error _ s => (s, accepted)
  | (s, accepted), .write a _ cell => ((Store.write a cell).after s, accepted)

/-- A new store after a run of requests, and the constants that it accepted, in order. -/
def served (rs : List (Request l)) : Store × List Constant := rs.foldl serve (new l, [])

/-- A constant that fits is accepted. -/
theorem serve_enter_ok (h : Holds l accepted s) (hf : Fits l accepted c) :
    (serve (s, accepted) (.enter c : Request l)).2 = accepted ++ [c] := by
  obtain ⟨s', hs', -, -⟩ := h.enter_ok hf
  simp only [serve, hs']

/-- One that does not changes nothing. -/
theorem serve_enter_full (h : Holds l accepted s) (hf : ¬ Fits l accepted c) :
    serve (s, accepted) (.enter c : Request l) = (s, accepted) := by
  simp only [serve, h.enter_full hf]

/-- One request keeps the pools as tables. -/
theorem serve_holds {t : Store × List Constant} (h : Holds l t.2 t.1) (r : Request l) :
    Holds l (serve t r).2 (serve t r).1 := by
  obtain ⟨s, accepted⟩ := t
  cases r with
  | enter c =>
    by_cases hf : Fits l accepted c
    · obtain ⟨s', hs', hh, -⟩ := h.enter_ok hf
      simp only [serve, hs']
      exact hh
    · rw [serve_enter_full h hf]
      exact h
  | write a ha cell => exact h.write ha cell

/-- Requests keep the store and its tables in step. -/
theorem foldl_serve_holds (rs : List (Request l)) : ∀ t : Store × List Constant, Holds l t.2 t.1 →
    Holds l (rs.foldl serve t).2 (rs.foldl serve t).1 := by
  induction rs with
  | nil => intro t h; exact h
  | cons r rs ih => intro t h; exact ih _ (serve_holds h r)

/-- Every run of requests keeps the pools as tables. -/
theorem served_holds (rs : List (Request l)) : Holds l (served rs).2 (served rs).1 :=
  foldl_serve_holds rs _ (holds_new l)

theorem served_append (rs more : List (Request l)) :
    served (rs ++ more) = more.foldl serve (served rs) := by
  unfold served
  rw [List.foldl_append]

/-- What was accepted stays accepted, and later constants come behind it. -/
theorem foldl_serve_accepted (rs : List (Request l)) : ∀ t : Store × List Constant,
    ∃ more, (rs.foldl serve t).2 = t.2 ++ more := by
  induction rs with
  | nil => intro t; exact ⟨[], (List.append_nil _).symm⟩
  | cons r rs ih =>
    intro t
    obtain ⟨more, hmore⟩ := ih (serve t r)
    have hstep : ∃ new, (serve t r).2 = t.2 ++ new := by
      obtain ⟨s, accepted⟩ := t
      cases r with
      | enter c =>
        simp only [serve]
        split
        · exact ⟨[c], rfl⟩
        · exact ⟨[], (List.append_nil _).symm⟩
      | write a ha cell => exact ⟨[], (List.append_nil _).symm⟩
    obtain ⟨new, hnew⟩ := hstep
    exact ⟨new ++ more, by rw [List.foldl_cons, hmore, hnew, List.append_assoc]⟩

/-- **The pools refine their tables.** After every run of requests each pool holds exactly its
table. A constant with a place gets the address that follows from the table, changes no cell but its
own and is read back after any further requests; one without a place is refused, and the store stays
as it is. Character data goes to cells of its own, behind all that was entered before. The pools are
disjoint and lie between the stack and the end of the store. -/
theorem pools_refine_tables (l : Limits) (rs : List (Request l)) :
    (∀ p, (served rs).1.contents p = (table p (served rs).2).flatMap Constant.cells) ∧
    (∀ c, Fits l (served rs).2 c →
      c.enter.outcome (served rs).1 = .ok (address l (served rs).2 c) ∧
      (served (rs ++ [.enter c])).2 = (served rs).2 ++ [c] ∧
      (∀ a, ¬ (firstCell l (served rs).2 c ≤ a ∧
          a < firstCell l (served rs).2 c + c.cells.length) →
        (served (rs ++ [.enter c])).1.cells[a]? = (served rs).1.cells[a]?) ∧
      ∀ (more : List (Request l)) (i : Nat) (hi : i < c.cells.length),
        (served (rs ++ .enter c :: more)).1.read (firstCell l (served rs).2 c + i)
          = .ok c.cells[i]) ∧
    (∀ c, ¬ Fits l (served rs).2 c →
      c.enter (served rs).1 = .error (.tableFull c.pool.name) (served rs).1) ∧
    (∀ (b b' : List UInt8) (more : List (Request l)), Fits l (served rs).2 (.bytes b) →
      firstCell l (served rs).2 (.bytes b) + b.length
        ≤ firstCell l (served (rs ++ .enter (.bytes b) :: more)).2 (.bytes b')) ∧
    (∀ p, l.stackSize < l.poolStart p ∧ l.poolEnd p ≤ (served rs).1.size) ∧
    ∀ p q, p ≠ q → l.poolEnd p ≤ l.poolStart q ∨ l.poolEnd q ≤ l.poolStart p := by
  have h := served_holds rs
  -- what is accepted after `c` and more requests starts with what was there, and `c`
  have later : ∀ c, Fits l (served rs).2 c → ∀ more : List (Request l),
      ∃ rest, (served (rs ++ .enter c :: more)).2 = (served rs).2 ++ [c] ++ rest := by
    intro c hf more
    obtain ⟨rest, hrest⟩ := foldl_serve_accepted more (serve (served rs) (.enter c))
    refine ⟨rest, ?_⟩
    rw [served_append, List.foldl_cons, hrest, serve_enter_ok h hf]
  refine ⟨h.contents_eq, ?_, fun c hf => h.enter_full hf, ?_, ?_, fun p q => l.pools_disjoint⟩
  · intro c hf
    obtain ⟨s', hs', -, hframe⟩ := h.enter_ok hf
    have hserve : served (rs ++ [.enter c]) = (s', (served rs).2 ++ [c]) := by
      rw [served_append, List.foldl_cons, List.foldl_nil, serve, hs']
    refine ⟨Action.outcome_eq_ok.2 ⟨s', hs'⟩, by rw [hserve], ?_, ?_⟩
    · rw [hserve]; exact hframe
    · intro more i hi
      obtain ⟨rest, hrest⟩ := later c hf more
      have hh := served_holds (rs ++ .enter c :: more)
      rw [hrest] at hh
      exact hh.read_eq hi
  · intro b b' more hf
    obtain ⟨rest, hrest⟩ := later _ hf more
    have hlen := (tableCells_grows (bytes b).pool ((served rs).2 ++ [.bytes b]) rest).length_le
    rw [tableCells_append_of_new (Or.inl rfl), if_pos rfl, List.length_append] at hlen
    rw [hrest, Holds.firstCell_of_new (Or.inl rfl), Holds.firstCell_of_new (Or.inl rfl)]
    simp only [pool, Constant.cells, List.length_map] at hlen ⊢
    omega
  · intro p
    refine ⟨l.stackSize_lt_poolStart p, ?_⟩
    rw [Store.size, h.size]
    exact l.poolEnd_le p

end PMachine.Store
