import PMachine.Proofs.Store.Regions

/-!
# The constants in the pools

A pool is a table of constants. Integers, reals, sets and pairs of bounds are shared: the table
lists each of them once, in the order of their first appearance. Character data is never shared: the
table lists it every time. The store keeps all five tables in one array, next to a stack that a
program writes to as it likes.

* `Constant.table`: the table of a pool, from the constants accepted so far.
* `Constant.Fits`: whether there is a place for one more.
* `Constant.tableCells_grows`: later constants do not move earlier ones.
* `Constant.getElem?_tableCells`: where the cells of a constant stand in its table.
-/

namespace PMachine

/-- A constant that goes to a pool. -/
inductive Constant where
  | integer (n : Word)
  | real (x : Binary64)
  | set (s : IntSet)
  | bounds (lower upper : Word)
  | bytes (l : List UInt8)
deriving DecidableEq, Repr

namespace Constant

/-- The pool of a constant. -/
def pool : Constant → Pool
  | integer _ => .integer
  | real _ => .real
  | set _ => .set
  | bounds _ _ => .boundary
  | bytes _ => .multiple

/-- The cells that a constant takes in its pool. -/
def cells : Constant → List Cell
  | integer n => [.int n]
  | real x => [.real x]
  | set s => [.set s]
  | bounds lower upper => [.int lower, .int upper]
  | bytes l => l.map fun b => .int (Int64.ofNat b.toNat)

/-- Enters a constant into its pool; the address names its last cell, for character data its first. -/
def enter : Constant → Action Store Nat
  | integer n => Store.intern .integer (.int n)
  | real x => Store.intern .real (.real x)
  | set s => Store.intern .set (.set s)
  | bounds lower upper => Store.internBounds lower upper
  | bytes l => Store.appendBytes l

/-- The number of cells of each constant in a pool of shared constants. -/
def width : Pool → Nat
  | .boundary => 2
  | _ => 1

/-- The table of a pool after some constants were accepted: each constant once, in the order of the
first appearances, and character data every time. -/
def table (p : Pool) (accepted : List Constant) : List Constant :=
  let l := accepted.filter (·.pool = p)
  if p = .multiple then l else l.eraseDups

/-- The cells of the table of a pool. -/
def tableCells (p : Pool) (accepted : List Constant) : List Cell :=
  (table p accepted).flatMap cells

/-- Whether there is a place for one more constant: a shared one is in its table already, or the
table is shorter than the pool allows; the bytes of character data fit what is left. -/
def Fits (l : Limits) (accepted : List Constant) (c : Constant) : Prop :=
  if c.pool = .multiple then
    (tableCells .multiple accepted).length + c.cells.length ≤ l.pools.multiple
  else c ∈ accepted ∨ (table c.pool accepted).length < l.pools.get c.pool / width c.pool

instance (l : Limits) (accepted : List Constant) (c : Constant) : Decidable (Fits l accepted c) :=
  inferInstanceAs (Decidable (if c.pool = .multiple then
    (tableCells .multiple accepted).length + c.cells.length ≤ l.pools.multiple
    else c ∈ accepted ∨ (table c.pool accepted).length < l.pools.get c.pool / width c.pool))

/-- The address of the first cell of a constant, entered after the accepted ones. -/
def firstCell (l : Limits) (accepted : List Constant) (c : Constant) : Nat :=
  l.poolStart c.pool +
    if c.pool = .multiple then (tableCells .multiple accepted).length
    else width c.pool * (table c.pool (accepted ++ [c])).idxOf c

/-- The address that names a constant, entered after the accepted ones. -/
def address (l : Limits) (accepted : List Constant) (c : Constant) : Nat :=
  firstCell l accepted c + (width c.pool - 1)

/-! ### Tables -/

variable {l : Limits} {accepted : List Constant} {c : Constant} {p : Pool}

/-- The table of a pool consists of its accepted constants. -/
theorem mem_table : c ∈ table p accepted ↔ c ∈ accepted ∧ c.pool = p := by
  unfold table
  split <;> simp

/-- A shared constant that was accepted before leaves every table as it is. -/
theorem table_append_of_mem (hs : c.pool ≠ .multiple) (hc : c ∈ accepted) (p : Pool) :
    table p (accepted ++ [c]) = table p accepted := by
  unfold table
  by_cases hp : c.pool = p
  · have hm : p ≠ .multiple := hp ▸ hs
    have hin : c ∈ accepted.filter (·.pool = p) := by simp [hc, hp]
    have hrem : List.removeAll [c] (accepted.filter (·.pool = p)) = [] := by
      simp [List.removeAll, hc, hp]
    simp only [List.filter_append, if_neg hm, List.filter_cons, List.filter_nil, hp, decide_true,
      if_true, List.eraseDups_append, hrem, List.eraseDups_nil, List.append_nil]
  · simp [List.filter_append, hp]

/-- Any other constant goes to the end of the table of its pool. -/
theorem table_append_of_new (hc : c.pool = .multiple ∨ c ∉ accepted) (p : Pool) :
    table p (accepted ++ [c]) = table p accepted ++ if c.pool = p then [c] else [] := by
  unfold table
  by_cases hp : c.pool = p
  · by_cases hm : p = .multiple
    · simp [List.filter_append, hp, hm]
    · have hn : c ∉ accepted := hc.resolve_left (hp ▸ hm)
      have hrem : List.removeAll [c] (accepted.filter (·.pool = p)) = [c] := by
        simp [List.removeAll, hn]
      simp only [List.filter_append, if_neg hm, List.filter_cons, List.filter_nil, hp, decide_true,
        if_true, List.eraseDups_append, hrem]
      rfl
  · simp [List.filter_append, hp]

/-- A constant that is there already takes no cells. -/
theorem tableCells_append_of_mem (hs : c.pool ≠ .multiple) (hc : c ∈ accepted) (p : Pool) :
    tableCells p (accepted ++ [c]) = tableCells p accepted := by
  rw [tableCells, table_append_of_mem hs hc, tableCells]

/-- A new one takes cells in its own pool. -/
theorem tableCells_append_of_new (hc : c.pool = .multiple ∨ c ∉ accepted) (p : Pool) :
    tableCells p (accepted ++ [c]) = tableCells p accepted ++ if c.pool = p then c.cells else [] := by
  rw [tableCells, table_append_of_new hc, List.flatMap_append, ← tableCells]
  split <;> simp

theorem length_cells (hs : c.pool ≠ .multiple) : c.cells.length = width c.pool := by
  cases c <;> first | rfl | exact absurd rfl hs

/-- The cells of a pool are as many as its entries, times their width. -/
theorem length_tableCells (hp : p ≠ .multiple) :
    (tableCells p accepted).length = width p * (table p accepted).length := by
  have hw : ∀ d ∈ table p accepted, d.cells.length = width p := by
    intro d hd
    have hdp := (mem_table.1 hd).2
    rw [length_cells (hdp ▸ hp), hdp]
  rw [tableCells, List.length_flatMap, List.map_congr_left hw, List.map_const', List.sum_replicate,
    smul_eq_mul, Nat.mul_comm]

/-- A constant without a place in its table fits if the pool has cells for it. -/
theorem fits_iff_of_new (hc : c.pool = .multiple ∨ c ∉ accepted) :
    Fits l accepted c ↔
      (tableCells c.pool accepted).length + c.cells.length ≤ l.pools.get c.pool := by
  unfold Fits
  by_cases hm : c.pool = .multiple
  · rw [if_pos hm, hm]; rfl
  · have hn : c ∉ accepted := hc.resolve_left hm
    rw [if_neg hm, length_tableCells hm, length_cells hm, or_iff_right hn]
    have hw : 0 < width c.pool := by cases c.pool <;> simp [width]
    rw [← Nat.mul_succ, Nat.lt_iff_add_one_le, Nat.le_div_iff_mul_le hw, Nat.mul_comm]

/-- A constant that is there already fits. -/
theorem fits_of_mem (hs : c.pool ≠ .multiple) (hc : c ∈ accepted) : Fits l accepted c := by
  unfold Fits
  rw [if_neg hs]
  exact Or.inl hc

/-- Shared constants of one pool are told apart by their cells. -/
theorem cells_inj {d : Constant} (hs : c.pool ≠ .multiple) (hp : d.pool = c.pool) :
    d.cells = c.cells ↔ d = c := by
  cases c <;> cases d <;> simp_all [pool, cells]

/-- What later constants add to a table stands behind what is there. -/
theorem table_grows (p : Pool) (accepted more : List Constant) :
    table p accepted <+: table p (accepted ++ more) := by
  induction more using List.reverseRecOn with
  | nil => rw [List.append_nil]
  | append_singleton more c ih =>
    rw [← List.append_assoc]
    refine ih.trans ?_
    by_cases hc : c.pool ≠ .multiple ∧ c ∈ accepted ++ more
    · rw [table_append_of_mem hc.1 hc.2]
    · rw [table_append_of_new (by tauto)]
      exact List.prefix_append _ _

/-- Cells are only added behind the others. -/
theorem tableCells_grows (p : Pool) (accepted more : List Constant) :
    tableCells p accepted <+: tableCells p (accepted ++ more) :=
  (table_grows p accepted more).flatMap cells

/-- A shared constant has one address, whenever it is entered. -/
theorem address_append (hs : c.pool ≠ .multiple) (l : Limits) (accepted more : List Constant) :
    address l (accepted ++ [c] ++ more) c = address l accepted c := by
  obtain ⟨later, hlater⟩ := table_grows c.pool (accepted ++ [c]) more
  have hin : c ∈ table c.pool (accepted ++ [c]) := mem_table.2 ⟨by simp, rfl⟩
  have hagain : c ∈ accepted ++ [c] ++ more := by simp
  rw [address, address, firstCell, firstCell, if_neg hs, if_neg hs, table_append_of_mem hs hagain,
    ← hlater, List.idxOf_append_of_mem hin]

/-- Where the cells of a constant stand in a list of constants that all have `w` cells. -/
theorem getElem?_flatMap_cells {w : Nat} : ∀ t : List Constant, (∀ d ∈ t, d.cells.length = w) →
    c ∈ t → ∀ i, i < w → (t.flatMap cells)[w * t.idxOf c + i]? = c.cells[i]? := by
  intro t
  induction t with
  | nil => intro _ hc; simp at hc
  | cons d t ih =>
    intro hw hc i hi
    have hd : d.cells.length = w := hw d List.mem_cons_self
    rw [List.flatMap_cons]
    by_cases hdc : d = c
    · subst hdc
      rw [List.idxOf_cons_self, Nat.mul_zero, Nat.zero_add,
        List.getElem?_append_left (by omega)]
    · have hct : c ∈ t := (List.mem_cons.1 hc).resolve_left (fun h => hdc h.symm)
      rw [List.idxOf_cons_ne _ hdc, Nat.mul_succ,
        List.getElem?_append_right (by omega), hd,
        ← ih (fun e he => hw e (List.mem_cons_of_mem _ he)) hct i hi]
      congr 1
      omega

/-- The cells of a constant stand in its table from its first cell on, also after later ones. -/
theorem getElem?_tableCells (l : Limits) (accepted more : List Constant) {i : Nat}
    (hi : i < c.cells.length) :
    (tableCells c.pool (accepted ++ [c] ++ more))[firstCell l accepted c - l.poolStart c.pool + i]?
      = c.cells[i]? := by
  obtain ⟨tail, htail⟩ := tableCells_grows c.pool (accepted ++ [c]) more
  rw [← htail, firstCell, Nat.add_sub_cancel_left]
  have key : (tableCells c.pool (accepted ++ [c]))[(if c.pool = .multiple
      then (tableCells .multiple accepted).length
      else width c.pool * (table c.pool (accepted ++ [c])).idxOf c) + i]? = c.cells[i]? := by
    by_cases hm : c.pool = .multiple
    · rw [if_pos hm, tableCells_append_of_new (Or.inl hm), if_pos rfl, hm,
        List.getElem?_append_right (by omega), Nat.add_sub_cancel_left]
    · rw [if_neg hm, tableCells]
      have hw : ∀ d ∈ table c.pool (accepted ++ [c]), d.cells.length = width c.pool := by
        intro d hd
        have hdp := (mem_table.1 hd).2
        rw [length_cells (hdp ▸ hm), hdp]
      exact getElem?_flatMap_cells _ hw (mem_table.2 ⟨by simp, rfl⟩) i (length_cells hm ▸ hi)
  have hlt := (List.getElem?_eq_some_iff.1 (key.trans (List.getElem?_eq_getElem hi))).1
  rw [List.getElem?_append_left hlt, key]

/-! ### Looking a constant up -/

theorem idxOf?_eq_ite (t : List Constant) (c : Constant) :
    t.idxOf? c = if c ∈ t then some (t.idxOf c) else none := by
  induction t with
  | nil => rfl
  | cons d t ih =>
    rw [List.idxOf?_cons, ih]
    by_cases hdc : d = c
    · simp [hdc]
    · have : c ≠ d := fun h => hdc h.symm
      by_cases hct : c ∈ t <;> simp [hdc, this, hct, List.idxOf_cons_ne]

/-- In a pool of single cells a cell is found at the place of its constant. -/
theorem idxOf?_flatMap_cells {cell : Cell} (hs : c.pool ≠ .multiple) (hc : c.cells = [cell]) :
    ∀ t : List Constant, (∀ d ∈ t, d.pool = c.pool) → (t.flatMap cells).idxOf? cell = t.idxOf? c := by
  intro t
  induction t with
  | nil => intro _; rfl
  | cons d t ih =>
    intro ht
    have hd : d.pool = c.pool := ht d List.mem_cons_self
    have hlen : d.cells.length = 1 := by
      rw [length_cells (hd ▸ hs), hd, ← length_cells hs, hc, List.length_singleton]
    obtain ⟨e, he⟩ := List.length_eq_one_iff.1 hlen
    have hed : e = cell ↔ d = c := by rw [← cells_inj hs hd, he, hc]; simp
    rw [List.flatMap_cons, he, List.singleton_append, List.idxOf?_cons, List.idxOf?_cons,
      ih (fun x hx => ht x (List.mem_cons_of_mem _ hx))]
    by_cases h : d = c <;> simp [hed, h]

/-- In the pool of bounds a pair of cells is found at twice the place of its constant. -/
theorem pairIdx?_flatMap_cells (lower upper : Word) : ∀ t : List Constant,
    (∀ d ∈ t, d.pool = .boundary) →
      Store.pairIdx? (.int lower) (.int upper) (t.flatMap cells) =
        (t.idxOf? (bounds lower upper)).map (2 * ·) := by
  intro t
  induction t with
  | nil => intro _; rfl
  | cons d t ih =>
    intro ht
    have hd := ht d List.mem_cons_self
    have ih := ih fun x hx => ht x (List.mem_cons_of_mem _ hx)
    cases d with
    | bounds lo hi =>
      rw [List.flatMap_cons, List.idxOf?_cons]
      simp only [cells, List.cons_append, List.nil_append, Store.pairIdx?]
      by_cases h : lo = lower ∧ hi = upper
      · simp [h]
      · have : ¬ (bounds lo hi == bounds lower upper) = true := by simpa using h
        rw [if_neg (by simpa using h), if_neg this, ih, Option.map_map, Option.map_map]
        congr 1
    | integer _ | real _ | set _ | bytes _ => simp [pool] at hd

end Constant

end PMachine
