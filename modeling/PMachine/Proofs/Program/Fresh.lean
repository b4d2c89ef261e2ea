import PMachine.Proofs.Cell
import PMachine.Proofs.Program.Induction
import PMachine.Proofs.Store.Growth

/-!
# The store of a loaded program

Loading enters integers, reals, sets, bounds and characters into the pools, and nothing else into the
store. What a new store has and entering a constant keeps, the store of a program has, whatever its text
is, also where the two parts of the text meet. So a program starts without an address in any cell.

* `Program.store_of_load`: what holds of the store of a loaded program.
* `Store.Fresh`: a store without addresses, in which the stack has its place.
* `Program.fresh_of_load`: such is the store of a loaded program.
-/

namespace PMachine

namespace Store

/-- A store without addresses, in which the stack has its place. -/
structure Fresh (s : Store) : Prop where
  cells : ∀ c ∈ s.cells, ∀ V, c.Points V
  stack : s.limits.stackSize < s.cells.size

variable {s s' : Store}

theorem fresh_new (l : Limits) : (new l).Fresh := by
  refine ⟨fun c hc V => ?_, ?_⟩
  · simp only [new, Pool.all, List.foldl_cons, List.foldl_nil, Array.mem_append, Array.mem_replicate] at hc
    rcases hc with ((((⟨-, rfl⟩ | ⟨-, rfl⟩) | ⟨-, rfl⟩) | ⟨-, rfl⟩) | ⟨-, rfl⟩) | ⟨-, rfl⟩ <;>
      trivial
  · rw [size_new]
    have hstart := l.stackSize_lt_poolStart .multiple
    exact hstart.trans_le (Nat.le_add_right _ _)

theorem Fresh.append (h : s.Fresh) {p : Pool} {cs : List Cell} {a : Nat}
    (hcs : ∀ c ∈ cs, ∀ V, c.Points V) (hrun : append p cs s = .ok a s') : s'.Fresh := by
  have hgrows := append_grows hrun
  refine ⟨fun c hc => ?_, ?_⟩
  · obtain ⟨i, hi⟩ := Array.mem_iff_getElem?.1 hc
    rcases getElem?_append hrun hi with hold | hnew
    · exact h.cells c (Array.mem_of_getElem? hold)
    · exact hcs c hnew
  · rw [hgrows.limits, hgrows.size]
    exact h.stack

/-- Constants are no addresses. -/
theorem points_of_mem_cells {c : Constant} {d : Cell} (hd : d ∈ c.cells) (V : Nat → Prop) :
    d.Points V := by
  cases c with
  | integer _ | real _ | set _ =>
    rw [List.mem_singleton.1 hd]
    trivial
  | bounds lower upper => rcases List.mem_pair.1 hd with rfl | rfl <;> trivial
  | bytes l =>
    obtain ⟨b, -, rfl⟩ := List.mem_map.1 hd
    trivial

theorem Fresh.enter (h : s.Fresh) {c : Constant} {a : Nat} (hrun : c.enter s = .ok a s') :
    s'.Fresh := by
  rcases enter_ok hrun with rfl | ⟨b, happend⟩
  · exact h
  · exact h.append (fun d hd V => points_of_mem_cells hd V) happend

/-- Constants are entered without a change to the sizes. -/
theorem limits_of_enter {c : Constant} {a : Nat} (hrun : c.enter s = .ok a s') :
    s'.limits = s.limits := by
  rcases enter_ok hrun with rfl | ⟨b, happend⟩
  · rfl
  · exact (append_grows happend).limits

end Store

namespace Assembly

theorem store_of_declareLabel {s s' : Assembly} {n : Nat} {value : Option Nat}
    (h : declareLabel n value s = .ok () s') : s'.store = s.store := by
  simp only [declareLabel, Action.recover, onLinking, Action.zoom] at h
  cases hrun : Linking.declare n (value.getD s.pc) ⟨s.labels, s.code⟩ with
  | ok _ t =>
    simp only [hrun] at h
    cases h
    rfl
  | error f t =>
    simp only [hrun] at h
    split at h
    · cases h
    · cases h
      rfl

/-- A statement leaves the store alone, or enters one constant. -/
theorem store_of_placeStatement {s s' : Assembly} {st : Statement} (h : placeStatement st s = .ok () s') :
    s'.store = s.store ∨ ∃ c : Constant, ∃ a, c.enter s.store = .ok a s'.store := by
  simp only [placeStatement, onTables, Action.zoom] at h
  cases hrun : st.assemble s.pc ⟨s.store, s.labels⟩ with
  | error f t =>
    simp only [hrun] at h
    cases h
  | ok i t =>
    simp only [hrun] at h
    cases h
    show t.store = s.store ∨ ∃ c : Constant, ∃ a, c.enter s.store = .ok a t.store
    cases href : st.reference? with
    | some n =>
      rw [Statement.assemble_reference href] at hrun
      split at hrun
      · cases hrun
        exact Or.inl rfl
      · cases hrun
    | none =>
      cases hc : st.constant? with
      | some c =>
        rw [Statement.assemble_constant hc] at hrun
        split at hrun
        · rename_i hrun'
          cases hrun
          exact Or.inr ⟨c, _, hrun'⟩
        · cases hrun
      | none =>
        rw [Statement.assemble_plain (l := default) href hc (fun _ => 0) []] at hrun
        cases hrun
        exact Or.inl rfl

/-- What entering a constant keeps of the store survives every line. -/
theorem survives_store {P : Store → Prop}
    (hP : ∀ {s s' : Store} {c : Constant} {a : Nat}, P s → c.enter s = .ok a s' → P s') :
    Survives fun _ s => P s.store where
  restart h _ hstore _ _ := by rw [hstore]; exact h
  line h hrun := by
    rcases line_cases hrun with ⟨-, rfl⟩ | ⟨n, value, -, hdecl⟩ | ⟨st, -, -, hplace⟩
    · exact h
    · rw [store_of_declareLabel hdecl]
      exact h
    · rcases store_of_placeStatement hplace with hsame | ⟨c, a, henter⟩
      · rw [hsame]
        exact h
      · exact hP h henter

end Assembly

namespace Program

variable {l : Limits} {text : Source} {p : Program} {rest : List UInt8}

/-- **The store of a loaded program** has what a new store has and entering a constant keeps. -/
theorem store_of_load {P : Store → Prop} (hnew : P (.new l))
    (hP : ∀ {s s' : Store} {c : Constant} {a : Nat}, P s → c.enter s = .ok a s' → P s')
    (h : load l text = .ok (p, rest)) : P p.store := by
  obtain ⟨s, hs, rfl⟩ := load_induction (Assembly.survives_store hP) hnew h
  exact hs

/-- A program is loaded into a store of the sizes that were asked for. -/
theorem limits_of_load (h : load l text = .ok (p, rest)) : p.store.limits = l :=
  store_of_load (P := fun s => s.limits = l) rfl
    (fun hs hrun => (Store.limits_of_enter hrun).trans hs) h

theorem fresh_of_load (h : load l text = .ok (p, rest)) : p.store.Fresh :=
  store_of_load (Store.fresh_new l) (fun hs hrun => hs.enter hrun) h

end Program

end PMachine
