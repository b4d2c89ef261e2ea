import Mathlib
import PMachine.Action

/-!
# Laws of actions

How actions run, one law for each way to build them, and what a run that succeeded went through.

* `Action.bind_eq_ok`: a sequence succeeds if both of its parts do, one after the other.
* `Action.Raises`, `Action.Returns`: every fault or result that an action ends with has a property.
* `Action.Keeps`: an action leaves what a view shows of the state as it is.
-/

namespace PMachine.Action

variable {σ τ α β : Type} {s s' : σ}

@[simp] theorem pure_apply (a : α) (s : σ) : (pure a : Action σ α) s = .ok a s := rfl

@[simp] theorem get_apply (s : σ) : (get : Action σ σ) s = .ok s s := rfl

@[simp] theorem modify_apply (f : σ → σ) (s : σ) : (modify f : Action σ PUnit) s = .ok ⟨⟩ (f s) := rfl

@[simp] theorem throw_apply (f : Fault) (s : σ) : (throw f : Action σ α) s = .error f s := rfl

@[simp] theorem lift_ok (a : α) (s : σ) : (lift (.ok a) : Action σ α) s = .ok a s := rfl

@[simp] theorem lift_error (f : Fault) (s : σ) : (lift (.error f) : Action σ α) s = .error f s := rfl

@[simp] theorem orFault_some (a : α) (f : Fault) (s : σ) :
    (orFault (some a) f : Action σ α) s = .ok a s := rfl

@[simp] theorem orFault_none (f : Fault) (s : σ) :
    (orFault none f : Action σ α) s = .error f s := rfl

/-- A sequence runs its second part from where the first one succeeded. -/
theorem bind_apply (x : Action σ α) (g : α → Action σ β) (s : σ) :
    (x >>= g) s = match x s with
      | .ok a s => g a s
      | .error f s => .error f s := by
  simp only [bind, EStateM.bind]
  cases x s <;> rfl

theorem bind_of_ok {x : Action σ α} {g : α → Action σ β} {a : α} (h : x s = .ok a s') :
    (x >>= g) s = g a s' := by
  rw [bind_apply, h]

theorem bind_of_error {x : Action σ α} {g : α → Action σ β} {f : Fault} (h : x s = .error f s') :
    (x >>= g) s = .error f s' := by
  rw [bind_apply, h]

/-- A sequence succeeds if its parts do, one after the other. -/
theorem bind_eq_ok {x : Action σ α} {g : α → Action σ β} {b : β} :
    (x >>= g) s = .ok b s' ↔ ∃ a s₁, x s = .ok a s₁ ∧ g a s₁ = .ok b s' := by
  rw [bind_apply]
  cases x s with
  | ok a s₁ => simp
  | error f s₁ => simp

/-- A sequence fails in its first part, or in the second one from where the first one succeeded. -/
theorem bind_eq_error {x : Action σ α} {g : α → Action σ β} {f : Fault} :
    (x >>= g) s = .error f s' ↔
      x s = .error f s' ∨ ∃ a s₁, x s = .ok a s₁ ∧ g a s₁ = .error f s' := by
  rw [bind_apply]
  cases x s with
  | ok a s₁ => simp
  | error f s₁ => simp

/-- A computation without state leaves the state as it is. -/
theorem lift_eq_ok {x : Except Fault α} {a : α} :
    (lift x : Action σ α) s = .ok a s' ↔ x = .ok a ∧ s = s' := by
  cases x <;> simp [lift]

theorem orFault_eq_ok {x : Option α} {f : Fault} {a : α} :
    (orFault x f : Action σ α) s = .ok a s' ↔ x = some a ∧ s = s' := by
  cases x <;> simp [orFault]

/-- The outcome of an action is what is left of it without its state. -/
theorem outcome_eq_ok {x : Action σ α} {a : α} :
    x.outcome s = .ok a ↔ ∃ s', x s = .ok a s' := by
  unfold outcome
  cases x s <;> simp

theorem outcome_eq_error {x : Action σ α} {f : Fault} :
    x.outcome s = .error f ↔ ∃ s', x s = .error f s' := by
  unfold outcome
  cases x s <;> simp

/-! ### Faults -/

/-- Every fault that an action ends with has the property. -/
def Raises (P : Fault → Prop) (act : Action σ α) : Prop := ∀ s f s', act s = .error f s' → P f

namespace Raises

variable {P Q : Fault → Prop}

/-- An action that raises only faults with `P` raises only faults with what follows from `P`. -/
theorem mono {x : Action σ α} (hx : Raises P x) (h : ∀ f, P f → Q f) : Raises Q x :=
  fun s f s' hrun => h f (hx s f s' hrun)

theorem pure (a : α) : Raises P (Pure.pure a : Action σ α) := by intro s f s' h; cases h

theorem get : Raises P (MonadState.get : Action σ σ) := by intro s f s' h; cases h

theorem modifyGet (g : σ → α × σ) : Raises P (MonadStateOf.modifyGet g : Action σ α) := by
  intro s f s' h
  cases h

theorem throw {g : Fault} (hg : P g) : Raises P (MonadExcept.throw g : Action σ α) := by
  intro s f s' h
  cases h
  exact hg

theorem lift {x : Except Fault α} (hx : ∀ f, x = .error f → P f) : Raises P (Action.lift x : Action σ α) := by
  intro s f s' h
  cases x with
  | ok a => cases h
  | error g => cases h; exact hx _ rfl

theorem orFault {x : Option α} {g : Fault} (hg : P g) : Raises P (Action.orFault x g : Action σ α) := by
  intro s f s' h
  cases x with
  | some a => cases h
  | none => cases h; exact hg

/-- A sequence raises the faults of its parts. -/
theorem bind {x : Action σ α} {k : α → Action σ β} (hx : Raises P x) (hk : ∀ a, Raises P (k a)) :
    Raises P (x >>= k) := by
  intro s f s' h
  rw [bind_apply] at h
  cases hrun : x s with
  | ok a s₁ => rw [hrun] at h; exact hk a s₁ f s' h
  | error g s₁ => rw [hrun] at h; cases h; exact hx s f s' hrun

theorem ite {c : Prop} [Decidable c] {x y : Action σ α} (hx : Raises P x) (hy : Raises P y) :
    Raises P (if c then x else y) := by
  split
  · exact hx
  · exact hy

/-- The fault of an outcome is one that the action raises. -/
theorem outcome {x : Action σ α} (hx : Raises P x) {s : σ} {f : Fault} (h : x.outcome s = .error f) :
    P f := by
  obtain ⟨s', hrun⟩ := outcome_eq_error.1 h
  exact hx s f s' hrun

end Raises

/-! ### Results -/

/-- Every result of an action has the property. -/
def Returns (P : α → Prop) (act : Action σ α) : Prop := ∀ s a s', act s = .ok a s' → P a

namespace Returns

theorem pure {P : α → Prop} {a : α} (ha : P a) : Returns P (Pure.pure a : Action σ α) := by
  intro s b s' h
  cases h
  exact ha

theorem throw {P : α → Prop} (f : Fault) : Returns P (MonadExcept.throw f : Action σ α) := by
  intro s a s' h
  cases h

/-- What is known of the first result may be needed for the second. -/
theorem bind_of {P : β → Prop} {Q : α → Prop} {x : Action σ α} {k : α → Action σ β} (hx : Returns Q x)
    (hk : ∀ a, Q a → Returns P (k a)) : Returns P (x >>= k) := by
  intro s b s' h
  obtain ⟨a, s₁, hfirst, hrun⟩ := bind_eq_ok.1 h
  exact hk a (hx s a s₁ hfirst) s₁ b s' hrun

theorem bind {P : β → Prop} {x : Action σ α} {k : α → Action σ β} (hk : ∀ a, Returns P (k a)) :
    Returns P (x >>= k) :=
  bind_of (Q := fun _ => True) (fun _ _ _ _ => trivial) fun a _ => hk a

end Returns

/-! ### What an action leaves alone -/

/-- An action keeps what `view` shows of the state, whether it succeeds or fails. -/
def Keeps {γ : Type} (view : σ → γ) (act : Action σ α) : Prop := ∀ s, view (act.after s) = view s

theorem after_of_ok {x : Action σ α} {a : α} (h : x s = .ok a s') : x.after s = s' := by
  rw [after, h]

theorem after_of_error {x : Action σ α} {f : Fault} (h : x s = .error f s') : x.after s = s' := by
  rw [after, h]

/-- A sequence leaves behind what its second part does. -/
theorem after_bind_of_ok {x : Action σ α} {g : α → Action σ β} {a : α} (h : x s = .ok a s') :
    (x >>= g).after s = (g a).after s' := by
  rw [after, bind_of_ok h, ← after]

/-- A sequence that fails in its first part leaves behind what that part does. -/
theorem after_bind_of_error {x : Action σ α} {g : α → Action σ β} {f : Fault} (h : x s = .error f s') :
    (x >>= g).after s = s' := by
  rw [after, bind_of_error h]

namespace Keeps

variable {γ : Type} {view : σ → γ}

theorem pure (a : α) : Keeps view (Pure.pure a : Action σ α) := fun _ => rfl

theorem get : Keeps view (MonadState.get : Action σ σ) := fun _ => rfl

theorem throw (f : Fault) : Keeps view (MonadExcept.throw f : Action σ α) := fun _ => rfl

/-- A change of the state keeps what it does not touch. -/
theorem modifyGet {g : σ → α × σ} (h : ∀ s, view (g s).2 = view s) :
    Keeps view (MonadStateOf.modifyGet g : Action σ α) := h

theorem lift (x : Except Fault α) : Keeps view (Action.lift x : Action σ α) := by
  intro s
  cases x <;> rfl

theorem orFault (x : Option α) (f : Fault) : Keeps view (Action.orFault x f : Action σ α) := by
  intro s
  cases x <;> rfl

theorem bind {x : Action σ α} {k : α → Action σ β} (hx : Keeps view x) (hk : ∀ a, Keeps view (k a)) :
    Keeps view (x >>= k) := by
  intro s
  have hxs := hx s
  cases hrun : x s with
  | ok a s₁ =>
    rw [after_of_ok hrun] at hxs
    rw [after_bind_of_ok hrun, hk a s₁, hxs]
  | error f s₁ =>
    rw [after_of_error hrun] at hxs
    rw [after_bind_of_error hrun, hxs]

theorem ite {c : Prop} [Decidable c] {x y : Action σ α} (hx : Keeps view x) (hy : Keeps view y) :
    Keeps view (if c then x else y) := by
  split
  · exact hx
  · exact hy

/-- What an action keeps is the same after it succeeds. -/
theorem ok {x : Action σ α} (hx : Keeps view x) {a : α} (h : x s = .ok a s') : view s' = view s := by
  rw [← after_of_ok h]
  exact hx s

end Keeps

/-! ### Parts of the state -/

variable [Inhabited τ] {part : σ → τ} {put : τ → σ → σ} {act : Action τ α}

/-- An action on a part of the state that succeeds puts the changed part back. -/
theorem zoom_of_ok {a : α} {t : τ} (h : act (part s) = .ok a t) :
    zoom part put act s = .ok a (put t (put default s)) := by
  simp only [zoom, h]

theorem zoom_of_error {f : Fault} {t : τ} (h : act (part s) = .error f t) :
    zoom part put act s = .error f (put t (put default s)) := by
  simp only [zoom, h]

end PMachine.Action
