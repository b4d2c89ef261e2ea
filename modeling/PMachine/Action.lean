import PMachine.Fault

/-!
# Actions

An action reads and changes a state and may end in a fault. The state survives a fault: what an
action had done before it failed stays done, and later actions start from there.

* `Action.zoom`: an action on a part of the state is an action on the whole.
-/

namespace PMachine

/-- A step on states `σ` that yields an `α` or a fault, and the state afterwards in both cases. -/
abbrev Action (σ α : Type) := EStateM Fault σ α

namespace Action

variable {σ τ α : Type}

/-- A computation without state, as an action that leaves the state alone. -/
@[inline] def lift (x : Except Fault α) : Action σ α := fun s =>
  match x with
  | .ok a => .ok a s
  | .error f => .error f s

/-- The value of `x`, or the fault `f` if there is none. -/
@[inline] def orFault (x : Option α) (f : Fault) : Action σ α := fun s =>
  match x with
  | some a => .ok a s
  | none => .error f s

/-- Runs an action on the part `part s` of the state and puts the changed part back. The part is
taken out of the whole first, so that the action is its only owner. -/
@[inline] def zoom [Inhabited τ] (part : σ → τ) (put : τ → σ → σ) (act : Action τ α) :
    Action σ α := fun s =>
  let t := part s
  let s := put default s
  match act t with
  | .ok a t => .ok a (put t s)
  | .error f t => .error f (put t s)

/-- Runs an action and, if it fails, goes on with `handler` from the state that it left. -/
@[inline] def recover (act : Action σ α) (handler : Fault → Action σ α) : Action σ α := fun s =>
  match act s with
  | .ok a s => .ok a s
  | .error f s => handler f s

/-- Changes the fault of an action that fails. -/
@[inline] def mapFault (act : Action σ α) (g : Fault → Fault) : Action σ α := fun s =>
  match act s with
  | .ok a s => .ok a s
  | .error f s => .error (g f) s

/-- The state that an action leaves behind, whether it succeeds or fails. -/
def after (act : Action σ α) (s : σ) : σ :=
  match act s with
  | .ok _ s => s
  | .error _ s => s

/-- The value or the fault that an action ends with. -/
def outcome (act : Action σ α) (s : σ) : Except Fault α :=
  match act s with
  | .ok a _ => .ok a
  | .error f _ => .error f

end Action

end PMachine
