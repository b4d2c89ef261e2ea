import PMachine.Action
import PMachine.Instruction

/-!
# Labels

A label may be referenced before it is declared. Until then the references to it form a chain
through the operands of the referencing instructions: each holds the place of the reference before
it, and the first holds `-1`. The declaration walks the chain and puts the address of the label into
every operand.

* `Labels.reference`: the operand for a reference, entered into the chain if the label is not declared.
* `Linking.declare`: gives a label its address and resolves the references so far.
* `Labels.unresolved?`: a label that is referenced and not declared.
-/

namespace PMachine

/-- What is known of a label. -/
inductive Label where
  /-- Not declared; the place of the latest reference, if any. -/
  | pending (latest : Option Nat)
  /-- Declared to have this address. -/
  | declared (address : Nat)
deriving DecidableEq, Repr

/-- The labels from 0 to the highest one. -/
structure Labels where
  entries : Array Label
deriving DecidableEq, Repr

namespace Labels

instance : Inhabited Labels := ⟨⟨#[]⟩⟩

/-- All labels up to `max`, none of them referenced or declared. -/
def new (max : Nat) : Labels := ⟨Array.replicate (max + 1) (.pending none)⟩

/-- What is known of a label, or `none` if it is beyond the highest one. -/
def get? (ls : Labels) (label : Nat) : Option Label := ls.entries[label]?

/-- Changes what is known of a label. -/
def set (ls : Labels) (label : Nat) (l : Label) : Labels := ⟨ls.entries.setIfInBounds label l⟩

/-- The operand of the first reference in a chain. -/
def chainEnd : Word := -1

/-- The operand for the instruction at `site`, which refers to the label. -/
def reference (label site : Nat) : Action Labels Word := fun ls =>
  match ls.get? label with
  | none => .error .labelOutOfRange ls
  | some (.declared a) => .ok (Address.toWord a) ls
  | some (.pending latest) =>
    .ok (latest.elim chainEnd Address.toWord) (ls.set label (.pending (some site)))

/-- The least label that is referenced and not declared. -/
def unresolved? (ls : Labels) : Option Nat :=
  ls.entries.findIdx? fun
    | .pending (some _) => true
    | _ => false

end Labels

/-- Code under construction and the labels in it. -/
structure Linking where
  labels : Labels
  code : Array Instruction
deriving DecidableEq, Repr

namespace Linking

instance : Inhabited Linking := ⟨⟨default, #[]⟩⟩

/-- Puts an address into the operand at `site` and into those before it in the chain. The walk goes
wherever an operand leads, and may go round for ever; no walk that ends takes more steps than there
are instructions and two more, so that one that has not ended by then is endless. -/
def patch (address : Word) : (steps : Nat) → (site : Nat) → Action (Array Instruction) Unit
  | 0, _ => throw .endless
  | steps + 1, site => fun code =>
    if h : site < code.size then
      let previous := code[site].q
      let code := code.modify site fun i => { i with q := address }
      if previous = Labels.chainEnd then .ok () code
      else match previous.toAddress? with
        | some site => patch address steps site code
        | none => .error .brokenLabelChain code
    else .error .brokenLabelChain code

/-- Declares a label and resolves the references to it. The first declaration of a label stands. -/
def declare (label address : Nat) : Action Linking Unit := fun s =>
  match s.labels.get? label with
  | none => .error .labelOutOfRange s
  | some (.declared _) => .error .duplicateLabel s
  | some (.pending latest) =>
    let s := { s with labels := s.labels.set label (.declared address) }
    match latest with
    | none => .ok () s
    | some site =>
      let resolve := patch (Address.toWord address) (s.code.size + 2) site
      resolve.zoom (·.code) (fun code s => { s with code }) s

end Linking

end PMachine
