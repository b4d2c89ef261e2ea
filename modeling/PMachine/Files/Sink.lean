import PMachine.Action

/-!
# Sinks

A sink takes bytes. It may have a bound on their total number; a write that would exceed the bound
fails and keeps nothing.
-/

namespace PMachine

/-- A file open for writing. -/
structure Sink where
  /-- The bytes written so far. -/
  written : Array UInt8 := #[]
  /-- The number of bytes for which there is room, if it is bounded. -/
  limit : Option Nat := none
  /-- The reason that is given for a write for which there is no room. -/
  refusal : String := "write failed"
  /-- The reason for which flushing fails, if it does. -/
  flushFailure : Option String := none
deriving DecidableEq, Repr

namespace Sink

instance : Inhabited Sink := ⟨{}⟩

/-- Whether `n` more bytes fit. -/
def hasRoom (s : Sink) (n : Nat) : Bool := s.limit.all (s.written.size + n ≤ ·)

/-- Writes all of the bytes or none of them. To write nothing always succeeds. -/
def write (bytes : List UInt8) : Action Sink Unit := fun s =>
  if bytes.isEmpty || s.hasRoom bytes.length then
    .ok () { s with written := s.written ++ bytes }
  else .error (.disk s.refusal) s

/-- Hands on what was written. -/
def flush (s : Sink) : Except Fault Unit :=
  match s.flushFailure with
  | some reason => .error (.disk reason)
  | none => .ok ()

end Sink

end PMachine
