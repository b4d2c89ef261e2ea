import PMachine.Command.Buffer
import PMachine.Command.FileTree
import PMachine.Machine.Run

/-!
# Traffic

What a program writes as `prr` may concern it while it runs: `prr` may be the file that `prd` reads,
one of the standard streams, or a device without room. Such a program is watched, an instruction at
a time. Every instruction writes at most once.

* `Traffic.prepare`: a machine before an instruction that writes to a device without room.
* `Traffic.account`: the buffers after an instruction.
* `Traffic.feed`: `prd` gets what has gone out to the file that it reads.
-/

namespace PMachine

/-- The ways that lead out of a running program. -/
structure Traffic where
  /-- The buffer before the standard output. -/
  output : Buffer := .lines
  /-- The buffer before `prr`. -/
  prr : Buffer := .blocks
  /-- The device that is written as `prr`, if it is not a file. -/
  device : Option FileTree.Device := none
  /-- The place in the file written as `prr` from which `prd` reads on, if `prd` reads that file. -/
  resume : Option Nat := none
deriving DecidableEq, Repr

namespace Traffic

/-- Whether it matters to the program, or to the order of what it leaves, when its bytes go out. -/
def isWatched (t : Traffic) : Bool := t.device.isSome || t.resume.isSome

/-- A file to write on a device without room: a write fails if it drives bytes out, and flushing
fails if bytes wait. -/
def fullSink (b : Buffer) (s : Sink) : Sink :=
  { s with
    limit := some (s.written.size + b.room)
    refusal := FileTree.Refusal.noSpace.text
    flushFailure := if b.held = 0 then none else some FileTree.Refusal.noSpace.text }

/-- The machine before its next instruction, with the room that there is for what it writes. -/
def prepare (t : Traffic) (m : Machine) : Machine :=
  if t.device = some .full then
    { m with files := { m.files with prr := fullSink t.prr m.files.prr } }
  else m

/-- The bytes of a file that a buffer has not seen yet. -/
def unseen (b : Buffer) (s : Sink) : List UInt8 := (s.written.extract b.total s.written.size).toList

/-- The bytes of a file that have gone out from one state of its buffer to the next. -/
def passed (old new : Buffer) (s : Sink) : Array UInt8 := s.written.extract old.sent new.sent

/-- The buffers after an instruction: they take what it has written, and are flushed when the
machine has come to a stop. -/
def account (t : Traffic) (m : Machine) : Traffic :=
  let take (b : Buffer) (s : Sink) :=
    let b := b.write (unseen b s)
    if m.isStopped then b.flush else b
  { t with output := take t.output m.files.output, prr := take t.prr m.files.prr }

/-- The machine after an instruction, where `prd` can read what has gone out since `t`. -/
def feed (t new : Traffic) (m : Machine) : Machine :=
  match t.resume with
  | none => m
  | some start =>
    let bytes := m.files.prr.written.extract (max start t.prr.sent) new.prr.sent
    if bytes.isEmpty then m
    else
      let prd := m.files.prd
      let source := { prd.source with bytes := prd.source.bytes ++ bytes.toList }
      { m with files := { m.files with prd := { prd with source } } }

end Traffic

end PMachine
