import PMachine.Command

/-!
# The program

The command on the files and streams of the system it runs on.
-/

namespace PMachine.Main

open Command

/-- The wording and the number of a failure, if the system gives them. -/
def details? : IO.Error → Option (UInt32 × String)
  | .interrupted _ code text | .noFileOrDirectory _ code text => some (code, text)
  | .alreadyExists _ code text | .invalidArgument _ code text | .permissionDenied _ code text
  | .resourceExhausted _ code text | .inappropriateType _ code text | .noSuchThing _ code text =>
    some (code, text)
  | .otherError code text | .resourceBusy code text | .resourceVanished code text
  | .unsupportedOperation code text | .hardwareFault code text
  | .unsatisfiedConstraints code text | .illegalOperation code text | .protocolError code text
  | .timeExpired code text => some (code, text)
  | .unexpectedEof | .userError _ => none

/-- The reason of a failure in words. -/
def reason (e : IO.Error) : String :=
  match details? e with
  | some (code, text) => s!"{text} (os error {code})"
  | none => e.toString

/-- Writes the events that are shown to the standard error. -/
def log (o : Options) (entries : List Log.Entry) : IO Unit :=
  IO.eprint (Log.text (level o) entries)

/-- Writes the last words of a command and returns its exit status. -/
def conclude (e : Ending) : IO UInt32 := do
  IO.eprint e.text
  return (e.status?.getD 0).toUInt32

/-- Writes what a program has written since it last did, and forgets it. -/
def drain (stdout : IO.FS.Stream) (prr : IO.FS.Handle) (m : Machine) : IO Machine := do
  let f := m.files
  stdout.write ⟨f.output.written⟩
  prr.write ⟨f.prr.written⟩
  if m.isStopped then
    stdout.flush
    prr.flush
  return { m with files := { f with
    output := { f.output with written := #[] }
    prr := { f.prr with written := #[] } } }

/-- How a run ended whose writes have failed: with a fault of its own if it has one. -/
def spoiled (m : Machine) (e : IO.Error) : Ending :=
  match m.status with
  | .failed f => .failed f
  | _ => .failed (.disk (reason e))

/-- Runs a machine to its end, and writes what it writes. -/
partial def run (o : Options) (stdout : IO.FS.Stream) (prr : IO.FS.Handle) (m : Machine) :
    IO Ending := do
  let (entries, m) := advance o roundLength m
  log o entries.toList
  match ← (drain stdout prr m).toBaseIO with
  | .error e => return spoiled m e
  | .ok m => if m.isStopped then return .ofStatus m.status else run o stdout prr m

/-- The program file, open, and its text. -/
def read (path : String) : IO (Except Fault (IO.FS.Handle × Source)) := do
  match ← (IO.FS.Handle.mk path .read).toBaseIO with
  | .error e => return .error (.cannotOpen path (reason e))
  | .ok h =>
    match ← h.readBinToEnd.toBaseIO with
    | .ok bytes => return .ok (h, ⟨bytes.toList, none⟩)
    | .error e => return .ok (h, ⟨[], some (reason e)⟩)

/-- The number of bytes that can be read from the start of a file again. -/
def extent (h : IO.FS.Handle) : IO Nat := do
  h.rewind
  let bytes ← h.readBinToEnd
  return bytes.size

/-- The bytes up to the end of a stream, after those that were read before. -/
partial def readAll (s : IO.FS.Stream) (before : ByteArray) : IO ByteArray := do
  let bytes ← s.read 65536
  if bytes.isEmpty then return before else readAll s (before ++ bytes)

/-- Creates the file that is written as `prr`, and finds what is then left of the program file. -/
def create (path : String) (h : IO.FS.Handle) (size : Nat) (rest : List UInt8) :
    IO (Except Fault (IO.FS.Handle × List UInt8)) := do
  let kept := Buffer.kept size rest
  let watched := kept.length < rest.length
  let before ← if watched then extent h else pure 0
  match ← (IO.FS.Handle.mk path .write).toBaseIO with
  | .error e => return .error (.cannotOpen path (reason e))
  | .ok prr =>
    let after ← if watched then extent h else pure 0
    return .ok (prr, if before = after then rest else kept)

/-- Starts a program that is loaded. -/
def start (o : Options) (p : Program) (prr : IO.FS.Handle) (rest : List UInt8) : IO Ending := do
  let stdin ← IO.getStdin
  let input ← readAll stdin .empty
  match (Machine.boot (files input.toList rest)).outcome p with
  | .error f => return .failed f
  | .ok m =>
    let stdout ← IO.getStdout
    run o stdout prr m

/-- Loads a program and lists it or runs it. -/
def launch (o : Options) : IO Ending := do
  match ← read o.program with
  | .error f => return .failed f
  | .ok (h, text) =>
    let (entries, loaded) := load o text
    log o entries
    match loaded with
    | .error f => return .failed f
    | .ok (p, rest) =>
      if o.has .list then
        IO.print p.listing
        return .done
      else
        match ← create o.outputPath h text.bytes.length rest with
        | .error f => return .failed f
        | .ok (prr, rest) => start o p prr rest

end PMachine.Main

/-- The entry point. -/
def main (args : List String) : IO UInt32 := do
  match PMachine.Usage.request args with
  | .error m => PMachine.Main.conclude (.refused m)
  | .ok .version =>
    IO.print PMachine.Command.version
    return 0
  | .ok .help =>
    IO.print PMachine.Command.help
    return 0
  | .ok (.load o) =>
    let e ← PMachine.Main.launch o
    PMachine.Main.conclude e
