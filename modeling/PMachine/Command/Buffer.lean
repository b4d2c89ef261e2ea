import PMachine.Files.Source

/-!
# Buffers

Between a program and a file stands a buffer. Bytes are read from the file in whole blocks, more of
them than the program has asked for, and bytes that were written wait until they are driven out by
others, by the end of a line or by a flush.

* `Buffer.fetched`: how much of a file has been read when some of it was used; `Buffer.kept` is
  what of it was not used.
* `Buffer.write`, `Buffer.flush`: what goes out, counted.
* `Buffer.room`: how much can be written before anything goes out.
-/

namespace PMachine

/-- A buffer before a file to write. It counts bytes in the order in which they were written. -/
structure Buffer where
  /-- The number of bytes that can wait. -/
  size : Nat
  /-- Whether a line goes out as soon as it ends. -/
  byLine : Bool
  /-- The number of bytes that have gone out. -/
  sent : Nat := 0
  /-- The number of bytes that wait. -/
  held : Nat := 0
deriving DecidableEq, Repr

namespace Buffer

/-! ### Reading -/

/-- The number of bytes in a block. -/
def blockSize : Nat := 8192

/-- The number of bytes that have been read from a file of `size` bytes when `used` of them were
asked for: whole blocks, as far as the file goes. -/
def fetched (size used : Nat) : Nat :=
  min size ((used + (blockSize - 1)) / blockSize * blockSize)

/-- The part of what is left of a file of `size` bytes that has been read from it. -/
def kept (size : Nat) (rest : List UInt8) : List UInt8 :=
  let used := size - rest.length
  rest.take (fetched size used - used)

/-! ### Writing -/

/-- A buffer that sends blocks. -/
def blocks : Buffer := { size := blockSize, byLine := false }

/-- A buffer that sends lines. -/
def lines : Buffer := { size := 1024, byLine := true }

/-- The number of bytes written. -/
def total (b : Buffer) : Nat := b.sent + b.held

/-- The largest number of bytes that can be written at once so that nothing goes out. -/
def room (b : Buffer) : Nat := min (b.size - b.held) (b.size - 1)

/-- Sends all bytes that wait. -/
def flush (b : Buffer) : Buffer := { b with sent := b.total, held := 0 }

/-- Takes `n` bytes that were written at once. They wait with the others if there is room for them.
If not, the others go out first, and they go out themselves if they would fill the buffer alone. -/
def put (b : Buffer) (n : Nat) : Buffer :=
  if n ≤ b.room then { b with held := b.held + n }
  else if n < b.size then { b.flush with held := n }
  else { b.flush with sent := b.total + n }

/-- The number of bytes after the last end of a line. -/
def tailLength (bytes : List UInt8) : Nat := (bytes.reverse.takeWhile (· ≠ newline)).length

/-- Takes bytes that were written at once. -/
def write (b : Buffer) (bytes : List UInt8) : Buffer :=
  let tail := tailLength bytes
  if b.byLine && tail < bytes.length then
    { b with sent := b.total + (bytes.length - tail), held := 0 }.put tail
  else b.put bytes.length

end Buffer

end PMachine
