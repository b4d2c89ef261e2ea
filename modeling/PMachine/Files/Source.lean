/-!
# Sources

A source delivers bytes line by line. After its last byte it either ends or fails; a fetch that
fails has still delivered the bytes before the failure.
-/

namespace PMachine

/-- A stream of bytes to read. -/
structure Source where
  /-- What has not been fetched yet. -/
  bytes : List UInt8
  /-- The reason for which the source fails after its bytes; without one it ends there. -/
  failure : Option String := none
deriving DecidableEq, Repr

/-- The byte at the end of a line. -/
def newline : UInt8 := 10

/-- What one fetch delivers: bytes, and the reason if it failed after them. -/
structure Source.Fetch where
  bytes : List UInt8
  failure : Option String
deriving DecidableEq, Repr

namespace Source

instance : Inhabited Source := ⟨{ bytes := [] }⟩

/-- The bytes through the end of the next line, or all that are left, and the source after them.
Nothing is delivered at the end of a source that does not fail. -/
def fetch (s : Source) : Fetch × Source :=
  match s.bytes.span (· ≠ newline) with
  | (l, b :: rest) => (⟨l ++ [b], none⟩, { s with bytes := rest })
  | (l, []) => (⟨l, s.failure⟩, { s with bytes := [] })

end Source

end PMachine
