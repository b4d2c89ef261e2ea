import PMachine.Files.Source
import PMachine.WhiteSpace

/-!
# Lines of program text

Program text is a sequence of bytes cut after each newline. A line is read as UTF-8, and the
carriage returns and newlines at its end do not belong to its text.

* `Lines.split`: the lines of a text, ends of line included.
* `Lines.decode?`: the characters of a line.
-/

namespace PMachine.Lines

/-- Puts a byte in front of a text that is cut into lines. -/
def consByte (b : UInt8) (lines : List (List UInt8)) : List (List UInt8) :=
  if b = newline then [b] :: lines
  else match lines with
    | [] => [[b]]
    | l :: more => (b :: l) :: more

/-- Cuts a text after each newline. -/
def split (bytes : List UInt8) : List (List UInt8) := bytes.foldr consByte []

/-- Nothing is lost by cutting. -/
theorem flatten_split (bytes : List UInt8) : (split bytes).flatten = bytes := by
  induction bytes with
  | nil => rfl
  | cons b l ih =>
    simp only [split, List.foldr_cons, consByte] at ih ⊢
    split
    · simp [ih]
    · split <;> simp_all

/-- The characters of a line, or `none` if it is not UTF-8. -/
def decode? (line : List UInt8) : Option (List Char) :=
  (String.fromUTF8? ⟨line.toArray⟩).map String.toList

/-- Whether a character may stand at the end of a line without belonging to its text. -/
def isLineEnd (c : Char) : Bool := c = '\n' || c = '\r'

/-- The text of a line, without the end of line. -/
def strip (line : List Char) : List Char := (line.reverse.dropWhile isLineEnd).reverse

/-- A line of nothing but white space ends a part of the program. -/
def isBlank (text : List Char) : Bool := text.all WhiteSpace.contains

end PMachine.Lines
