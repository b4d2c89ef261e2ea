import PMachine.Cursor

/-!
# Lexemes of program text

The pieces of which a line of program text is made: names of three letters, numbers, label
references and quoted strings. Blanks and tabs stand between them. A lexeme that is refused has
consumed what was looked at.
-/

namespace PMachine

/-- The characters of a line from the next one on. -/
abbrev LineText := List Char

instance : Cursor LineText where
  peek := fun cs => .ok cs.head? cs
  advance := List.tail
  left := List.length

namespace Lexeme

/-- Blanks separate lexemes. -/
def isBlank (c : Char) : Bool := c = ' ' || c = '\t'

/-- Steps over blanks. -/
def skipBlanks : Action LineText Unit := modify (List.dropWhile isBlank)

/-- Takes the next character, whatever it is. -/
def next : Action LineText (Option Char) := fun cs => .ok cs.head? cs.tail

/-- Steps over blanks and shows the character after them. -/
def peekNonBlank : Action LineText (Option Char) := do
  skipBlanks
  Cursor.peek

/-- Steps over blanks and takes the character after them. -/
def nonBlank : Action LineText (Option Char) := do
  skipBlanks
  next

/-- A name: the next three characters, in upper case. -/
def name : Action LineText String := do
  skipBlanks
  let cs ← modifyGet fun cs => (cs.take 3, cs.drop 3)
  if cs.length < 3 then throw .nameExpected
  return String.ofList (cs.map Char.toUpper)

/-- An integer that fits a word. -/
def integer : Action LineText Word := do
  skipBlanks
  let n ← Cursor.integer
  Action.orFault (Word.ofInt? n) .integerTooLarge

/-- An unsigned integer below `2 ^ 64`. -/
def unsigned : Action LineText Nat := do
  skipBlanks
  let n ← Cursor.natural
  if n < 0x10000000000000000 then return n else throw .integerTooLarge

/-- A real number. -/
def real : Action LineText Binary64 := do
  skipBlanks
  let d ← Cursor.decimal
  return d.toBinary64

/-- A reference to a label: whatever stands before the letter `L` is skipped. -/
def label : Action LineText Nat := do
  modify (List.dropWhile fun c => c ≠ 'L' && c ≠ 'l')
  match ← next with
  | some _ => unsigned
  | none => throw .labelExpected

/-- The characters before the next delimiter, which is consumed too. -/
def upTo (delimiter : Char) : Action LineText (List Char) := do
  let cs ← modifyGet (List.span (· ≠ delimiter))
  match ← next with
  | some _ => return cs
  | none => throw .unterminatedString

end Lexeme

end PMachine
