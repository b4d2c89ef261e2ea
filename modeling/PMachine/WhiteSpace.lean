/-!
# White space

The characters with the property White_Space of Unicode: twenty-five code points in ten ranges.
-/

namespace PMachine.WhiteSpace

/-- The closed ranges of code points, ascending and apart. -/
def ranges : List (Nat × Nat) :=
  [(0x09, 0x0D), (0x20, 0x20), (0x85, 0x85), (0xA0, 0xA0), (0x1680, 0x1680), (0x2000, 0x200A),
   (0x2028, 0x2029), (0x202F, 0x202F), (0x205F, 0x205F), (0x3000, 0x3000)]

/-- Whether a character is white space. -/
def contains (c : Char) : Bool := ranges.any fun (first, last) => first ≤ c.toNat && c.toNat ≤ last

example : (ranges.map fun (first, last) => last + 1 - first).sum = 25 := by decide

end PMachine.WhiteSpace
