/-!
# Blank characters

The Unicode property `White_Space`, as a table of its ranges (`isBlank`), and the removal of such
characters from both ends of a text (`trimBlank`).
-/

namespace IntervalAutomata.Text

/-- The ranges of code points with the property `White_Space`, in ascending order. -/
def blankRanges : List (Nat × Nat) :=
  [(0x09, 0x0D), (0x20, 0x20), (0x85, 0x85), (0xA0, 0xA0), (0x1680, 0x1680), (0x2000, 0x200A),
    (0x2028, 0x2029), (0x202F, 0x202F), (0x205F, 0x205F), (0x3000, 0x3000)]

/-- Whether a character has the property `White_Space`. -/
def isBlank (c : Char) : Bool :=
  blankRanges.any fun range => range.1 ≤ c.toNat && c.toNat ≤ range.2

/-- A text without the blank characters at its ends. -/
def trimBlank (cs : List Char) : List Char :=
  ((cs.dropWhile isBlank).reverse.dropWhile isBlank).reverse

/-- The table holds 25 characters. -/
example : (blankRanges.map fun range => range.2 - range.1 + 1).sum = 25 := by decide

end IntervalAutomata.Text
