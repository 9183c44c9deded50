/-!
# Layouts of one byte level

The bounds of an interval, each split into its least significant byte and the rest, stand in one of
eight relations that decide which low bytes go with which rests (`Layout`). With rests as rows and
low bytes as columns, the interval runs from its lower bound to the right, through whole rows, and
up to its upper bound:

```text
singleByte   sameRest     fullSpan     lowAtStart
. . . . .    . . . . .    . . . . .    . . . . .
. . . . .    . a-->b .    ------->b    --->b . .
. a-->b .    . . . . .    a------->    a------->

highAtEnd    overlapping  wideGap      narrowGap
. . . . .    ----->b .    ->b . . .    . . . . .
------->b    -------->    -------->    ->b . . .
. . a--->    . a----->    . . . a->    . . a--->
```
-/

namespace IntervalAutomata

/-- How the bounds of an interval stand to each other at one byte. The relations are tried in this
order, and each assumes that none before it holds. -/
inductive Layout where
  /-- The upper bound is a single byte. -/
  | singleByte
  /-- Both bounds have the same rest. -/
  | sameRest
  /-- The low bytes run from the least to the greatest. -/
  | fullSpan
  /-- The lower bound has the least low byte. -/
  | lowAtStart
  /-- The upper bound has the greatest low byte. -/
  | highAtEnd
  /-- The low byte of the upper bound reaches that of the lower bound. -/
  | overlapping
  /-- Low bytes lie strictly between those of the bounds, and rests between their rests. -/
  | wideGap
  /-- No value has a low byte strictly between those of the bounds. -/
  | narrowGap
deriving DecidableEq

namespace Layout

/-- The name under which a layout is reported. -/
def name : Layout → String
  | singleByte => "single-byte"
  | sameRest => "same-high"
  | fullSpan => "full-span"
  | lowAtStart => "low-at-start"
  | highAtEnd => "high-at-end"
  | overlapping => "overlapping"
  | wideGap => "wide-gap"
  | narrowGap => "narrow-gap"

/-- The layout of bounds given by their low bytes and rests. -/
def ofParts (lowByte lowRest highByte highRest : Nat) : Layout :=
  if highRest = 0 then singleByte
  else if lowRest = highRest then sameRest
  else if lowByte = 0 ∧ highByte = 255 then fullSpan
  else if lowByte = 0 then lowAtStart
  else if highByte = 255 then highAtEnd
  else if lowByte ≤ highByte then overlapping
  else if lowRest + 1 < highRest ∧ highByte < lowByte - 1 then wideGap
  else narrowGap

end Layout

end IntervalAutomata
