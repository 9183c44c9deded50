import IntervalAutomata.ByteRange
import IntervalAutomata.Level.Layout

/-!
# Bands of one byte level

A `Level` is an interval seen at its least significant byte. The low bytes fall into at most three
bands (`Level.bands`) such that all bytes of a band go with the same rests, which again form an
interval: the one that the child below the band has to recognise.

The bands are plain numbers. A band becomes the range of an edge through `Band.range?`, which has no
value for a band without bytes; such a band arises only for the number zero below the root, where
the level starts at byte 1 (`Level.ofBounds`).
-/

namespace IntervalAutomata

/-- Low bytes that go with the same rests. -/
structure Band where
  /-- The least low byte. -/
  low : Nat
  /-- The greatest low byte. -/
  high : Nat
  /-- The least rest. -/
  childLow : Nat
  /-- The greatest rest. -/
  childHigh : Nat
deriving DecidableEq

/-- The bytes of a band, if it has any. -/
def Band.range? (band : Band) : Option ByteRange :=
  ByteRange.ofNat? band.low band.high

/-- The bounds of an interval, each split into its least significant byte and the rest. -/
structure Level where
  /-- The least significant byte of the lower bound. -/
  lowByte : Nat
  /-- What remains of the lower bound without that byte. -/
  lowRest : Nat
  /-- The least significant byte of the upper bound. -/
  highByte : Nat
  /-- What remains of the upper bound without that byte. -/
  highRest : Nat
deriving DecidableEq

namespace Level

/-- The level of an interval. At a node that accepts, the value zero needs no further byte, and a
zero byte must not follow unless another byte comes after it: the lower bound is then raised to the
byte 1. -/
def ofBounds (low high : Nat) (accepting : Bool) : Level where
  lowByte := if accepting then low % 256 + 1 else low % 256
  lowRest := low / 256
  highByte := high % 256
  highRest := high / 256

/-- How the bounds stand to each other. -/
def layout (level : Level) : Layout :=
  Layout.ofParts level.lowByte level.lowRest level.highByte level.highRest

/-- The bands of a level in ascending order of their low bytes. -/
def bands (level : Level) : List Band :=
  let ⟨lowByte, lowRest, highByte, highRest⟩ := level
  match level.layout with
  | .singleByte => [⟨lowByte, highByte, 0, 0⟩]
  | .sameRest => [⟨lowByte, highByte, lowRest, highRest⟩]
  | .fullSpan => [⟨0, 255, lowRest, highRest⟩]
  | .lowAtStart =>
    [⟨0, highByte, lowRest, highRest⟩, ⟨highByte + 1, 255, lowRest, highRest - 1⟩]
  | .highAtEnd =>
    [⟨0, lowByte - 1, lowRest + 1, highRest⟩, ⟨lowByte, 255, lowRest, highRest⟩]
  | .overlapping =>
    [⟨0, lowByte - 1, lowRest + 1, highRest⟩, ⟨lowByte, highByte, lowRest, highRest⟩,
      ⟨highByte + 1, 255, lowRest, highRest - 1⟩]
  | .wideGap =>
    [⟨0, highByte, lowRest + 1, highRest⟩, ⟨highByte + 1, lowByte - 1, lowRest + 1, highRest - 1⟩,
      ⟨lowByte, 255, lowRest, highRest - 1⟩]
  | .narrowGap =>
    [⟨0, highByte, lowRest + 1, highRest⟩, ⟨lowByte, 255, lowRest, highRest - 1⟩]

end Level

end IntervalAutomata
