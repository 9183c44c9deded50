import IntervalAutomata.Numeral

/-!
# Ranges of bytes

A closed, non-empty range of byte values, the label of an automaton's edge. `ByteRange.ofNat?`
makes one from bounds that may enclose no byte, and answers `none` for those; `ByteRange.ofBytes`
is for bounds that are meant to enclose one, and refuses with a message.
-/

namespace IntervalAutomata

/-- A closed, non-empty range of bytes. -/
structure ByteRange where
  /-- The least byte. -/
  low : Nat
  /-- The greatest byte. -/
  high : Nat
  /-- The bounds are in order. -/
  low_le_high : low ≤ high := by omega
  /-- The bounds are bytes. -/
  high_lt : high < 256 := by omega
deriving DecidableEq

namespace ByteRange

/-- Every byte. -/
def full : ByteRange where
  low := 0
  high := 255

/-- The range between two bounds, if they enclose a byte. -/
def ofNat? (low high : Nat) : Option ByteRange :=
  if h : low ≤ high ∧ high < 256 then
    some { low, high, low_le_high := h.1, high_lt := h.2 }
  else
    none

/-- Two bytes that were given as the bounds of a range and enclose nothing. -/
structure Empty where
  /-- The byte given as the lower bound. -/
  low : UInt8
  /-- The byte given as the upper bound. -/
  high : UInt8

/-- The refusal in words, which a caller sees that gives such bounds; nothing here does. -/
def Empty.message (_ : Empty) : String :=
  "ByteRange: low must not exceed high"

/-- The range between two bytes, refused if the lower bound is the greater. -/
def ofBytes (low high : UInt8) : Except Empty ByteRange :=
  match ofNat? low.toNat high.toNat with
  | some range => .ok range
  | none => .error { low, high }

/-- A byte is in a range if it lies between the bounds. -/
instance : Membership UInt8 ByteRange where
  mem range byte := range.low ≤ byte.toNat ∧ byte.toNat ≤ range.high

/-- A byte lies in a range if it is between the bounds. -/
theorem mem_iff {range : ByteRange} {byte : UInt8} :
    byte ∈ range ↔ range.low ≤ byte.toNat ∧ byte.toNat ≤ range.high :=
  Iff.rfl

/-- Membership is decided by comparing the bounds. -/
instance (byte : UInt8) (range : ByteRange) : Decidable (byte ∈ range) :=
  inferInstanceAs (Decidable (_ ∧ _))

/-- Whether a byte lies in the range. -/
def contains (range : ByteRange) (byte : UInt8) : Bool :=
  decide (byte ∈ range)

/-- Whether the range holds a single byte. -/
def isSingle (range : ByteRange) : Bool :=
  range.low == range.high

/-- Whether two ranges share a byte. -/
def overlaps (a b : ByteRange) : Bool :=
  decide (b.low ≤ a.high ∧ a.low ≤ b.high)

/-- Ranges are ordered by lower bound, then by upper bound. -/
instance : Ord ByteRange where
  compare a b := (compare a.low b.low).then (compare a.high b.high)

/-- A single byte as `2a`, several as `00..ff`. -/
def text (range : ByteRange) : String :=
  if range.isSingle then Numeral.byteHex range.low
  else Numeral.byteHex range.low ++ ".." ++ Numeral.byteHex range.high

/-- A range is made of two bounds exactly if they are its bounds. -/
theorem ofNat?_eq_some_iff {low high : Nat} {range : ByteRange} :
    ofNat? low high = some range ↔ range.low = low ∧ range.high = high := by
  obtain ⟨l, h, hle, hlt⟩ := range
  simp only [ofNat?]
  split
  · simp [ByteRange.mk.injEq, eq_comm]
  · simp only [reduceCtorEq, false_iff]
    omega

/-- There is a range between two bounds if they are in order and both are bytes. -/
theorem ofNat?_isSome_iff {low high : Nat} :
    (ofNat? low high).isSome ↔ low ≤ high ∧ high < 256 := by
  simp only [ofNat?]
  split <;> simp_all

end ByteRange

end IntervalAutomata
