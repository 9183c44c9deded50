import IntervalAutomata.Numeral

/-!
# Intervals

A closed range of 64-bit values. An `Interval` carries the proof that its bounds are in order and
fit in 64 bits, so no function that receives one checks them again; `Interval.ofBounds` is the only
check, and it names the bounds it refuses (`ofBounds_eq_ok_iff`, `ofBounds_of_lt`).

Values that enter the library are `UInt64`. The bounds are natural numbers, in which `low - 1`,
`high + 1` and the number of values (`Interval.size`, up to `2 ^ 64`) are ordinary arithmetic.
-/

namespace IntervalAutomata

/-- A closed, non-empty range of 64-bit values. -/
structure Interval where
  /-- The least value. -/
  low : Nat
  /-- The greatest value. -/
  high : Nat
  /-- The bounds are in order. -/
  low_le_high : low ≤ high := by omega
  /-- The bounds fit in 64 bits. -/
  high_lt : high < UInt64.size := by unfold UInt64.size; omega

/-- Bounds that enclose nothing, because the lower one is the greater. -/
structure InvalidRange where
  /-- The bound given as the lower one. -/
  low : UInt64
  /-- The bound given as the upper one. -/
  high : UInt64
deriving DecidableEq

/-- The refusal in words, with the bounds that were given. -/
def InvalidRange.message (e : InvalidRange) : String :=
  "invalid range: low " ++ Numeral.hex e.low.toNat ++ " is greater than high "
    ++ Numeral.hex e.high.toNat

namespace Interval

/-- An interval is given by its bounds. -/
@[ext] theorem ext {a b : Interval} (hlow : a.low = b.low) (hhigh : a.high = b.high) : a = b := by
  cases a
  cases b
  cases hlow
  cases hhigh
  rfl

/-- Intervals are compared by their bounds. -/
instance : DecidableEq Interval := fun a b =>
  decidable_of_iff (a.low = b.low ∧ a.high = b.high)
    ⟨fun h => ext h.1 h.2, fun h => ⟨congrArg low h, congrArg high h⟩⟩

/-! ## Making intervals -/

/-- The interval between two bounds, refused if they are out of order. -/
def ofBounds (low high : UInt64) : Except InvalidRange Interval :=
  if h : low ≤ high then
    .ok { low := low.toNat, high := high.toNat,
          low_le_high := UInt64.le_iff_toNat_le.mp h, high_lt := high.toNat_lt_size }
  else
    .error { low, high }

/-- The interval that holds one value. -/
def single (value : UInt64) : Interval where
  low := value.toNat
  high := value.toNat
  low_le_high := Nat.le_refl _
  high_lt := value.toNat_lt_size

/-- An interval is made of two bounds exactly if they are its bounds. -/
theorem ofBounds_eq_ok_iff {low high : UInt64} {i : Interval} :
    ofBounds low high = .ok i ↔ i.low = low.toNat ∧ i.high = high.toNat := by
  obtain ⟨l, h, hle, hlt⟩ := i
  simp only [ofBounds]
  split
  · rename_i hle'
    simp [Interval.mk.injEq, eq_comm]
  · rename_i hle'
    rw [UInt64.le_iff_toNat_le] at hle'
    simp only [reduceCtorEq, false_iff]
    omega

/-- Bounds that are out of order are refused with these bounds. -/
theorem ofBounds_of_lt {low high : UInt64} (h : high < low) :
    ofBounds low high = .error { low, high } := by
  rw [UInt64.lt_iff_toNat_lt] at h
  rw [ofBounds, dif_neg (by rw [UInt64.le_iff_toNat_le]; omega)]

/-! ## Membership and size -/

/-- A number is in an interval if it lies between the bounds. -/
instance : Membership Nat Interval where
  mem i value := i.low ≤ value ∧ value ≤ i.high

/-- A number lies in an interval if it is between the bounds. -/
theorem mem_iff {i : Interval} {value : Nat} : value ∈ i ↔ i.low ≤ value ∧ value ≤ i.high :=
  Iff.rfl

/-- Membership is decided by comparing the bounds. -/
instance (value : Nat) (i : Interval) : Decidable (value ∈ i) :=
  inferInstanceAs (Decidable (_ ∧ _))

/-- Whether a value lies between the bounds. This is the test that an interval offers to others;
here membership is used. -/
def contains (i : Interval) (value : UInt64) : Bool :=
  decide (value.toNat ∈ i)

/-- The number of values, which for the whole range is `2 ^ 64`. -/
def size (i : Interval) : Nat :=
  i.high - i.low + 1

/-! ## Two intervals -/

/-- The values that two intervals share, if there are any. -/
def inter? (a b : Interval) : Option Interval :=
  if h : max a.low b.low ≤ min a.high b.high then
    some { low := max a.low b.low, high := min a.high b.high, low_le_high := h,
           high_lt := by have := a.high_lt; omega }
  else
    none

/-- Whether every value of `b` is one of `a`. -/
def covers (a b : Interval) : Bool :=
  decide (a.low ≤ b.low ∧ b.high ≤ a.high)

/-- Intervals are ordered by lower bound, then by upper bound. -/
instance : Ord Interval where
  compare a b := (compare a.low b.low).then (compare a.high b.high)

/-! ## Text -/

/-- Both bounds in hexadecimal, as in `[0x1, 0xffff]`. -/
def boundsText (low high : Nat) : String :=
  "[" ++ Numeral.hex low ++ ", " ++ Numeral.hex high ++ "]"

/-- The interval by its bounds, as in `[0x1, 0xffff]`. -/
def text (i : Interval) : String :=
  boundsText i.low i.high

end Interval

end IntervalAutomata
