import IntervalAutomata.Level.Bands
import Mathlib.Tactic.SplitIfs

/-!
# What the bands of a level cover

A level stands for the numbers from `Level.least` to `Level.greatest`, each of which is a low byte
and a rest (`Level.Holds`). The bands sort those pairs by their bytes:

* **the rests that go with a byte of a band are an interval**, which is never empty: the one between
  the bounds of the child (`Band.Suits`, `Valid.suits_of_mem`);
* **every byte with a rest lies in a band** (`Valid.exists_band_of_holds`);
* **no byte lies in two bands**, since they ascend (`Valid.pairwise_bands`);
* **no two bands could be one**, since their children are asked for different bounds
  (`Valid.pairwise_child_bands`), and there are at most three of them (`length_bands_le`).

Each is read off the layout once it is known what the layout says of the parts of the bounds
(`Layout.Says`, `Valid.layout_says`); no later proof opens the eight cases again.
-/

namespace IntervalAutomata

namespace Level

/-! ## The numbers of a level -/

/-- The least number of a level. -/
def least (level : Level) : Nat :=
  256 * level.lowRest + level.lowByte

/-- The greatest number of a level. -/
def greatest (level : Level) : Nat :=
  256 * level.highRest + level.highByte

/-- A byte and a rest make a number of the level. -/
def Holds (level : Level) (byte rest : Nat) : Prop :=
  level.least ≤ 256 * rest + byte ∧ 256 * rest + byte ≤ level.greatest

/-- The parts are bytes and rests of bounds in order. The one level without a number, that of zero
from the byte 1 on, is allowed: there the rest of the upper bound is zero. -/
structure Valid (level : Level) : Prop where
  /-- The low part of the lower bound is a byte. -/
  lowByte_lt : level.lowByte < 256
  /-- The low part of the upper bound is a byte. -/
  highByte_lt : level.highByte < 256
  /-- The rests are in order. -/
  rest_le : level.lowRest ≤ level.highRest
  /-- Under one rest that is not zero the bytes are in order. -/
  byte_le : level.lowRest = level.highRest → level.highRest ≠ 0 → level.lowByte ≤ level.highByte

/-- Bounds in order make a valid level, also with the lower bound raised from zero to 1. -/
theorem valid_ofBounds {low high : Nat} {accepting : Bool} (h : low ≤ high)
    (ha : accepting = true → low = 0) : (ofBounds low high accepting).Valid := by
  cases accepting with
  | false =>
      constructor <;> simp only [ofBounds, Bool.false_eq_true, if_false] <;> omega
  | true =>
      obtain rfl := ha rfl
      constructor <;> simp only [ofBounds, if_true] <;> omega

/-- A level whose node accepts leaves the lower bound out. -/
theorem least_ofBounds (low high : Nat) (accepting : Bool) :
    (ofBounds low high accepting).least = if accepting then low + 1 else low := by
  cases accepting <;> simp only [least, ofBounds, Bool.false_eq_true, if_false, if_true] <;> omega

/-- The greatest number of a level is the upper bound. -/
theorem greatest_ofBounds (low high : Nat) (accepting : Bool) :
    (ofBounds low high accepting).greatest = high := by
  simp only [greatest, ofBounds]
  omega

end Level

/-! ## What the layouts say -/

/-- What a layout says about the parts of the bounds, the failure of all earlier ones included. -/
def Layout.Says (level : Level) : Layout → Prop
  | .singleByte => level.highRest = 0
  | .sameRest => level.highRest ≠ 0 ∧ level.lowRest = level.highRest
  | .fullSpan => level.lowRest < level.highRest ∧ level.lowByte = 0 ∧ level.highByte = 255
  | .lowAtStart => level.lowRest < level.highRest ∧ level.lowByte = 0 ∧ level.highByte < 255
  | .highAtEnd => level.lowRest < level.highRest ∧ 0 < level.lowByte ∧ level.highByte = 255
  | .overlapping =>
    level.lowRest < level.highRest ∧ 0 < level.lowByte ∧ level.lowByte ≤ level.highByte ∧
      level.highByte < 255
  | .wideGap => level.lowRest + 1 < level.highRest ∧ level.highByte + 1 < level.lowByte
  | .narrowGap =>
    level.lowRest < level.highRest ∧ level.highByte < level.lowByte ∧
      (level.highRest = level.lowRest + 1 ∨ level.lowByte = level.highByte + 1)

namespace Level.Valid

variable {level : Level}

/-- The layout of a level is true of it. -/
theorem layout_says (valid : level.Valid) : level.layout.Says level := by
  obtain ⟨hlow, hhigh, hrest, -⟩ := valid
  unfold Level.layout Layout.ofParts
  -- one goal for each layout, in the order in which they are tried
  split_ifs <;> simp only [Layout.Says] <;> omega

end Level.Valid

/-! ## The bands -/

/-- What is right about a band of a level. -/
structure Band.Suits (level : Level) (band : Band) : Prop where
  /-- The greatest byte is a byte. -/
  high_lt : band.high < 256
  /-- The child is asked for a non-empty interval. -/
  child_le : band.childLow ≤ band.childHigh
  /-- The child needs no more levels than the rest of the upper bound. -/
  childHigh_le : band.childHigh ≤ level.highRest
  /-- Each byte of the band goes with exactly the rests between the bounds of the child. -/
  holds_iff : ∀ byte, band.low ≤ byte → byte ≤ band.high → ∀ rest,
    (level.Holds byte rest ↔ band.childLow ≤ rest ∧ rest ≤ band.childHigh)

/-- Where the upper bound is a single byte, nothing but zero remains of it. -/
theorem Level.child_of_singleByte {level : Level} (h : level.layout = .singleByte) {band : Band}
    (hband : band ∈ level.bands) : band.childLow = 0 ∧ band.childHigh = 0 := by
  unfold Level.bands at hband
  rw [h] at hband
  obtain rfl := List.mem_singleton.mp hband
  exact ⟨rfl, rfl⟩

namespace Level.Valid

variable {level : Level}

/-- All bands of a level are right. -/
theorem suits_of_mem (valid : level.Valid) {band : Band} (hband : band ∈ level.bands) :
    band.Suits level := by
  have hsays := valid.layout_says
  obtain ⟨hlow, hhigh, hrest, hbyte⟩ := valid
  unfold Level.bands at hband
  -- the bands of each layout in turn, with what the layout says at hand
  cases hlayout : level.layout <;> rw [hlayout] at hsays hband <;>
    simp only [Layout.Says, List.mem_cons, List.not_mem_nil, or_false] at hsays hband
  case singleByte | sameRest | fullSpan =>
    subst hband
    constructor <;> simp only [Holds, least, greatest] <;> omega
  case lowAtStart | highAtEnd | narrowGap =>
    rcases hband with rfl | rfl <;> constructor <;> simp only [Holds, least, greatest] <;> omega
  case overlapping | wideGap =>
    rcases hband with rfl | rfl | rfl <;> constructor <;>
      simp only [Holds, least, greatest] <;> omega

/-- A byte that goes with some rest lies in a band. -/
theorem exists_band_of_holds (valid : level.Valid) {byte rest : Nat} (hbyte : byte < 256)
    (h : level.Holds byte rest) : ∃ band ∈ level.bands, band.low ≤ byte ∧ byte ≤ band.high := by
  have hsays := valid.layout_says
  obtain ⟨hlow, hhigh, hrest, -⟩ := valid
  unfold Holds least greatest at h
  unfold Level.bands
  cases hlayout : level.layout <;> rw [hlayout] at hsays <;>
    simp only [Layout.Says, List.mem_cons, List.not_mem_nil, or_false, exists_eq_or_imp,
      exists_eq_left] at hsays ⊢ <;> omega

/-- The bands hold the pairs of the level and no others. -/
theorem exists_band_iff (valid : level.Valid) {byte rest : Nat} (hbyte : byte < 256) :
    (∃ band ∈ level.bands, (band.low ≤ byte ∧ byte ≤ band.high) ∧
        band.childLow ≤ rest ∧ rest ≤ band.childHigh) ↔ level.Holds byte rest := by
  constructor
  · rintro ⟨band, hband, ⟨hlo, hhi⟩, hrest⟩
    exact ((valid.suits_of_mem hband).holds_iff byte hlo hhi rest).mpr hrest
  · intro hholds
    obtain ⟨band, hband, hlo, hhi⟩ := valid.exists_band_of_holds hbyte hholds
    have hrest := ((valid.suits_of_mem hband).holds_iff byte hlo hhi rest).mp hholds
    exact ⟨band, hband, ⟨hlo, hhi⟩, hrest⟩

/-- Of two bands the later one lies above the earlier, and its child is asked for other bounds. -/
theorem pairwise_distinct_bands (valid : level.Valid) :
    level.bands.Pairwise fun first second => first.high < second.low ∧
      (first.childLow ≠ second.childLow ∨ first.childHigh ≠ second.childHigh) := by
  have hsays := valid.layout_says
  unfold Level.bands
  cases hlayout : level.layout <;> rw [hlayout] at hsays <;> simp only [Layout.Says] at hsays
  case singleByte | sameRest | fullSpan => exact List.pairwise_singleton _ _
  case lowAtStart | highAtEnd | narrowGap =>
    rw [List.pairwise_pair]
    dsimp only
    omega
  case overlapping | wideGap =>
    rw [List.pairwise_cons, List.pairwise_pair]
    simp only [List.mem_cons, List.not_mem_nil, or_false, forall_eq_or_imp, forall_eq]
    omega

/-- Bands ascend and share no byte. -/
theorem pairwise_bands (valid : level.Valid) :
    level.bands.Pairwise fun first second => first.high < second.low :=
  valid.pairwise_distinct_bands.imp And.left

/-- The children of any two bands are asked for different bounds. -/
theorem pairwise_child_bands (valid : level.Valid) :
    level.bands.Pairwise fun first second =>
      first.childLow ≠ second.childLow ∨ first.childHigh ≠ second.childHigh :=
  valid.pairwise_distinct_bands.imp And.right

end Level.Valid

/-- A level has at most three bands. -/
theorem Level.length_bands_le (level : Level) : level.bands.length ≤ 3 := by
  unfold Level.bands
  cases level.layout <;> simp

end IntervalAutomata
