import IntervalAutomata.Node.Partition
import IntervalAutomata.Proofs.Level.Cover

/-!
# Levels in the arithmetic of words

`Level.ofBounds`, `Level.layout` and `Level.bands` reckon with natural numbers, where a sum has no
limit and a difference stops at zero. Here the same is reckoned with words: low bytes lie below 256
and rests below `UInt64.size`, every sum and every difference is checked where it is formed, and
bounds of a range that are out of order are refused. A check that fails is a `CompileFault`.

For the level of bounds in order no check fails, and the outcome is that of natural numbers:

* `Level.wordsOfBounds_eq`: raising the lower byte of a node that accepts;
* `Level.Valid.wordLayout_eq`: the comparisons that decide the layout;
* `Level.Valid.wordBands_eq`: the bands;
* `Level.Valid.wordRange_eq`: the ranges of their bytes.
-/

namespace IntervalAutomata

/-! ## Words -/

/-- What stops a compilation that reckons with words. -/
inductive CompileFault where
  /-- A sum has no room in its word. -/
  | overflow
  /-- A difference lies below zero. -/
  | underflow
  /-- The bounds of a range of bytes are out of order. -/
  | emptyRange (refused : ByteRange.Empty)
  /-- A call lies deeper than calls are allowed to. -/
  | tooDeep
  /-- The finished graph fails the partition check. -/
  | partition (fault : PartitionFault)

namespace Word

/-- One more than a number, in a word with room for the numbers below `size`. -/
def next (size n : Nat) : Except CompileFault Nat :=
  if n + 1 < size then .ok (n + 1) else .error .overflow

/-- One less than a number. -/
def previous (n : Nat) : Except CompileFault Nat :=
  if 0 < n then .ok (n - 1) else .error .underflow

/-- Adding one does not overflow below the greatest number. -/
theorem next_of_lt {size n : Nat} (h : n + 1 < size) : next size n = .ok (n + 1) :=
  if_pos h

/-- Taking one away does not overflow above zero. -/
theorem previous_of_pos {n : Nat} (h : 0 < n) : previous n = .ok (n - 1) :=
  if_pos h

/-- What has not failed is passed on. -/
@[simp] theorem ok_bind {α β : Type} (a : α) (f : α → Except CompileFault β) :
    (Except.ok a >>= f) = f a := rfl

end Word

/-! ## Levels -/

namespace Level

/-- The level of an interval. The lower byte is raised in a byte. -/
def wordsOfBounds (low high : Nat) (accepting : Bool) : Except CompileFault Level := do
  let lowByte ← if accepting then Word.next 256 (low % 256) else .ok (low % 256)
  return { lowByte, lowRest := low / 256, highByte := high % 256, highRest := high / 256 }

/-- Which gap lies between the low bytes of the bounds. The bytes are looked at only if there are
rests between the rests of the bounds. -/
def wordGap (level : Level) : Except CompileFault Layout := do
  let nextRest ← Word.next UInt64.size level.lowRest
  if nextRest < level.highRest then
    let previousByte ← Word.previous level.lowByte
    return if level.highByte < previousByte then .wideGap else .narrowGap
  else
    return .narrowGap

/-- How the bounds stand to each other. -/
def wordLayout (level : Level) : Except CompileFault Layout :=
  if level.highRest = 0 then .ok .singleByte
  else if level.lowRest = level.highRest then .ok .sameRest
  else if level.lowByte = 0 ∧ level.highByte = 255 then .ok .fullSpan
  else if level.lowByte = 0 then .ok .lowAtStart
  else if level.highByte = 255 then .ok .highAtEnd
  else if level.lowByte ≤ level.highByte then .ok .overlapping
  else level.wordGap

/-- The bands of a level with the given layout. Every bound that is not one of the level's own parts
is reckoned in the word of the part that it comes from. -/
def wordBands (level : Level) (layout : Layout) : Except CompileFault (List Band) :=
  let ⟨lowByte, lowRest, highByte, highRest⟩ := level
  match layout with
  | .singleByte => return [⟨lowByte, highByte, 0, 0⟩]
  | .sameRest => return [⟨lowByte, highByte, lowRest, highRest⟩]
  | .fullSpan => return [⟨0, 255, lowRest, highRest⟩]
  | .lowAtStart => do
    let afterHigh ← Word.next 256 highByte
    let previousRest ← Word.previous highRest
    return [⟨0, highByte, lowRest, highRest⟩, ⟨afterHigh, 255, lowRest, previousRest⟩]
  | .highAtEnd => do
    let beforeLow ← Word.previous lowByte
    let nextRest ← Word.next UInt64.size lowRest
    return [⟨0, beforeLow, nextRest, highRest⟩, ⟨lowByte, 255, lowRest, highRest⟩]
  | .overlapping => do
    let beforeLow ← Word.previous lowByte
    let nextRest ← Word.next UInt64.size lowRest
    let afterHigh ← Word.next 256 highByte
    let previousRest ← Word.previous highRest
    return [⟨0, beforeLow, nextRest, highRest⟩, ⟨lowByte, highByte, lowRest, highRest⟩,
      ⟨afterHigh, 255, lowRest, previousRest⟩]
  | .wideGap => do
    let nextRest ← Word.next UInt64.size lowRest
    let afterHigh ← Word.next 256 highByte
    let beforeLow ← Word.previous lowByte
    let previousRest ← Word.previous highRest
    return [⟨0, highByte, nextRest, highRest⟩, ⟨afterHigh, beforeLow, nextRest, previousRest⟩,
      ⟨lowByte, 255, lowRest, previousRest⟩]
  | .narrowGap => do
    let nextRest ← Word.next UInt64.size lowRest
    let previousRest ← Word.previous highRest
    return [⟨0, highByte, nextRest, highRest⟩, ⟨lowByte, 255, lowRest, previousRest⟩]

end Level

/-- The bytes of a band. Only where a value ends may there be none. -/
def Band.wordRange (layout : Layout) (band : Band) : Except CompileFault (Option ByteRange) :=
  if layout = .singleByte then return band.range?
  else
    match ByteRange.ofBytes (UInt8.ofNat band.low) (UInt8.ofNat band.high) with
    | .ok range => return some range
    | .error refused => .error (.emptyRange refused)

/-! ## No check fails -/

/-- A byte has room for one more where the lower byte is raised, since it is zero there. -/
theorem Level.wordsOfBounds_eq {low high : Nat} {accepting : Bool}
    (h : accepting = true → low = 0) :
    wordsOfBounds low high accepting = .ok (ofBounds low high accepting) := by
  cases accepting with
  | false => rfl
  | true =>
      obtain rfl := h rfl
      rfl

namespace Level.Valid

variable {level : Level}

/-- Where there is a rest above that of the lower bound, one more than that has room. -/
theorem wordGap_eq (hrests : level.lowRest < level.highRest) (hbyte : 0 < level.lowByte)
    (hsize : level.highRest < UInt64.size) :
    level.wordGap = .ok (if level.lowRest + 1 < level.highRest ∧
      level.highByte < level.lowByte - 1 then .wideGap else .narrowGap) := by
  have hnext : Word.next UInt64.size level.lowRest = .ok (level.lowRest + 1) :=
    Word.next_of_lt (by omega)
  unfold wordGap
  rw [hnext, Word.previous_of_pos hbyte, Word.ok_bind, Word.ok_bind]
  by_cases hwide : level.lowRest + 1 < level.highRest
  · rw [if_pos hwide]
    simp only [hwide, true_and]
    rfl
  · rw [if_neg hwide, if_neg (fun h => hwide h.1)]
    rfl

/-- The tests are those of `Layout.ofParts`, and the last one is reached only where the rests are in
order and the lower byte is not zero. -/
theorem wordLayout_eq (valid : level.Valid) (hsize : level.highRest < UInt64.size) :
    level.wordLayout = .ok level.layout := by
  have hrests := valid.rest_le
  unfold wordLayout Level.layout Layout.ofParts
  simp only [apply_ite Except.ok]
  refine ite_congr rfl (fun _ => rfl) fun _ => ?_
  refine ite_congr rfl (fun _ => rfl) fun hrest => ?_
  refine ite_congr rfl (fun _ => rfl) fun _ => ?_
  refine ite_congr rfl (fun _ => rfl) fun hbyte => ?_
  refine ite_congr rfl (fun _ => rfl) fun _ => ?_
  refine ite_congr rfl (fun _ => rfl) fun _ => ?_
  rw [← apply_ite]
  exact wordGap_eq (by omega) (by omega) hsize

/-- What the layout says gives every bound of a band its room. -/
theorem wordBands_eq (valid : level.Valid) (hsize : level.highRest < UInt64.size) :
    level.wordBands level.layout = .ok level.bands := by
  have hsays := valid.layout_says
  obtain ⟨hlow, hhigh, -, -⟩ := valid
  have hnextRest : level.lowRest < level.highRest →
      Word.next UInt64.size level.lowRest = .ok (level.lowRest + 1) := by
    intro hrests
    exact Word.next_of_lt (by omega)
  have hpreviousRest : level.lowRest < level.highRest →
      Word.previous level.highRest = .ok (level.highRest - 1) := by
    intro hrests
    exact Word.previous_of_pos (by omega)
  have hafterHigh : level.highByte < 255 →
      Word.next 256 level.highByte = .ok (level.highByte + 1) := by
    intro hbyte
    exact Word.next_of_lt (by omega)
  unfold wordBands Level.bands
  cases hlayout : level.layout <;> rw [hlayout] at hsays <;> simp only [Layout.Says] at hsays
  case singleByte | sameRest | fullSpan => rfl
  case lowAtStart =>
    simp only [hafterHigh (by omega), hpreviousRest (by omega)]
    rfl
  case highAtEnd =>
    simp only [Word.previous_of_pos hsays.2.1, hnextRest (by omega)]
    rfl
  case overlapping =>
    simp only [Word.previous_of_pos hsays.2.1, hnextRest (by omega), hafterHigh (by omega),
      hpreviousRest (by omega)]
    rfl
  case wideGap =>
    have hbyte : 0 < level.lowByte := by omega
    simp only [Word.previous_of_pos hbyte, hnextRest (by omega), hafterHigh (by omega),
      hpreviousRest (by omega)]
    rfl
  case narrowGap =>
    simp only [hnextRest (by omega), hpreviousRest (by omega)]
    rfl

/-- A level whose upper bound is not a single byte has a byte in every band. -/
theorem band_le (valid : level.Valid) (hlayout : level.layout ≠ .singleByte) {band : Band}
    (hband : band ∈ level.bands) : band.low ≤ band.high := by
  have hsays := valid.layout_says
  obtain ⟨hlow, hhigh, hrests, hbytes⟩ := valid
  unfold Level.bands at hband
  cases hcase : level.layout <;> rw [hcase] at hsays hband hlayout <;>
    simp only [Layout.Says, List.mem_cons, List.not_mem_nil, or_false] at hsays hband
  case singleByte => exact absurd rfl hlayout
  case sameRest | fullSpan =>
    subst hband
    dsimp only
    omega
  case lowAtStart | highAtEnd | narrowGap =>
    rcases hband with rfl | rfl <;> dsimp only <;> omega
  case overlapping | wideGap =>
    rcases hband with rfl | rfl | rfl <;> dsimp only <;> omega

/-- The bytes of a band are those of its range. -/
theorem wordRange_eq (valid : level.Valid) {band : Band} (hband : band ∈ level.bands) :
    band.wordRange level.layout = .ok band.range? := by
  unfold Band.wordRange
  by_cases hlayout : level.layout = .singleByte
  · rw [if_pos hlayout]
    rfl
  · rw [if_neg hlayout]
    have hle := valid.band_le hlayout hband
    have hlt := (valid.suits_of_mem hband).high_lt
    have hlow : (UInt8.ofNat band.low).toNat = band.low := by
      rw [UInt8.toNat_ofNat']
      omega
    have hhigh : (UInt8.ofNat band.high).toNat = band.high := by
      rw [UInt8.toNat_ofNat']
      omega
    have hsome : band.range?.isSome := by
      rw [Band.range?, ByteRange.ofNat?_isSome_iff]
      exact ⟨hle, hlt⟩
    obtain ⟨range, hrange⟩ := Option.isSome_iff_exists.mp hsome
    unfold Band.range? at hrange ⊢
    rw [ByteRange.ofBytes, hlow, hhigh, hrange]
    rfl

end Level.Valid

end IntervalAutomata
