import IntervalAutomata.Proofs.Interval.Size
import IntervalAutomata.Proofs.Interval.Subtraction

/-!
# The parts of a difference

`difference` takes the values below and above the second interval out of the first one, whatever the
position of the two. `wordDifference` looks at the position first and reckons only the bounds that
it then needs, in words, where nothing precedes the least and nothing follows the greatest.

* **The bounds have their words** (`wordDifference_eq`): a bound is reckoned only where the position
  leaves a word for it, and both ways give the same parts.
* **The parts and the common values make up the first interval** (`multiplicity_parts`): each of its
  values lies in one of them and in no more. Therefore their sizes add up (`totalSize_parts`).

The main statement (`difference_cuts`) collects what is right about a difference.
-/

namespace IntervalAutomata.Interval

variable {a b : Interval} {value : Nat}

/-! ## Reckoning with words -/

/-- The word before another, if it is not the least. -/
def previous? (n : Nat) : Option Nat :=
  if 0 < n then some (n - 1) else none

/-- The word after another, if it is not the greatest. -/
def next? (n : Nat) : Option Nat :=
  if n + 1 < UInt64.size then some (n + 1) else none

/-- The bounds of an interval. -/
def bounds (i : Interval) : Nat × Nat :=
  (i.low, i.high)

/-- The bounds of the part that ends right before the second interval. -/
def partBelow? (a b : Interval) : Option (List (Nat × Nat)) :=
  (previous? b.low).map fun high => [(a.low, high)]

/-- The bounds of the part that begins right after the second interval. -/
def partAbove? (a b : Interval) : Option (List (Nat × Nat)) :=
  (next? b.high).map fun low => [(low, a.high)]

/-- The bounds of the parts, by the position of the intervals to each other: they may share no
value, the second may cover the first or the first the second, or the second may stick out of one
side of the first. There is no answer if a bound has no word. -/
def wordDifference (a b : Interval) : Option (List (Nat × Nat)) :=
  if a.high < b.low ∨ b.high < a.low then some [a.bounds]
  else if b.covers a then some []
  else if a.covers b then
    let below? := if a.low = b.low then some [] else partBelow? a b
    let above? := if b.high = a.high then some [] else partAbove? a b
    below?.bind fun below => above?.map fun above => below ++ above
  else if a.low < b.low then partBelow? a b
  else partAbove? a b

/-- Where the first interval begins before the second, there is a word before the second. -/
theorem partBelow?_eq (h : a.low < b.low) : partBelow? a b = some [(a.low, b.low - 1)] := by
  have hpos : 0 < b.low := by omega
  rw [partBelow?, previous?, if_pos hpos, Option.map_some]

/-- Where the first interval ends after the second, there is a word after the second. -/
theorem partAbove?_eq (h : b.high < a.high) : partAbove? a b = some [(b.high + 1, a.high)] := by
  have hroom : b.high + 1 < UInt64.size := Nat.lt_of_le_of_lt h a.high_lt
  rw [partAbove?, next?, if_pos hroom, Option.map_some]

/-! ## The same parts -/

/-- The bounds of a difference are those of the part below and of the part above. -/
theorem map_bounds_difference (a b : Interval) :
    (difference a b).map bounds =
      (if a.low < b.low then [(a.low, min a.high (b.low - 1))] else []) ++
        if b.high < a.high then [(max a.low (b.high + 1), a.high)] else [] := by
  rw [difference, List.map_append]
  congr 1
  · unfold below?
    split <;> rfl
  · unfold above?
    split <;> rfl

/-- Of an interval that shares no value with another nothing is taken out. -/
theorem map_bounds_difference_of_apart (h : a.high < b.low ∨ b.high < a.low) :
    (difference a b).map bounds = [a.bounds] := by
  have ha := a.low_le_high
  have hb := b.low_le_high
  rw [map_bounds_difference]
  rcases h with hbefore | hafter
  · rw [if_pos (by omega), if_neg (by omega), Nat.min_eq_left (by omega)]
    rfl
  · rw [if_neg (by omega), if_pos (by omega), Nat.max_eq_left (by omega)]
    rfl

/-- Where values are shared, a part ends right before the second interval or begins right after
it. -/
theorem map_bounds_difference_of_not_apart (h : ¬(a.high < b.low ∨ b.high < a.low)) :
    (difference a b).map bounds =
      (if a.low < b.low then [(a.low, b.low - 1)] else []) ++
        if b.high < a.high then [(b.high + 1, a.high)] else [] := by
  rw [map_bounds_difference, Nat.min_eq_right (by omega), Nat.max_eq_right (by omega)]

/-- **Every bound has its word**, and the parts are those of the difference. -/
theorem wordDifference_eq (a b : Interval) :
    wordDifference a b = some ((difference a b).map bounds) := by
  unfold wordDifference
  by_cases hapart : a.high < b.low ∨ b.high < a.low
  · rw [if_pos hapart, map_bounds_difference_of_apart hapart]
  rw [if_neg hapart, map_bounds_difference_of_not_apart hapart]
  by_cases hcovered : b.covers a = true
  · rw [if_pos hcovered]
    rw [covers_iff] at hcovered
    rw [if_neg (by omega), if_neg (by omega), List.append_nil]
  rw [if_neg hcovered]
  rw [covers_iff] at hcovered
  by_cases hcovers : a.covers b = true
  · rw [if_pos hcovers]
    rw [covers_iff] at hcovers
    -- a part for each side on which the bounds differ
    have hbelow : (if a.low = b.low then some [] else partBelow? a b) =
        some (if a.low < b.low then [(a.low, b.low - 1)] else []) := by
      by_cases hlow : a.low = b.low
      · rw [if_pos hlow, if_neg (by omega)]
      · rw [if_neg hlow, if_pos (by omega), partBelow?_eq (by omega)]
    have habove : (if b.high = a.high then some [] else partAbove? a b) =
        some (if b.high < a.high then [(b.high + 1, a.high)] else []) := by
      by_cases hhigh : b.high = a.high
      · rw [if_pos hhigh, if_neg (by omega)]
      · rw [if_neg hhigh, if_pos (by omega), partAbove?_eq (by omega)]
    rw [hbelow, habove]
    rfl
  rw [if_neg hcovers]
  rw [covers_iff] at hcovers
  by_cases hlow : a.low < b.low
  · rw [if_pos hlow, if_pos hlow, if_neg (by omega), partBelow?_eq hlow, List.append_nil]
  · rw [if_neg hlow, if_neg hlow, if_pos (by omega), partAbove?_eq (by omega), List.nil_append]

/-! ## Parts and common values -/

/-- What two intervals share are the values in both. -/
theorem covered_inter? : Covered (inter? a b).toList value ↔ value ∈ a ∧ value ∈ b := by
  unfold inter?
  split
  · rw [Option.toList_some, covered_cons, mem_iff, mem_iff, mem_iff]
    simp only [not_covered_nil, or_false]
    omega
  · simp only [Option.toList_none, not_covered_nil, false_iff, mem_iff]
    omega

/-- The intersection has each common value once. -/
theorem multiplicity_inter? (a b : Interval) (value : Nat) :
    multiplicity (inter? a b).toList value = if value ∈ a ∧ value ∈ b then 1 else 0 := by
  have hapart : (inter? a b).toList.Pairwise Apart := by
    cases inter? a b with
    | none => exact List.Pairwise.nil
    | some shared => exact List.pairwise_singleton _ _
  simp only [multiplicity_eq hapart, covered_inter?]

/-- The difference has each value of the first interval alone once. -/
theorem multiplicity_difference (a b : Interval) (value : Nat) :
    multiplicity (difference a b) value = if value ∈ a ∧ value ∉ b then 1 else 0 := by
  have hapart : (difference a b).Pairwise Apart :=
    (separated_difference a b).imp fun h => h.before.apart
  simp only [multiplicity_eq hapart, Covered, mem_difference]

/-- **No value of the first interval is lost or doubled** by its parts and the common values. -/
theorem multiplicity_parts (a b : Interval) (value : Nat) :
    multiplicity (difference a b ++ (inter? a b).toList) value = if value ∈ a then 1 else 0 := by
  rw [multiplicity_append, multiplicity_difference, multiplicity_inter?]
  by_cases ha : value ∈ a <;> by_cases hb : value ∈ b <;> simp [ha, hb]

/-- The sizes of the parts and of what is shared add up to the size of the first interval. -/
theorem totalSize_parts (a b : Interval) :
    totalSize (difference a b) + totalSize (inter? a b).toList = a.size := by
  have hsame : ∀ value,
      multiplicity (difference a b ++ (inter? a b).toList) value = multiplicity [a] value := by
    intro value
    rw [multiplicity_parts, multiplicity_cons, multiplicity_nil, Nat.zero_add]
  calc totalSize (difference a b) + totalSize (inter? a b).toList
      = totalSize (difference a b ++ (inter? a b).toList) := (totalSize_append _ _).symm
    _ = totalSize [a] := totalSize_eq_of_multiplicity_eq hsame
    _ = a.size := totalSize_singleton a

/-! ## The main statement -/

/-- A difference has at most one part on either side of the second interval. -/
theorem length_difference_le (a b : Interval) : (difference a b).length ≤ 2 := by
  have hbelow : (below? a b).toList.length ≤ 1 := by
    cases below? a b <;> simp
  have habove : (above? a b).toList.length ≤ 1 := by
    cases above? a b <;> simp
  rw [difference, List.length_append]
  omega

/-- **What is right about a difference.** Reckoning with words finds all bounds of the parts. There
are at most two parts, with their bounds in order and inside the first interval; they ascend with a
value between them and hold the values of the first interval outside the second. Together with the
common values they hold each value of the first interval once and no other, and their sizes add up
to its size, which is at most `2 ^ 64`. -/
theorem difference_cuts (a b : Interval) :
    wordDifference a b = some ((difference a b).map bounds) ∧
    (difference a b).length ≤ 2 ∧
    (∀ part ∈ difference a b, part.low ≤ part.high ∧ a.covers part = true) ∧
    (difference a b).Pairwise Separated ∧
    (∀ value, (∃ part ∈ difference a b, value ∈ part) ↔ value ∈ a ∧ value ∉ b) ∧
    (∀ value, multiplicity (difference a b ++ (inter? a b).toList) value =
      if value ∈ a then 1 else 0) ∧
    totalSize (difference a b) + totalSize (inter? a b).toList = a.size ∧ a.size ≤ 2 ^ 64 := by
  refine ⟨wordDifference_eq a b, length_difference_le a b, ?_, separated_difference a b, ?_,
    multiplicity_parts a b, totalSize_parts a b, a.size_le⟩
  · intro part hpart
    exact ⟨part.low_le_high, covers_of_mem_difference hpart⟩
  · intro value
    exact mem_difference

/-- All values but the least and the greatest are taken out of the whole range. The part above them
holds the greatest value alone. -/
theorem difference_cuts_ends :
    let inner : Interval := ⟨1, 0xfffffffffffffffe, by decide, by decide⟩
    let greatest : Interval := single 0xffffffffffffffff
    greatest ∈ difference full inner ∧ full.covers greatest = true ∧
      wordDifference full inner =
        some [(0, 0), (0xffffffffffffffff, 0xffffffffffffffff)] ∧
      totalSize (difference full inner) + totalSize (inter? full inner).toList = 2 ^ 64 := by
  intro inner greatest
  obtain ⟨hword, -, hparts, -, -, -, hsizes, -⟩ := difference_cuts full inner
  have hmem : greatest ∈ difference full inner := by decide
  refine ⟨hmem, (hparts greatest hmem).2, ?_, hsizes⟩
  rw [hword]
  decide

end IntervalAutomata.Interval
