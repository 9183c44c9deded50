import IntervalAutomata.Proofs.Interval.Separated
import Mathlib.Algebra.BigOperators.Ring.Finset
import Mathlib.Order.Interval.Finset.Nat

/-!
# How many values a list of intervals holds

The sizes of the intervals of a list add up to the number of its values, where each value counts as
often as it is held (`totalSize_eq_sum`). So lists that hold every value equally often are equally
large (`totalSize_eq_of_multiplicity_eq`), however they are cut into intervals.
-/

namespace IntervalAutomata.Interval

variable {xs ys : List Interval} {limit : Nat}

/-- The sum of the sizes of all intervals of a list. -/
def totalSize (intervals : List Interval) : Nat :=
  (intervals.map size).sum

/-- An empty list has size zero. -/
@[simp] theorem totalSize_nil : totalSize [] = 0 := rfl

/-- An interval adds its size. -/
@[simp] theorem totalSize_cons (x : Interval) (xs : List Interval) :
    totalSize (x :: xs) = x.size + totalSize xs := by
  simp [totalSize]

/-- A single interval has its size. -/
theorem totalSize_singleton (i : Interval) : totalSize [i] = i.size := by
  simp

/-- The sizes of two lists add up. -/
theorem totalSize_append (xs ys : List Interval) :
    totalSize (xs ++ ys) = totalSize xs + totalSize ys := by
  simp [totalSize]

/-- No interval holds more than all 64-bit values. -/
theorem size_le (i : Interval) : i.size ≤ 2 ^ 64 := by
  have hlt := i.high_lt
  unfold UInt64.size at hlt
  unfold size
  omega

/-- The size of an interval is the number of its values. -/
theorem size_eq_sum {i : Interval} (h : i.high < limit) :
    i.size = ∑ value ∈ Finset.range limit, if value ∈ i then 1 else 0 := by
  have hvalues : (Finset.range limit).filter (· ∈ i) = Finset.Icc i.low i.high := by
    ext value
    rw [Finset.mem_filter, Finset.mem_range, Finset.mem_Icc, mem_iff]
    omega
  have hle := i.low_le_high
  rw [Finset.sum_boole, hvalues, Nat.card_Icc, size, Nat.cast_id]
  omega

/-- **Sizes add up to the number of values**, each counted as often as it is held. -/
theorem totalSize_eq_sum (h : ∀ i ∈ xs, i.high < limit) :
    totalSize xs = ∑ value ∈ Finset.range limit, multiplicity xs value := by
  induction xs with
  | nil => simp
  | cons x xs ih =>
      obtain ⟨hx, hxs⟩ := List.forall_mem_cons.mp h
      simp only [multiplicity_cons, Finset.sum_add_distrib]
      rw [totalSize_cons, size_eq_sum hx, ih hxs, Nat.add_comm]

/-- Lists that hold every value equally often are equally large. -/
theorem totalSize_eq_of_multiplicity_eq
    (h : ∀ value, multiplicity xs value = multiplicity ys value) :
    totalSize xs = totalSize ys := by
  have hbound : ∀ zs : List Interval, ∀ i ∈ zs, i.high < UInt64.size := by
    intro zs i _
    exact i.high_lt
  rw [totalSize_eq_sum (hbound xs), totalSize_eq_sum (hbound ys)]
  apply Finset.sum_congr rfl
  intro value _
  exact h value

end IntervalAutomata.Interval
