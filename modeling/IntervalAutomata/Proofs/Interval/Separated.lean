import IntervalAutomata.Interval.Basic
import Mathlib.Data.List.Basic

/-!
# Lists of intervals and the values they cover

A list of intervals covers the values that lie in one of them (`Interval.Covered`), each as often
as there are intervals with it (`Interval.multiplicity`). What matters of two intervals of a list is
how they lie to each other: they may share no value (`Apart`), lie one below the other (`Before`),
or lie so with a value between them (`Separated`).

* **Disjoint lists** cover no value twice (`multiplicity_eq`), and a list is sorted and disjoint iff
  each interval lies before all later ones (`pairwise_before_iff`).
* **Separated lists are determined by their values** (`eq_of_covered_iff`): the intervals are the
  longest runs of covered values. The proof reads off the first interval, whose lower bound is the
  least covered value (`low_le_of_covered`) and after whose upper bound one value is missing
  (`not_covered_succ_high`).
-/

namespace IntervalAutomata.Interval

variable {a b x y : Interval} {xs ys : List Interval} {value : Nat}

/-! ## Covered values -/

/-- A value lies in some interval of a list. -/
def Covered (intervals : List Interval) (value : Nat) : Prop :=
  ∃ i ∈ intervals, value ∈ i

/-- Whether a value is covered is decided interval by interval. -/
instance (intervals : List Interval) (value : Nat) : Decidable (Covered intervals value) :=
  inferInstanceAs (Decidable (∃ i ∈ intervals, value ∈ i))

/-- The number of intervals in a list that hold a value. -/
def multiplicity (intervals : List Interval) (value : Nat) : Nat :=
  intervals.countP fun i => decide (value ∈ i)

/-- An empty list covers no value. -/
@[simp] theorem not_covered_nil (value : Nat) : ¬ Covered [] value := by
  simp [Covered]

/-- A value is covered by the first interval or by the others. -/
@[simp] theorem covered_cons : Covered (x :: xs) value ↔ value ∈ x ∨ Covered xs value := by
  simp [Covered]

/-- A value is covered by one list or by the other. -/
@[simp] theorem covered_append :
    Covered (xs ++ ys) value ↔ Covered xs value ∨ Covered ys value := by
  simp [Covered, or_and_right, exists_or]

/-- A value is covered by lists in a row if one of them covers it. -/
theorem covered_flatMap {f : Interval → List Interval} :
    Covered (xs.flatMap f) value ↔ ∃ i ∈ xs, Covered (f i) value := by
  induction xs with
  | nil => simp
  | cons x xs ih => simp [ih]

/-- No list covers more than the 64-bit values. -/
theorem Covered.lt_size (h : Covered xs value) : value < UInt64.size := by
  obtain ⟨i, -, hvalue⟩ := h
  exact Nat.lt_of_le_of_lt hvalue.2 i.high_lt

/-- An empty list has no value at all. -/
@[simp] theorem multiplicity_nil (value : Nat) : multiplicity [] value = 0 := rfl

/-- An interval counts each of its values once more. -/
theorem multiplicity_cons (x : Interval) (xs : List Interval) (value : Nat) :
    multiplicity (x :: xs) value = multiplicity xs value + if value ∈ x then 1 else 0 := by
  simp [multiplicity, List.countP_cons]

/-- Two lists in a row have a value as often as both of them together. -/
theorem multiplicity_append (xs ys : List Interval) (value : Nat) :
    multiplicity (xs ++ ys) value = multiplicity xs value + multiplicity ys value :=
  List.countP_append

/-! ## Two intervals -/

/-- An interval covers another if its bounds enclose the other's. -/
theorem covers_iff : a.covers b = true ↔ a.low ≤ b.low ∧ b.high ≤ a.high := by
  simp [covers]

/-- No value lies in both intervals. -/
def Apart (a b : Interval) : Prop :=
  ∀ value, value ∈ a → value ∉ b

/-- The first interval lies wholly below the second. -/
def Before (a b : Interval) : Prop :=
  a.high < b.low

/-- The first interval lies below the second, and some value lies between them. -/
def Separated (a b : Interval) : Prop :=
  a.high + 1 < b.low

/-- Intervals are not empty, so that they share no value only if one lies below the other. -/
theorem apart_iff : a.Apart b ↔ a.Before b ∨ b.Before a := by
  have ha := a.low_le_high
  have hb := b.low_le_high
  unfold Apart Before
  constructor
  · intro h
    have hlow := h (max a.low b.low)
    simp only [mem_iff] at hlow
    omega
  · intro h value hva hvb
    rw [mem_iff] at hva hvb
    omega

/-- Whether an interval lies before another is decided by their bounds. -/
instance (a b : Interval) : Decidable (a.Before b) :=
  inferInstanceAs (Decidable (a.high < b.low))

/-- Whether intervals are separated is decided by their bounds. -/
instance (a b : Interval) : Decidable (a.Separated b) :=
  inferInstanceAs (Decidable (a.high + 1 < b.low))

/-- Whether intervals are apart is decided by their bounds. -/
instance (a b : Interval) : Decidable (a.Apart b) :=
  decidable_of_iff (a.Before b ∨ b.Before a) apart_iff.symm

/-- An interval before another is apart from it. -/
theorem Before.apart (h : a.Before b) : a.Apart b :=
  apart_iff.mpr (Or.inl h)

/-- Of two separated intervals the first lies before the second. -/
theorem Separated.before (h : a.Separated b) : a.Before b := by
  unfold Separated at h
  unfold Before
  omega

/-- Of two intervals that share no value the one that is sorted first lies below the other. -/
theorem before_iff : a.Before b ↔ a.Apart b ∧ (compare a b).isLE = true := by
  have ha := a.low_le_high
  have hb := b.low_le_high
  have hle : (compare a b).isLE = true ↔ a.low < b.low ∨ a.low = b.low ∧ a.high ≤ b.high := by
    change ((compare a.low b.low).then (compare a.high b.high)).isLE = true ↔ _
    rw [Ordering.isLE_then_iff_or, Nat.isLE_compare, Nat.compare_eq_lt, Nat.compare_eq_eq]
  rw [hle, apart_iff]
  unfold Before
  omega

/-! ## Disjoint lists -/

/-- A disjoint list covers no value twice. -/
theorem multiplicity_eq (h : xs.Pairwise Apart) (value : Nat) :
    multiplicity xs value = if Covered xs value then 1 else 0 := by
  induction xs with
  | nil => simp
  | cons x xs ih =>
      obtain ⟨hx, hxs⟩ := List.pairwise_cons.mp h
      rw [multiplicity_cons, ih hxs]
      by_cases hvalue : value ∈ x
      · have hrest : ¬ Covered xs value := by
          rintro ⟨i, hi, hmem⟩
          exact hx i hi value hvalue hmem
        simp [hvalue, hrest]
      · simp [hvalue]

/-- A list is sorted and disjoint iff each interval lies before all later ones. -/
theorem pairwise_before_iff :
    xs.Pairwise Before ↔
      xs.Pairwise Apart ∧ xs.Pairwise fun a b => (compare a b).isLE = true := by
  rw [← List.pairwise_and_iff]
  constructor
  · intro h
    exact h.imp before_iff.mp
  · intro h
    exact h.imp before_iff.mpr

/-! ## Separated lists -/

/-- The first interval begins at the least covered value. -/
theorem low_le_of_covered (h : (x :: xs).Pairwise Separated)
    (hvalue : Covered (x :: xs) value) : x.low ≤ value := by
  have hle := x.low_le_high
  rcases covered_cons.mp hvalue with hvalue | ⟨i, hi, hvalue⟩
  · exact hvalue.1
  · have hsep : x.high + 1 < i.low := (List.pairwise_cons.mp h).1 i hi
    rw [mem_iff] at hvalue
    omega

/-- The value after the first interval is missing. -/
theorem not_covered_succ_high (h : (x :: xs).Pairwise Separated) :
    ¬ Covered (x :: xs) (x.high + 1) := by
  intro hvalue
  rcases covered_cons.mp hvalue with hvalue | ⟨i, hi, hvalue⟩
  · rw [mem_iff] at hvalue
    omega
  · have hsep : x.high + 1 < i.low := (List.pairwise_cons.mp h).1 i hi
    rw [mem_iff] at hvalue
    omega

/-- The later intervals cover what lies above the first. -/
theorem covered_tail_iff (h : (x :: xs).Pairwise Separated) :
    Covered xs value ↔ Covered (x :: xs) value ∧ x.high < value := by
  constructor
  · rintro ⟨i, hi, hvalue⟩
    have hsep : x.high + 1 < i.low := (List.pairwise_cons.mp h).1 i hi
    refine ⟨covered_cons.mpr (Or.inr ⟨i, hi, hvalue⟩), ?_⟩
    rw [mem_iff] at hvalue
    omega
  · rintro ⟨hvalue, hlt⟩
    rcases covered_cons.mp hvalue with hvalue | hvalue
    · rw [mem_iff] at hvalue
      omega
    · exact hvalue

/-- If all that one list covers is covered by another, then a first interval of the one that begins
where the first interval of the other does ends no later. -/
theorem high_le_high (hy : (y :: ys).Pairwise Separated) (hlow : x.low = y.low)
    (himp : ∀ value, Covered (x :: xs) value → Covered (y :: ys) value) : x.high ≤ y.high := by
  apply Nat.le_of_not_lt
  intro hlt
  have hle := y.low_le_high
  have hnext : y.high + 1 ∈ x := by
    rw [mem_iff]
    omega
  exact not_covered_succ_high hy (himp _ (covered_cons.mpr (Or.inl hnext)))

/-- Lists that cover the same begin with the same interval. -/
theorem head_eq (hx : (x :: xs).Pairwise Separated) (hy : (y :: ys).Pairwise Separated)
    (h : ∀ value, Covered (x :: xs) value ↔ Covered (y :: ys) value) : x = y := by
  have hxlow : Covered (x :: xs) x.low :=
    covered_cons.mpr (Or.inl ⟨Nat.le_refl _, x.low_le_high⟩)
  have hylow : Covered (y :: ys) y.low :=
    covered_cons.mpr (Or.inl ⟨Nat.le_refl _, y.low_le_high⟩)
  have hlow : x.low = y.low :=
    Nat.le_antisymm (low_le_of_covered hx ((h _).mpr hylow)) (low_le_of_covered hy ((h _).mp hxlow))
  have hhigh : x.high = y.high :=
    Nat.le_antisymm (high_le_high hy hlow fun value => (h value).mp)
      (high_le_high hx hlow.symm fun value => (h value).mpr)
  exact Interval.ext hlow hhigh

/-- No list of intervals but the empty one covers nothing. -/
theorem eq_nil_of_not_covered (h : ∀ value, ¬ Covered xs value) : xs = [] := by
  cases xs with
  | nil => rfl
  | cons x xs => exact absurd (covered_cons.mpr (Or.inl ⟨Nat.le_refl _, x.low_le_high⟩)) (h x.low)

/-- **Separated lists are determined by the values they cover.** -/
theorem eq_of_covered_iff (hx : xs.Pairwise Separated) (hy : ys.Pairwise Separated)
    (h : ∀ value, Covered xs value ↔ Covered ys value) : xs = ys := by
  induction xs generalizing ys with
  | nil =>
      symm
      apply eq_nil_of_not_covered
      intro value
      rw [← h value]
      exact not_covered_nil value
  | cons x xs ih =>
      cases ys with
      | nil =>
          apply eq_nil_of_not_covered
          intro value
          rw [h value]
          exact not_covered_nil value
      | cons y ys =>
          obtain rfl := head_eq hx hy h
          have htail : ∀ value, Covered xs value ↔ Covered ys value := by
            intro value
            rw [covered_tail_iff hx, covered_tail_iff hy, h value]
          rw [ih (List.pairwise_cons.mp hx).2 (List.pairwise_cons.mp hy).2 htail]

end IntervalAutomata.Interval
