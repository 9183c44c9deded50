import IntervalAutomata.Interval.Basic

/-!
# Differences of intervals

What remains of an interval when the values of another are taken out: a part below it and a part
above it (`Interval.difference`), and what remains of a whole list when several intervals are taken
out one after the other (`Interval.subtractAll`).

The main statement is `mem_difference`: the remaining parts hold exactly the values of the first
interval that are not in the second.
-/

namespace IntervalAutomata.Interval

/-- The values of `a` that lie below all of `b`. -/
def below? (a b : Interval) : Option Interval :=
  if h : a.low < b.low then
    some { low := a.low, high := min a.high (b.low - 1),
           low_le_high := by have := a.low_le_high; omega,
           high_lt := by have := a.high_lt; omega }
  else
    none

/-- The values of `a` that lie above all of `b`. -/
def above? (a b : Interval) : Option Interval :=
  if h : b.high < a.high then
    some { low := max a.low (b.high + 1), high := a.high,
           low_le_high := by have := a.low_le_high; omega,
           high_lt := a.high_lt }
  else
    none

/-- The values of `a` that are not in `b`, as at most two intervals in ascending order. -/
def difference (a b : Interval) : List Interval :=
  (below? a b).toList ++ (above? a b).toList

/-- What remains of a list of intervals when the values of every exclusion are taken out. Each
exclusion in turn replaces every interval by its parts, so the order of the list survives. -/
def subtractAll (base exclusions : List Interval) : List Interval :=
  exclusions.foldl (fun working exclusion => working.flatMap (·.difference exclusion)) base

/-! ## What remains -/

/-- The part below has the values of the first interval that lie below the second. -/
theorem mem_below? {a b part : Interval} (h : part ∈ below? a b) (value : Nat) :
    value ∈ part ↔ value ∈ a ∧ value < b.low := by
  simp only [below?, Option.mem_def] at h
  split at h
  · cases h
    simp only [mem_iff]
    omega
  · cases h

/-- The part above has the values of the first interval that lie above the second. -/
theorem mem_above? {a b part : Interval} (h : part ∈ above? a b) (value : Nat) :
    value ∈ part ↔ value ∈ a ∧ b.high < value := by
  simp only [above?, Option.mem_def] at h
  split at h
  · cases h
    simp only [mem_iff]
    omega
  · cases h

/-- The parts of a difference hold the values of the first interval outside the second. -/
theorem mem_difference {a b : Interval} {value : Nat} :
    (∃ part ∈ difference a b, value ∈ part) ↔ value ∈ a ∧ value ∉ b := by
  have ha := a.low_le_high
  have hb := b.low_le_high
  constructor
  · rintro ⟨part, hpart, hv⟩
    rcases List.mem_append.mp hpart with hp | hp
    · have := (mem_below? (Option.mem_toList.mp hp) value).mp hv
      simp only [mem_iff] at this ⊢
      omega
    · have := (mem_above? (Option.mem_toList.mp hp) value).mp hv
      simp only [mem_iff] at this ⊢
      omega
  · rintro ⟨hva, hvb⟩
    simp only [mem_iff] at hva hvb
    by_cases hlow : value < b.low
    · have hlt : a.low < b.low := by omega
      refine ⟨_, List.mem_append_left _ (Option.mem_toList.mpr (dif_pos hlt)), ?_⟩
      simp only [mem_iff]
      omega
    · have hlt : b.high < a.high := by omega
      refine ⟨_, List.mem_append_right _ (Option.mem_toList.mpr (dif_pos hlt)), ?_⟩
      simp only [mem_iff]
      omega

/-! ## Lists -/

/-- Without exclusions every interval stays. -/
@[simp] theorem subtractAll_nil (base : List Interval) : subtractAll base [] = base := rfl

/-- The first exclusion is taken from every interval, and the others from what is left. -/
theorem subtractAll_cons (base : List Interval) (exclusion : Interval)
    (exclusions : List Interval) :
    subtractAll base (exclusion :: exclusions) =
      subtractAll (base.flatMap (·.difference exclusion)) exclusions := rfl

end IntervalAutomata.Interval
