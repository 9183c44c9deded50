import IntervalAutomata.Interval.Difference
import IntervalAutomata.Proofs.Interval.Separated

/-!
# What remains when exclusions are taken out

Exclusions are taken out of a list one after the other, and each may split every interval that the
earlier ones have left. Here it is shown what is left in the end.

* **One exclusion** leaves parts of each interval (`covers_of_mem_difference`) that are separated by
  values of the exclusion (`separated_difference`). So a relation of the intervals of a list that
  passes to their parts and holds of separated ones (`Divisible`) is kept by one exclusion
  (`Divisible.pairwise_flatMap`), and therefore by all of them (`Divisible.pairwise_subtractAll`).
* **What is covered** afterwards was covered before and is not excluded (`covered_subtractAll`).
* **Each interval has its own block** (`subtractAll_eq_flatMap`): separated parts of the interval
  with its values outside the exclusions (`Remains`). The first main statement
  (`subtractAll_blocks`) says this of the whole list, with what follows for the number of intervals
  at a value and for disjoint and sorted lists.
* **A block is determined by these properties** (`Remains.eq`), in which the exclusions appear only
  through the values they cover. So lists of exclusions leave the same of every list iff they cover
  the same values, which is the second main statement (`subtractAll_eq_iff_covered`).
-/

namespace IntervalAutomata.Interval

variable {a b whole exclusion part : Interval} {value : Nat} {R : Interval → Interval → Prop}
  {base exclusions exclusions' block block' : List Interval}

/-! ## One exclusion -/

/-- The parts of a difference are parts of its first interval. -/
theorem covers_of_mem_difference (h : part ∈ difference a b) : a.covers part = true := by
  rw [covers_iff]
  rcases List.mem_append.mp h with h | h
  · rw [Option.mem_toList, below?] at h
    split at h
    · cases h
      dsimp only
      omega
    · cases h
  · rw [Option.mem_toList, above?] at h
    split at h
    · cases h
      dsimp only
      omega
    · cases h

/-- The parts of a difference have the second interval between them. -/
theorem separated_difference (a b : Interval) : (difference a b).Pairwise Separated := by
  have hb := b.low_le_high
  unfold difference below? above?
  split
  · split
    · simp only [Option.toList_some, List.singleton_append, List.pairwise_pair, Separated]
      omega
    · exact List.pairwise_singleton _ _
  · split
    · exact List.pairwise_singleton _ _
    · exact List.Pairwise.nil

/-- A relation between intervals that holds of all that are separated and passes to the parts. -/
structure Divisible (R : Interval → Interval → Prop) : Prop where
  /-- Separated intervals are related. -/
  separated : ∀ {a b}, a.Separated b → R a b
  /-- Parts of related intervals are related. -/
  parts : ∀ {a b a' b'}, R a b → a.covers a' = true → b.covers b' = true → R a' b'

/-- Separation passes to parts. -/
theorem divisible_separated : Divisible Separated where
  separated := id
  parts := by
    intro a b a' b' h ha hb
    rw [covers_iff] at ha hb
    unfold Separated at h ⊢
    omega

/-- Order passes to parts. -/
theorem divisible_before : Divisible Before where
  separated := Separated.before
  parts := by
    intro a b a' b' h ha hb
    rw [covers_iff] at ha hb
    unfold Before at h ⊢
    omega

/-- Disjointness passes to parts. -/
theorem divisible_apart : Divisible Apart where
  separated := fun h => h.before.apart
  parts := by
    intro a b a' b' h ha hb
    rw [covers_iff] at ha hb
    rw [apart_iff] at h ⊢
    unfold Before at h ⊢
    omega

/-- One exclusion keeps what is divisible. -/
theorem Divisible.pairwise_flatMap (hR : Divisible R) (h : base.Pairwise R) :
    (base.flatMap (·.difference exclusion)).Pairwise R := by
  apply List.pairwise_flatMap.mpr
  constructor
  · intro whole _
    exact (separated_difference whole exclusion).imp hR.separated
  · apply h.imp
    intro a b hab part hpart part' hpart'
    exact hR.parts hab (covers_of_mem_difference hpart) (covers_of_mem_difference hpart')

/-- What one exclusion leaves covered. -/
theorem covered_flatMap_difference :
    Covered (base.flatMap (·.difference exclusion)) value ↔
      Covered base value ∧ value ∉ exclusion := by
  rw [covered_flatMap]
  constructor
  · rintro ⟨whole, hwhole, hcovered⟩
    obtain ⟨hmem, hout⟩ := mem_difference.mp hcovered
    exact ⟨⟨whole, hwhole, hmem⟩, hout⟩
  · rintro ⟨⟨whole, hwhole, hmem⟩, hout⟩
    exact ⟨whole, hwhole, mem_difference.mpr ⟨hmem, hout⟩⟩

/-! ## All exclusions -/

/-- Taking out exclusions keeps what is divisible. -/
theorem Divisible.pairwise_subtractAll (hR : Divisible R) (h : base.Pairwise R) :
    (subtractAll base exclusions).Pairwise R := by
  induction exclusions generalizing base with
  | nil => exact h
  | cons exclusion exclusions ih =>
      rw [subtractAll_cons]
      exact ih (hR.pairwise_flatMap h)

/-- What is covered afterwards was covered before and is not excluded. -/
theorem covered_subtractAll :
    Covered (subtractAll base exclusions) value ↔
      Covered base value ∧ ¬ Covered exclusions value := by
  induction exclusions generalizing base with
  | nil => simp
  | cons exclusion exclusions ih =>
      rw [subtractAll_cons, ih, covered_flatMap_difference, covered_cons, not_or, and_assoc]

/-- What remains are parts of what was there. -/
theorem exists_covers_of_mem_subtractAll (h : part ∈ subtractAll base exclusions) :
    ∃ whole ∈ base, whole.covers part = true := by
  induction exclusions generalizing base with
  | nil => exact ⟨part, h, covers_iff.mpr ⟨Nat.le_refl _, Nat.le_refl _⟩⟩
  | cons exclusion exclusions ih =>
      rw [subtractAll_cons] at h
      obtain ⟨middle, hmiddle, hpart⟩ := ih h
      obtain ⟨whole, hwhole, hmem⟩ := List.mem_flatMap.mp hmiddle
      have hcovers := covers_iff.mp (covers_of_mem_difference hmem)
      rw [covers_iff] at hpart
      refine ⟨whole, hwhole, covers_iff.mpr ?_⟩
      omega

/-! ## Blocks -/

/-- What remains of a single interval. -/
def remainder (exclusions : List Interval) (whole : Interval) : List Interval :=
  subtractAll [whole] exclusions

/-- Nothing that happens to one part of a list matters to another. -/
theorem subtractAll_append (xs ys exclusions : List Interval) :
    subtractAll (xs ++ ys) exclusions = subtractAll xs exclusions ++ subtractAll ys exclusions := by
  induction exclusions generalizing xs ys with
  | nil => rfl
  | cons exclusion exclusions ih =>
      rw [subtractAll_cons, subtractAll_cons, subtractAll_cons, List.flatMap_append, ih]

/-- Nothing remains of nothing. -/
theorem subtractAll_nil_left (exclusions : List Interval) : subtractAll [] exclusions = [] := by
  induction exclusions with
  | nil => rfl
  | cons exclusion exclusions ih =>
      rw [subtractAll_cons, List.flatMap_nil, ih]

/-- The remainder of the first interval comes before what remains of the others. -/
theorem subtractAll_cons_left (whole : Interval) (base exclusions : List Interval) :
    subtractAll (whole :: base) exclusions =
      remainder exclusions whole ++ subtractAll base exclusions :=
  subtractAll_append [whole] base exclusions

/-- **Each interval has its own block**, and the blocks follow each other in the order of the
intervals. -/
theorem subtractAll_eq_flatMap (base exclusions : List Interval) :
    subtractAll base exclusions = base.flatMap (remainder exclusions) := by
  induction base with
  | nil => rw [subtractAll_nil_left, List.flatMap_nil]
  | cons whole base ih => rw [subtractAll_cons_left, ih, List.flatMap_cons]

/-- What is right about the block of an interval. -/
structure Remains (whole : Interval) (exclusions block : List Interval) : Prop where
  /-- Each part is not empty and lies inside the interval. -/
  inside : ∀ part ∈ block, part.low ≤ part.high ∧ whole.covers part = true
  /-- The parts ascend, with a value between any two of them. -/
  separated : block.Pairwise Separated
  /-- The parts cover the values of the interval that are not excluded. -/
  covered_iff : ∀ value, Covered block value ↔ value ∈ whole ∧ ¬ Covered exclusions value

/-- The block of an interval is right. -/
theorem remains_remainder (whole : Interval) (exclusions : List Interval) :
    Remains whole exclusions (remainder exclusions whole) where
  inside := by
    intro part hpart
    obtain ⟨_, hmem, hcovers⟩ := exists_covers_of_mem_subtractAll hpart
    obtain rfl := List.mem_singleton.mp hmem
    exact ⟨part.low_le_high, hcovers⟩
  separated := divisible_separated.pairwise_subtractAll (List.pairwise_singleton _ _)
  covered_iff := by
    intro value
    rw [remainder, covered_subtractAll]
    simp

namespace Remains

/-- The parts of a block ascend and share no value. -/
theorem ascending (h : Remains whole exclusions block) : block.Pairwise Before :=
  h.separated.imp Separated.before

/-- A block has a value once if it belongs to the interval and is not excluded. -/
theorem multiplicity_eq (h : Remains whole exclusions block) (value : Nat) :
    multiplicity block value = if value ∈ whole ∧ ¬ Covered exclusions value then 1 else 0 := by
  rw [Interval.multiplicity_eq (h.ascending.imp Before.apart)]
  simp only [h.covered_iff value]

/-- **A block is determined by its interval and the values that are excluded.** -/
theorem eq (h : Remains whole exclusions block) (h' : Remains whole exclusions' block')
    (hsame : ∀ value, Covered exclusions value ↔ Covered exclusions' value) : block = block' := by
  apply eq_of_covered_iff h.separated h'.separated
  intro value
  rw [h.covered_iff, h'.covered_iff, hsame value]

end Remains

/-! ## The whole list -/

/-- A value that is excluded is gone, and any other is held by as many intervals as before. -/
theorem multiplicity_subtractAll (base exclusions : List Interval) (value : Nat) :
    multiplicity (subtractAll base exclusions) value =
      if Covered exclusions value then 0 else multiplicity base value := by
  induction base with
  | nil => simp [subtractAll_nil_left]
  | cons whole base ih =>
      rw [subtractAll_cons_left, multiplicity_append, multiplicity_cons, ih,
        (remains_remainder whole exclusions).multiplicity_eq]
      by_cases hcovered : Covered exclusions value
      · simp [hcovered]
      · simp [hcovered, Nat.add_comm]

/-- **What remains of a list.** It is made of one block for each interval, in order: separated parts
of the interval that cover its values outside the exclusions. So an excluded value is held by no
interval and any other by as many as before, and a list that is disjoint, or sorted and disjoint,
stays so. -/
theorem subtractAll_blocks (base exclusions : List Interval) :
    (∃ block : Interval → List Interval, subtractAll base exclusions = base.flatMap block ∧
      ∀ whole, Remains whole exclusions (block whole) ∧ (block whole).Pairwise Before) ∧
    (∀ value, multiplicity (subtractAll base exclusions) value =
      if Covered exclusions value then 0 else multiplicity base value) ∧
    (base.Pairwise Apart → (subtractAll base exclusions).Pairwise Apart) ∧
    ((base.Pairwise Apart ∧ base.Pairwise fun a b => (compare a b).isLE = true) →
      (subtractAll base exclusions).Pairwise Apart ∧
        (subtractAll base exclusions).Pairwise fun a b => (compare a b).isLE = true) := by
  refine ⟨⟨remainder exclusions, subtractAll_eq_flatMap base exclusions, ?_⟩, ?_, ?_, ?_⟩
  · intro whole
    have h := remains_remainder whole exclusions
    exact ⟨h, h.ascending⟩
  · exact multiplicity_subtractAll base exclusions
  · intro h
    exact divisible_apart.pairwise_subtractAll h
  · rw [← pairwise_before_iff, ← pairwise_before_iff]
    intro h
    exact divisible_before.pairwise_subtractAll h

/-- Two sorted and disjoint intervals up to the greatest value, with exclusions that overlap, occur
twice and touch both ends. -/
theorem subtractAll_blocks_ends :
    let base : List Interval := [⟨0, 0xff, by decide, by decide⟩,
      ⟨0x200, 0xffffffffffffffff, by decide, by decide⟩]
    let exclusions : List Interval := [⟨0x10, 0x1f, by decide, by decide⟩,
      ⟨0x18, 0x2f, by decide, by decide⟩, ⟨0, 0, by decide, by decide⟩,
      ⟨0x10, 0x1f, by decide, by decide⟩,
      ⟨0xffffffffffffffff, 0xffffffffffffffff, by decide, by decide⟩]
    (base.Pairwise Apart ∧ base.Pairwise fun a b => (compare a b).isLE = true) ∧
      (multiplicity (subtractAll base exclusions) 0x18 = 0 ∧
        multiplicity (subtractAll base exclusions) 0x300 = 1) ∧
      (subtractAll base exclusions).Pairwise Apart ∧
      (subtractAll base exclusions).Pairwise fun a b => (compare a b).isLE = true := by
  intro base exclusions
  have hbase : base.Pairwise Apart ∧ base.Pairwise fun a b => (compare a b).isLE = true := by
    decide
  obtain ⟨-, hcount, -, hsorted⟩ := subtractAll_blocks base exclusions
  refine ⟨hbase, ⟨?_, ?_⟩, hsorted hbase⟩
  · rw [hcount]
    decide
  · rw [hcount]
    decide

/-! ## What the exclusions matter -/

/-- Exclusions that cover the same values leave the same. -/
theorem subtractAll_congr (h : ∀ value, Covered exclusions value ↔ Covered exclusions' value)
    (base : List Interval) : subtractAll base exclusions = subtractAll base exclusions' := by
  have hblock : remainder exclusions = remainder exclusions' := by
    funext whole
    exact (remains_remainder whole exclusions).eq (remains_remainder whole exclusions') h
  rw [subtractAll_eq_flatMap, subtractAll_eq_flatMap, hblock]

/-- What the later exclusions are taken out of is what the earlier ones leave. -/
theorem subtractAll_append_right (base exclusions exclusions' : List Interval) :
    subtractAll base (exclusions ++ exclusions') =
      subtractAll (subtractAll base exclusions) exclusions' :=
  List.foldl_append

/-- All 64-bit values. -/
def full : Interval where
  low := 0
  high := 0xffffffffffffffff
  low_le_high := Nat.zero_le _
  high_lt := by decide

/-- What is covered is what is missing from all values once it has been taken out. -/
theorem covered_iff_not_covered_full (value : UInt64) :
    Covered exclusions value.toNat ↔ ¬ Covered (subtractAll [full] exclusions) value.toNat := by
  have hfull : Covered [full] value.toNat := by
    refine ⟨full, List.mem_singleton_self full, Nat.zero_le _, ?_⟩
    have hlt := value.toNat_lt_size
    exact Nat.le_of_lt_succ hlt
  rw [covered_subtractAll, not_and, not_not]
  constructor
  · intro h _
    exact h
  · intro h
    exact h hfull

/-- **Exclusions matter by the values they cover alone.** Two lists of exclusions leave the same of
every list iff they cover the same values. In particular what remains is not changed by taking out
the same exclusions again. -/
theorem subtractAll_eq_iff_covered (exclusions exclusions' : List Interval) :
    ((∀ base, subtractAll base exclusions = subtractAll base exclusions') ↔
      ∀ value : UInt64, Covered exclusions value.toNat ↔ Covered exclusions' value.toNat) ∧
    ∀ base, subtractAll (subtractAll base exclusions) exclusions =
      subtractAll base exclusions := by
  refine ⟨⟨?_, ?_⟩, ?_⟩
  · intro h value
    calc Covered exclusions value.toNat
        ↔ ¬ Covered (subtractAll [full] exclusions) value.toNat :=
          covered_iff_not_covered_full value
      _ ↔ ¬ Covered (subtractAll [full] exclusions') value.toNat := by rw [h]
      _ ↔ Covered exclusions' value.toNat := (covered_iff_not_covered_full value).symm
  · intro h
    apply subtractAll_congr
    intro value
    by_cases hlt : value < UInt64.size
    · have hvalue := h (UInt64.ofNat value)
      rwa [UInt64.toNat_ofNat_of_lt' hlt] at hvalue
    · constructor
      · intro hcovered
        exact absurd hcovered.lt_size hlt
      · intro hcovered
        exact absurd hcovered.lt_size hlt
  · intro base
    rw [← subtractAll_append_right]
    apply subtractAll_congr
    intro value
    rw [covered_append, or_self]

end IntervalAutomata.Interval
