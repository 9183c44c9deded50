import IntervalAutomata.Interval.Listing
import IntervalAutomata.Proofs.Interval.Reading

/-!
# Lists of intervals that are read back

A number in its wide form is a row of capital digits with zeros in front, and is read as itself
(`readNumber_wideHex`), up to the greatest of 64 bits. Its characters neither count as blank nor
separate bounds, so that an interval between two such numbers is read as itself too
(`Interval.ofText_rangeText`), and a list of them, one a line, is read line by line
(`ListFormat.render_hex_read_back`).
-/

namespace IntervalAutomata

/-! ## Wide numbers -/

namespace Numeral

variable {base n d : Nat} {c : Char} {cs : List Char}

/-- A digit and its capital count the same. -/
theorem IsDigit.toUpper (hbase : base ≤ 16) (h : IsDigit base c d) :
    IsDigit base c.toUpper d := by
  have htwice : ∀ d < 16, (Nat.digitChar d).toUpper.toUpper = (Nat.digitChar d).toUpper := by
    decide
  obtain ⟨hlt, rfl | rfl⟩ := h
  · exact ⟨hlt, Or.inr rfl⟩
  · exact ⟨hlt, Or.inr (htwice d (by omega))⟩

/-- A row of digits denotes the same number in capitals. -/
theorem Denotes.map_toUpper (hbase : base ≤ 16) (h : Denotes base cs n) :
    Denotes base (cs.map Char.toUpper) n := by
  obtain ⟨hne, values, hvalues, hn⟩ := h
  refine ⟨by simpa using hne, values, ?_, hn⟩
  rw [List.forall₂_map_left_iff]
  exact hvalues.imp fun _ _ hdigit => hdigit.toUpper hbase

/-- Zeros in front do not count. -/
theorem denotes_padded (hbase : 0 < base) (hbase' : base ≤ 16) (count : Nat)
    (h : Denotes base cs n) : Denotes base (padded count cs) n := by
  have hcs : cs ≠ [] := h.1
  have hne : padded count cs ≠ [] := List.append_ne_nil_of_right_ne_nil _ hcs
  rw [← valueOf?_eq_some_iff hbase', valueOf?, if_neg hcs] at h
  rw [← valueOf?_eq_some_iff hbase', valueOf?, if_neg hne, extend?_padded hbase, h]

/-- The digits of a number denote it. -/
theorem denotes_toDigits (hbase : 1 < base) (hbase' : base ≤ 16) (n : Nat) :
    Denotes base (Nat.toDigits base n) n := by
  rw [← valueOf?_eq_some_iff hbase', valueOf?, if_neg Nat.toDigits_ne_nil,
    extend?_toDigits hbase hbase']

/-- A wide number is the sign of its base and six capital digits or more. -/
theorem toList_wideHex (n : Nat) :
    (wideHex n).toList =
      ['0', 'x'] ++ padded 6 ((Nat.toDigits 16 n).map Char.toUpper) := by
  rw [wideHex, String.toList_append, String.toList_ofList, String.toList_ofList]

/-- The digits of a wide number denote it. -/
theorem denotes_wideHex (n : Nat) :
    Denotes 16 (padded 6 ((Nat.toDigits 16 n).map Char.toUpper)) n :=
  denotes_padded (by decide) (by decide) 6
    ((denotes_toDigits (by decide) (by decide) n).map_toUpper (by decide))

/-- A wide number is written as numbers are. -/
theorem isNumber_wideHex (n : Nat) : Reading.IsNumber (wideHex n).toList n :=
  ⟨['0', 'x'], [], _, toList_wideHex n, Or.inl rfl, Or.inr ⟨Or.inl rfl, denotes_wideHex n⟩⟩

/-- A digit is neither a blank nor an underscore. -/
theorem IsDigit.counts (h : IsDigit 16 c d) : Text.isBlank c = false ∧ c ≠ '_' := by
  have hall : ∀ d < 16, ∀ c, c = Nat.digitChar d ∨ c = (Nat.digitChar d).toUpper →
      Text.isBlank c = false ∧ c ≠ '_' := by
    simp only [forall_eq_or_imp, forall_eq]
    decide
  exact hall d h.1 c h.2

/-- All of a wide number counts. -/
theorem counts_of_mem_wideHex (h : c ∈ (wideHex n).toList) :
    Text.isBlank c = false ∧ c ≠ '_' := by
  rw [toList_wideHex, List.mem_append, List.mem_cons, List.mem_singleton] at h
  rcases h with (rfl | rfl) | h
  · decide
  · decide
  · obtain ⟨d, hd⟩ := (denotes_wideHex n).exists_isDigit h
    exact hd.counts

end Numeral

/-- **A wide number is read as itself.** -/
theorem readNumber_wideHex {n : Nat} (h : n < UInt64.size) :
    readNumber (Numeral.wideHex n) = .ok (UInt64.ofNat n) := by
  rw [readNumber_eq_ok_iff, UInt64.toNat_ofNat_of_lt' h,
    Reading.essential_of_forall fun c hc => Numeral.counts_of_mem_wideHex hc]
  exact Numeral.isNumber_wideHex n

/-! ## Ranges -/

namespace Interval

/-- The lower bound has 64 bits, too. -/
theorem low_lt (i : Interval) : i.low < UInt64.size :=
  Nat.lt_of_le_of_lt i.low_le_high i.high_lt

/-- The bounds of an interval as they are printed. -/
def rangeBounds (i : Interval) : BoundsText where
  low := Numeral.wideHex i.low
  separator := "..="
  high := Numeral.wideHex i.high

/-- The bounds as they are printed make the printed range. -/
theorem text_rangeBounds (i : Interval) : i.rangeBounds.text = i.rangeText := rfl

/-- The bounds of a printed range are read as those of the interval. -/
theorem reads_rangeBounds (i : Interval) :
    i.rangeBounds.Reads (UInt64.ofNat i.low) (UInt64.ofNat i.high) where
  separated := Or.inl rfl
  low_eq := readNumber_wideHex i.low_lt
  high_eq := readNumber_wideHex i.high_lt

/-- **A printed interval is read as itself.** -/
theorem ofText_rangeText (i : Interval) : ofText i.rangeText = .ok i := by
  rw [← text_rangeBounds, ofText_eq_ok_iff_of_isChosen i.reads_rangeBounds.isChosen]
  exact ⟨_, _, i.reads_rangeBounds, (UInt64.toNat_ofNat_of_lt' i.low_lt).symm,
    (UInt64.toNat_ofNat_of_lt' i.high_lt).symm⟩

/-- A printed range holds no line feed. -/
theorem feed_not_mem_rangeText (i : Interval) : '\n' ∉ i.rangeText.toList := by
  have hwide : ∀ n, '\n' ∉ (Numeral.wideHex n).toList := fun n hmem =>
    absurd (Numeral.counts_of_mem_wideHex hmem) (by decide)
  rw [rangeText, String.toList_append, String.toList_append]
  simp [hwide]

/-- A printed link holds no line feed. -/
theorem feed_not_mem_chainText (i : Interval) : '\n' ∉ i.chainText.toList := by
  rw [chainText, String.toList_append, String.toList_append]
  simp [i.feed_not_mem_rangeText]

end Interval

/-! ## Lists -/

/-- **What is printed is read back.** The plain form of a list of intervals is made of lines in one
way, one line for each interval, and these are read as the intervals in their order. The chained
form is made of the same lines, wrapped. -/
theorem ListFormat.render_hex_read_back [Json.Library] (intervals : List Interval) :
    ∃ lines,
      (∀ other, Text.IsLines (ListFormat.hex.render intervals) other ↔ other = lines) ∧
      lines.map Interval.ofText = intervals.map .ok ∧
      Text.IsLines (ListFormat.chain.render intervals)
        (lines.map fun line => ".chain((" ++ line ++ ").filter_map(from_u32))") := by
  have hlines : Text.IsLines (ListFormat.hex.render intervals)
      (intervals.map Interval.rangeText) :=
    ⟨rfl, List.forall_mem_map.mpr fun i _ => i.feed_not_mem_rangeText⟩
  have hchain : Text.IsLines (ListFormat.chain.render intervals)
      (intervals.map Interval.chainText) :=
    ⟨rfl, List.forall_mem_map.mpr fun i _ => i.feed_not_mem_chainText⟩
  refine ⟨intervals.map Interval.rangeText, ?_, ?_, ?_⟩
  · intro other
    constructor
    · exact fun hother => hother.unique hlines
    · rintro rfl
      exact hlines
  · rw [List.map_map]
    apply List.map_congr_left
    intro i _
    rw [Function.comp_apply, i.ofText_rangeText]
  · rw [List.map_map]
    exact hchain

/-- The greatest interval has the widest line. -/
example [Json.Library] : ListFormat.hex.render [⟨0x20, 0xD7FF, by decide, by decide⟩,
    ⟨0, 0xFFFFFFFFFFFFFFFF, by decide, by decide⟩] =
      "0x000020..=0x00D7FF\n0x000000..=0xFFFFFFFFFFFFFFFF\n" := rfl

end IntervalAutomata
