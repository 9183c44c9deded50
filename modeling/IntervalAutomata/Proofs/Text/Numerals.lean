import IntervalAutomata.ByteRange
import IntervalAutomata.Interval.Basic
import IntervalAutomata.Proofs.Text.Lines

/-!
# What written numbers can be read as

Every numeral of the library reads back as the number that it was written for
(`Numeral.extend?_toDigits`, `Numeral.extend?_byteHex`), so that different numbers are written
differently. That a row can be read also tells what it is made of: a character that counts for no
digit of the base does not occur in it (`Numeral.isSome_digit?_of_mem`), and therefore ends it
(`Numeral.toDigits_cons_inj`).

So the texts of byte ranges (`ByteRange.text_inj`) and of bounds (`Interval.boundsText_append_inj`)
determine what they were written for.
-/

namespace IntervalAutomata

namespace Numeral

variable {base value n : Nat} {cs : List Char} {c : Char}

/-! ## Reading what was written -/

/-- A digit is read as what it was written for. -/
theorem digit?_digitChar (hbase : base ≤ 16) (h : n < base) :
    digit? base (Nat.digitChar n) = some n := by
  have hweight : ∀ d < 16, weight? (Nat.digitChar d) = some d := by decide
  rw [digit?, hweight n (by omega), Option.filter_some, if_pos (decide_eq_true h)]

/-- The digits of a number are read as the number. -/
theorem extend?_toDigits (hbase : 1 < base) (hbase' : base ≤ 16) (n : Nat) :
    extend? base 0 (Nat.toDigits base n) = some n := by
  induction n using Nat.strongRecOn with
  | ind n ih =>
      rw [Nat.toDigits_eq_if hbase]
      split
      · rename_i hlt
        simp [extend?, digit?_digitChar hbase' hlt]
      · rename_i hge
        have hdigit : digit? base (Nat.digitChar (n % base)) = some (n % base) :=
          digit?_digitChar hbase' (Nat.mod_lt n (by omega))
        rw [extend?_append, ih (n / base) (Nat.div_lt_self (by omega) hbase)]
        simp [extend?, hdigit, Nat.div_add_mod]

/-- Whatever can be read is made of digits. -/
theorem isSome_digit?_of_mem (h : extend? base value cs = some n) (hc : c ∈ cs) :
    (digit? base c).isSome = true := by
  induction cs generalizing value with
  | nil => cases hc
  | cons first cs ih =>
      rw [extend?, Option.bind_eq_some_iff] at h
      obtain ⟨d, hd, hrest⟩ := h
      rcases List.mem_cons.mp hc with rfl | hc
      · rw [hd]
        rfl
      · exact ih hrest hc

/-- The digits of a number are digits of the base. -/
theorem isSome_digit?_of_mem_toDigits (hbase : 1 < base) (hbase' : base ≤ 16)
    (h : c ∈ Nat.toDigits base n) : (digit? base c).isSome = true :=
  isSome_digit?_of_mem (extend?_toDigits hbase hbase' n) h

/-- Digits determine the number, and are told from what follows if that begins with something
else. -/
theorem toDigits_cons_inj (hbase : 1 < base) (hbase' : base ≤ 16) {m n : Nat} {c c' : Char}
    {rest rest' : List Char} (hc : digit? base c = none) (hc' : digit? base c' = none)
    (h : Nat.toDigits base m ++ c :: rest = Nat.toDigits base n ++ c' :: rest') :
    m = n ∧ c :: rest = c' :: rest' := by
  obtain ⟨hdigits, hrests⟩ := Text.eq_of_append_eq (p := fun c => (digit? base c).isSome = true)
    (fun c => isSome_digit?_of_mem_toDigits hbase hbase')
    (fun c => isSome_digit?_of_mem_toDigits hbase hbase')
    (fun x hx => by obtain rfl := Option.some.inj hx; simp [hc])
    (fun x hx => by obtain rfl := Option.some.inj hx; simp [hc']) h
  refine ⟨?_, hrests⟩
  have hread := extend?_toDigits hbase hbase' m
  rw [hdigits, extend?_toDigits hbase hbase' n, Option.some.injEq] at hread
  exact hread.symm

/-! ## Bytes -/

/-- Zeros in front do not change what is read. -/
theorem extend?_padded (hbase : 0 < base) (count : Nat) (digits : List Char) :
    extend? base 0 (padded count digits) = extend? base 0 digits := by
  rw [padded]
  generalize count - digits.length = zeros
  induction zeros with
  | zero => rfl
  | succ zeros ih =>
      have hzero : digit? base '0' = some 0 := by
        have hweight : weight? '0' = some 0 := by decide
        rw [digit?, hweight, Option.filter_some, if_pos (decide_eq_true hbase)]
      rw [List.replicate_succ, List.cons_append, extend?, hzero, Option.bind_some]
      exact ih

/-- The two digits of a byte are read as the byte. -/
theorem extend?_byteHex (n : Nat) : extend? 16 0 (byteHex n).toList = some n := by
  rw [byteHex, String.toList_ofList, extend?_padded (by decide),
    extend?_toDigits (by decide) (by decide)]

/-- Different bytes are written differently. -/
theorem byteHex_inj {m n : Nat} (h : (byteHex m).toList = (byteHex n).toList) : m = n := by
  have hread := extend?_byteHex m
  rw [h, extend?_byteHex, Option.some.injEq] at hread
  exact hread.symm

/-- The two digits of a byte are hexadecimal. -/
theorem isSome_digit?_of_mem_byteHex (h : c ∈ (byteHex n).toList) :
    (digit? 16 c).isSome = true :=
  isSome_digit?_of_mem (extend?_byteHex n) h

end Numeral

/-! ## Byte ranges -/

namespace ByteRange

variable {a b : ByteRange} {c : Char}

/-- What the text of a range is made of. -/
def IsTextChar (c : Char) : Prop :=
  (Numeral.digit? 16 c).isSome = true ∨ c = '.'

/-- Whether a character occurs in ranges is decided by looking at it. -/
instance (c : Char) : Decidable (IsTextChar c) :=
  inferInstanceAs (Decidable (_ ∨ _))

/-- A range is given by its bounds. -/
theorem eq_of_bounds (hlow : a.low = b.low) (hhigh : a.high = b.high) : a = b := by
  cases a
  cases b
  cases hlow
  cases hhigh
  rfl

/-- The text of a range is its one byte, or two bytes with two points between them. -/
theorem toList_text (range : ByteRange) :
    range.text.toList = (Numeral.byteHex range.low).toList ++
      if range.isSingle then [] else '.' :: '.' :: (Numeral.byteHex range.high).toList := by
  rw [text]
  split
  · rw [List.append_nil]
  · rw [String.toList_append, String.toList_append, List.append_assoc]
    rfl

/-- The text of a range is not empty. -/
theorem toList_text_ne_nil (range : ByteRange) : range.text.toList ≠ [] := by
  rw [toList_text]
  apply List.append_ne_nil_of_left_ne_nil
  rw [Numeral.byteHex, String.toList_ofList, Numeral.padded]
  exact List.append_ne_nil_of_right_ne_nil _ Nat.toDigits_ne_nil

/-- The text of a range is made of the characters of ranges. -/
theorem isTextChar_of_mem_text (h : c ∈ a.text.toList) : IsTextChar c := by
  rw [toList_text, List.mem_append] at h
  rcases h with h | h
  · exact Or.inl (Numeral.isSome_digit?_of_mem_byteHex h)
  · split at h
    · cases h
    · rcases List.mem_cons.mp h with rfl | h
      · exact Or.inr rfl
      · rcases List.mem_cons.mp h with rfl | h
        · exact Or.inr rfl
        · exact Or.inl (Numeral.isSome_digit?_of_mem_byteHex h)

/-- Different ranges are written differently. -/
theorem text_inj (h : a.text.toList = b.text.toList) : a = b := by
  rw [toList_text, toList_text] at h
  have hdot : ∀ range : ByteRange, ∀ c ∈ (if range.isSingle then []
      else '.' :: '.' :: (Numeral.byteHex range.high).toList).head?,
        ¬(Numeral.digit? 16 c).isSome = true := by
    intro range c hc
    split at hc
    · cases hc
    · obtain rfl := Option.some.inj hc
      decide
  obtain ⟨hlows, hhighs⟩ := Text.eq_of_append_eq
    (fun c => Numeral.isSome_digit?_of_mem_byteHex) (fun c => Numeral.isSome_digit?_of_mem_byteHex)
    (hdot a) (hdot b) h
  have hlow : a.low = b.low := Numeral.byteHex_inj hlows
  refine eq_of_bounds hlow ?_
  by_cases ha : a.isSingle = true <;> by_cases hb : b.isSingle = true
  · have hsingle : a.low = a.high := eq_of_beq ha
    have hsingle' : b.low = b.high := eq_of_beq hb
    omega
  · simp [ha, hb] at hhighs
  · simp [ha, hb] at hhighs
  · rw [if_neg ha, if_neg hb] at hhighs
    obtain ⟨-, hhighs⟩ := List.cons_eq_cons.mp hhighs
    obtain ⟨-, hhighs⟩ := List.cons_eq_cons.mp hhighs
    exact Numeral.byteHex_inj hhighs

end ByteRange

/-! ## Bounds -/

namespace Interval

/-- The text of bounds is two numbers in brackets with a comma between them. -/
theorem toList_boundsText (low high : Nat) :
    (boundsText low high).toList = '[' :: '0' :: 'x' :: (Nat.toDigits 16 low ++
      ',' :: ' ' :: '0' :: 'x' :: (Nat.toDigits 16 high ++ [']'])) := by
  simp [boundsText, Numeral.hex]

/-- The text of bounds determines them, and is told from whatever follows. -/
theorem boundsText_append_inj {low high low' high' : Nat} {rest rest' : List Char}
    (h : (boundsText low high).toList ++ rest = (boundsText low' high').toList ++ rest') :
    low = low' ∧ high = high' ∧ rest = rest' := by
  rw [toList_boundsText, toList_boundsText] at h
  simp only [List.cons_append, List.append_assoc, List.nil_append, List.cons.injEq,
    true_and] at h
  obtain ⟨hlow, h⟩ := Numeral.toDigits_cons_inj (by decide) (by decide) (by decide) (by decide) h
  simp only [List.cons.injEq, true_and] at h
  obtain ⟨hhigh, h⟩ := Numeral.toDigits_cons_inj (by decide) (by decide) (by decide) (by decide) h
  exact ⟨hlow, hhigh, (List.cons_eq_cons.mp h).2⟩

end Interval

end IntervalAutomata
