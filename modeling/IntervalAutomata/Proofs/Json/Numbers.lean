import IntervalAutomata.Json.StandIn.Number
import Mathlib.Algebra.Group.Nat.Defs

/-!
# Decimal numbers, read by the stand-in for the JSON library

A number below `2 ^ 64`, written in decimal without leading zeros, is read as itself by the grammar
of JSON numbers (`scanNumber_toDigits`), as long as nothing follows that could be more of the number
(`EndsNumber`): its digits are all taken, they do not start with a superfluous zero
(`head?_digitValues_toDigits`), and it is nowhere near the magnitude that is refused
(`exceeds_plain`).
-/

namespace IntervalAutomata.Json.StandIn

/-- A text that does not go on with a number just read. -/
def EndsNumber (cs : List Char) : Prop :=
  ∀ c ∈ cs.head?, c.isDigit = false ∧ c ≠ '.' ∧ c ≠ 'e' ∧ c ≠ 'E'

/-- The number that is written by digits only. -/
def Numeric.plain (digits : List Nat) : Numeric :=
  ⟨false, digits, none, none⟩

/-- The values of a row of decimal digits. -/
def digitValues (cs : List Char) : List Nat :=
  cs.map fun c => c.toNat - '0'.toNat

variable {n significand exponent : Nat} {c : Char} {cs rest : List Char} {digits : List Nat}

/-! ## Digits -/

/-- A decimal digit has its value. -/
theorem decimalDigit?_of_isDigit (h : c.isDigit = true) :
    decimalDigit? c = some (c.toNat - '0'.toNat) :=
  if_pos h

/-- All digits are taken, and no more. -/
theorem scanDigits_append (hcs : ∀ c ∈ cs, c.isDigit = true) (hrest : EndsNumber rest) :
    scanDigits (cs ++ rest) = (digitValues cs, rest) := by
  induction cs with
  | nil =>
      cases rest with
      | nil => rfl
      | cons c rest =>
          have hc : decimalDigit? c = none := if_neg (by simp [(hrest c rfl).1])
          simp only [List.nil_append, scanDigits, hc, digitValues, List.map_nil]
  | cons c cs ih =>
      have hc := decimalDigit?_of_isDigit (hcs c List.mem_cons_self)
      have htail := ih fun c hc => hcs c (List.mem_cons_of_mem _ hc)
      simp only [List.cons_append, scanDigits, hc, htail, digitValues, List.map_cons]

/-- Only zero is written with a zero in front. -/
theorem head?_digitValues_toDigits (hn : n ≠ 0) :
    (digitValues (Nat.toDigits 10 n)).head? ≠ some 0 := by
  induction n using Nat.strongRecOn with
  | ind n ih =>
      have hdigit : ∀ d < 10, d ≠ 0 → (Nat.digitChar d).toNat - '0'.toNat ≠ 0 := by decide
      rw [Nat.toDigits_eq_if (by decide)]
      split
      · rename_i hlt
        simpa [digitValues] using hdigit n hlt hn
      · rename_i hge
        have hhead := ih (n / 10) (by omega) (by omega)
        rw [digitValues, List.map_append, List.head?_append]
        cases hdigits : Nat.toDigits 10 (n / 10) with
        | nil => exact absurd hdigits Nat.toDigits_ne_nil
        | cons c cs =>
            rw [hdigits] at hhead
            exact hhead

/-- The digits of a number make the number. -/
theorem ofDigits_toDigits (n : Nat) :
    Numeric.ofDigits (digitValues (Nat.toDigits 10 n)) = n := by
  rw [Numeric.ofDigits, digitValues, List.foldl_map]
  exact Nat.ofDigitChars_ten_toDigits

/-- A superfluous zero in front is the only fault that digits can have. -/
theorem scanWhole_toDigits (hrest : EndsNumber rest) :
    scanWhole (Nat.toDigits 10 n ++ rest) = .ok (digitValues (Nat.toDigits 10 n), rest) := by
  have hdigits : ∀ c ∈ Nat.toDigits 10 n, c.isDigit = true :=
    fun c => Nat.isDigit_of_mem_toDigits (by decide) (by decide)
  have hscan := scanDigits_append hdigits hrest
  have hscan1 : scanDigits1 (Nat.toDigits 10 n ++ rest) =
      .ok (digitValues (Nat.toDigits 10 n), rest) := by
    unfold scanDigits1
    split
    · rename_i hnil
      rw [hscan, Prod.mk.injEq, digitValues, List.map_eq_nil_iff] at hnil
      exact absurd hnil.1 Nat.toDigits_ne_nil
    · rename_i heq
      rw [← heq, hscan]
  unfold scanWhole
  split
  · rename_i hzero
    rw [hscan1, Except.ok.injEq, Prod.mk.injEq] at hzero
    obtain rfl | hn := Nat.eq_zero_or_pos n
    · simp [digitValues] at hzero
    · have hhead := head?_digitValues_toDigits (Nat.ne_of_gt hn)
      rw [hzero.1] at hhead
      exact absurd rfl hhead
  · exact hscan1

/-! ## Magnitude -/

/-- Rounding does not even double a number. -/
theorem roundBits_le (n : Nat) : roundBits n ≤ 2 * n := by
  unfold roundBits
  dsimp only
  split
  · omega
  · rename_i hshift
    -- Rounding up adds at most a unit of the last place kept, and that is not above the number.
    have hn : n ≠ 0 := by
      rintro rfl
      exact hshift rfl
    have hpow : 2 ^ (n.log2 + 1 - 53) ≤ n :=
      Nat.le_trans (Nat.pow_le_pow_right (by decide) (by omega)) (Nat.log2_self_le hn)
    have hquotient : n / 2 ^ (n.log2 + 1 - 53) * 2 ^ (n.log2 + 1 - 53) ≤ n := Nat.div_mul_le_self ..
    simp only [Nat.shiftLeft_eq, Nat.shiftRight_eq_div_pow]
    split
    · rw [Nat.succ_mul]
      omega
    · omega

/-- Further digits never make a number less. -/
theorem le_foldl_digits (digits : List Nat) (significand : Nat) :
    significand ≤ digits.foldl (fun n digit => 10 * n + digit) significand := by
  induction digits generalizing significand with
  | nil => exact Nat.le_refl _
  | cons digit digits ih =>
      have := ih (10 * significand + digit)
      rw [List.foldl_cons]
      omega

/-- Whole digits of a number below `2 ^ 64` all fit. -/
theorem collectWhole_eq
    (h : digits.foldl (fun n digit => 10 * n + digit) significand < UInt64.size) :
    collectWhole digits significand =
      ⟨digits.foldl (fun n digit => 10 * n + digit) significand, 0⟩ := by
  induction digits generalizing significand with
  | nil => rfl
  | cons digit digits ih =>
      rw [List.foldl_cons] at h ⊢
      have hfits : 10 * significand + digit < UInt64.size :=
        Nat.lt_of_le_of_lt (le_foldl_digits digits _) h
      rw [collectWhole, if_pos hfits, ih h]

/-- A number below `2 ^ 64` is not too great to be read. -/
theorem exceeds_plain (h : Numeric.ofDigits digits < UInt64.size) :
    (Numeric.plain digits).exceeds = false := by
  have hcollected : collectWhole digits 0 = ⟨Numeric.ofDigits digits, 0⟩ := collectWhole_eq h
  have hround := roundBits_le (Numeric.ofDigits digits)
  have hone : roundBits (Nat.pow 10 0) = 1 := rfl
  have hgreat : 2 * UInt64.size < (1 <<< 1024) - (1 <<< 970) := by decide
  unfold Numeric.exceeds tooGreat
  simp only [Numeric.plain, Option.getD_none, collectFraction, hcollected]
  split
  · rfl
  · simp only [Int.add_zero, Int.toNat_zero, hone, Nat.mul_one]
    rw [if_neg (by decide), decide_eq_false_iff_not]
    omega

/-- Digits alone denote a natural number, if it has 64 bits. -/
theorem natural?_plain (h : Numeric.ofDigits digits < UInt64.size) :
    (Numeric.plain digits).natural? = some (Numeric.ofDigits digits) := by
  simp [Numeric.natural?, Numeric.plain, h]

/-! ## Numbers -/

/-- **A decimal is read as what it was written for**, up to where it ends. -/
theorem scanNumber_toDigits (hrest : EndsNumber rest) :
    scanNumber (Nat.toDigits 10 n ++ rest) =
      .ok (.plain (digitValues (Nat.toDigits 10 n)), rest) := by
  -- Neither a sign, nor a fraction, nor an exponent is found around the digits.
  have hminus : scanMinus (Nat.toDigits 10 n ++ rest) = (false, Nat.toDigits 10 n ++ rest) := by
    unfold scanMinus
    split
    · rename_i hcs
      cases hdigits : Nat.toDigits 10 n with
      | nil => exact absurd hdigits Nat.toDigits_ne_nil
      | cons c cs =>
          have hc : c.isDigit = true :=
            Nat.isDigit_of_mem_toDigits (by decide) (by decide) (hdigits ▸ List.mem_cons_self)
          rw [hdigits, List.cons_append, List.cons.injEq] at hcs
          rw [hcs.1] at hc
          exact absurd hc (by decide)
    · rfl
  have hfraction : scanFraction rest = .ok (none, rest) := by
    unfold scanFraction
    split
    · exact absurd rfl (hrest '.' rfl).2.1
    · rfl
  have hexponent : scanExponent rest = .ok (none, rest) := by
    cases rest with
    | nil => rfl
    | cons c rest =>
        obtain ⟨-, -, he, hcapital⟩ := hrest c rfl
        rw [scanExponent, if_neg (by simp [he, hcapital])]
  unfold scanNumber
  rw [hminus, scanWhole_toDigits hrest]
  dsimp only
  rw [hfraction]
  dsimp only
  rw [hexponent]
  rfl

end IntervalAutomata.Json.StandIn
