import IntervalAutomata.Json.Library

/-!
# Numbers in JSON, read by the stand-in

Part of the stand-in for the JSON library (`Json.standIn`): the grammar of JSON numbers
(`scanNumber`) and their magnitude. A number with a fraction, an exponent or more than 64 bits
counts as a binary fraction of 53 significant bits, and is refused when it exceeds the greatest of
those (`Numeric.exceeds`): its first digits are taken as far as they fit in 64 bits and rounded, the
power of ten that is left is rounded too, and their product must stay below `2 ^ 1024` after
rounding.
-/

namespace IntervalAutomata.Json.StandIn

/-! ## Magnitude -/

/-- A number rounded to 53 significant bits, a half going to the even neighbour. -/
def roundBits (n : Nat) : Nat :=
  let shift := n.log2 + 1 - 53
  let quotient := n >>> shift
  let remainder := n % (1 <<< shift)
  let half := (1 <<< shift) / 2
  if shift = 0 then n
  else if half < remainder ∨ (remainder = half ∧ quotient % 2 = 1) then (quotient + 1) <<< shift
  else quotient <<< shift

/-- Whether `significand * 10 ^ exponent` is too great for a binary fraction: beyond the midpoint
between the greatest one and its would-be successor. -/
def tooGreat (significand : Nat) (exponent : Int) : Bool :=
  if significand = 0 ∨ exponent < 0 then false
  else if 308 < exponent then true
  else
    decide ((1 <<< 1024) - (1 <<< 970) ≤
      roundBits significand * roundBits (Nat.pow 10 exponent.toNat))

/-- Digits collected into 64 bits, with the power of ten that stands for the rest. -/
structure Collected where
  /-- The digits that fit. -/
  significand : Nat
  /-- The power of ten by which they are multiplied. -/
  exponent : Int

/-- Collects whole digits. Once a digit does not fit, it and all that follow raise the power. -/
def collectWhole : List Nat → Nat → Collected
  | [], significand => ⟨significand, 0⟩
  | digit :: digits, significand =>
    if 10 * significand + digit < UInt64.size then collectWhole digits (10 * significand + digit)
    else ⟨significand, digits.length + 1⟩

/-- Collects digits of a fraction. Once a digit does not fit, it and all that follow are dropped. -/
def collectFraction : List Nat → Collected → Collected
  | [], collected => collected
  | digit :: digits, ⟨significand, exponent⟩ =>
    if 10 * significand + digit < UInt64.size then
      collectFraction digits ⟨10 * significand + digit, exponent - 1⟩
    else ⟨significand, exponent⟩

/-- A number as it is written. -/
structure Numeric where
  /-- Whether a minus sign stands before it. -/
  negative : Bool
  /-- The digits before the point. -/
  whole : List Nat
  /-- The digits after the point, if there is one. -/
  fraction : Option (List Nat)
  /-- The exponent, if there is one. -/
  exponent : Option Int

namespace Numeric

/-- The number that digits denote, most significant first. -/
def ofDigits (digits : List Nat) : Nat :=
  digits.foldl (fun n digit => 10 * n + digit) 0

/-- The natural number below `2 ^ 64` that is written without sign, fraction and exponent. -/
def natural? (n : Numeric) : Option Nat :=
  if n.negative ∨ n.fraction.isSome ∨ n.exponent.isSome then none
  else if ofDigits n.whole < UInt64.size then some (ofDigits n.whole)
  else none

/-- Whether the number is too great in magnitude to be read at all. -/
def exceeds (n : Numeric) : Bool :=
  let collected := collectFraction (n.fraction.getD []) (collectWhole n.whole 0)
  tooGreat collected.significand (collected.exponent + n.exponent.getD 0)

end Numeric

/-! ## Grammar -/

/-- The value of a decimal digit. -/
def decimalDigit? (c : Char) : Option Nat :=
  if c.isDigit then some (c.toNat - 48) else none

/-- The digits at the start of a text, and the rest. -/
def scanDigits : List Char → List Nat × List Char
  | [] => ([], [])
  | c :: cs =>
    match decimalDigit? c with
    | none => ([], c :: cs)
    | some digit =>
      let scanned := scanDigits cs
      (digit :: scanned.1, scanned.2)

/-- What is wrong with a text that must start with a digit and does not. -/
def noDigit : List Char → Fault
  | [] => .truncated
  | _ :: _ => .malformed

/-- At least one digit, and the rest. -/
def scanDigits1 (cs : List Char) : Except Fault (List Nat × List Char) :=
  match scanDigits cs with
  | ([], rest) => .error (noDigit rest)
  | (digits, rest) => .ok (digits, rest)

/-- The digits before the point: zero alone, or digits that do not start with zero. -/
def scanWhole (cs : List Char) : Except Fault (List Nat × List Char) :=
  match scanDigits1 cs with
  | .ok (0 :: _ :: _, _) => .error .malformed
  | scanned => scanned

/-- The fraction, if the text starts with a point. -/
def scanFraction : List Char → Except Fault (Option (List Nat) × List Char)
  | '.' :: cs => (scanDigits1 cs).map fun scanned => (some scanned.1, scanned.2)
  | cs => .ok (none, cs)

/-- The sign of an exponent, positive unless a minus stands there, and the rest. -/
def scanSign : List Char → Int × List Char
  | '-' :: cs => (-1, cs)
  | '+' :: cs => (1, cs)
  | cs => (1, cs)

/-- The exponent, if the text starts with the letter for it. -/
def scanExponent : List Char → Except Fault (Option Int × List Char)
  | [] => .ok (none, [])
  | c :: cs =>
    if c = 'e' ∨ c = 'E' then
      (scanDigits1 (scanSign cs).2).map fun scanned =>
        (some ((scanSign cs).1 * Numeric.ofDigits scanned.1), scanned.2)
    else
      .ok (none, c :: cs)

/-- Whether a minus sign stands at the start, and the rest. -/
def scanMinus : List Char → Bool × List Char
  | '-' :: cs => (true, cs)
  | cs => (false, cs)

/-- A number at the start of a text, and the rest. -/
def scanNumber (cs : List Char) : Except Fault (Numeric × List Char) :=
  match scanWhole (scanMinus cs).2 with
  | .error e => .error e
  | .ok (whole, afterWhole) =>
    match scanFraction afterWhole with
    | .error e => .error e
    | .ok (fraction, afterFraction) =>
      (scanExponent afterFraction).map fun (exponent, rest) =>
        (⟨(scanMinus cs).1, whole, fraction, exponent⟩, rest)

/-! ## What is left is shorter -/

/-- No character is lost when digits are taken. -/
theorem length_scanDigits (cs : List Char) :
    (scanDigits cs).1.length + (scanDigits cs).2.length = cs.length := by
  induction cs with
  | nil => rfl
  | cons c cs ih =>
    cases h : decimalDigit? c with
    | none => simp [scanDigits, h]
    | some digit => simp only [scanDigits, h, List.length_cons]; omega

/-- A row of digits that must not be empty takes at least one character. -/
theorem length_scanDigits1 {cs rest : List Char} {digits : List Nat}
    (h : scanDigits1 cs = .ok (digits, rest)) : rest.length < cs.length := by
  have hlen := length_scanDigits cs
  unfold scanDigits1 at h
  split at h
  · cases h
  · rename_i ds rs hne hs
    cases h
    cases digits with
    | nil => exact (hne rfl).elim
    | cons d ds =>
      rw [hs] at hlen
      simp only [List.length_cons] at hlen
      omega

/-- The digits before the point take at least one character. -/
theorem length_scanWhole {cs rest : List Char} {digits : List Nat}
    (h : scanWhole cs = .ok (digits, rest)) : rest.length < cs.length := by
  unfold scanWhole at h
  split at h
  · cases h
  · exact length_scanDigits1 h

/-- A fraction adds nothing to the text that is left. -/
theorem length_scanFraction {cs rest : List Char} {fraction : Option (List Nat)}
    (h : scanFraction cs = .ok (fraction, rest)) : rest.length ≤ cs.length := by
  unfold scanFraction at h
  split at h
  · rename_i cs
    cases hd : scanDigits1 cs with
    | error e => rw [hd] at h; cases h
    | ok scanned =>
      rw [hd] at h
      cases h
      have := length_scanDigits1 hd
      simp only [List.length_cons]
      omega
  · cases h
    exact Nat.le_refl _

/-- The sign of an exponent adds nothing to the text that is left. -/
theorem length_scanSign (cs : List Char) : (scanSign cs).2.length ≤ cs.length := by
  unfold scanSign
  split <;> simp

/-- An exponent adds nothing to the text that is left. -/
theorem length_scanExponent {cs rest : List Char} {exponent : Option Int}
    (h : scanExponent cs = .ok (exponent, rest)) : rest.length ≤ cs.length := by
  cases cs with
  | nil => cases h; exact Nat.le_refl _
  | cons c cs =>
    simp only [scanExponent] at h
    split at h
    · cases hd : scanDigits1 (scanSign cs).2 with
      | error e => rw [hd] at h; cases h
      | ok scanned =>
        rw [hd] at h
        cases h
        have := length_scanDigits1 hd
        have := length_scanSign cs
        simp only [List.length_cons]
        omega
    · cases h
      exact Nat.le_refl _

/-- A minus sign adds nothing to the text that is left. -/
theorem length_scanMinus (cs : List Char) : (scanMinus cs).2.length ≤ cs.length := by
  unfold scanMinus
  split <;> simp

/-- A number takes at least one character. -/
theorem length_scanNumber {cs rest : List Char} {n : Numeric}
    (h : scanNumber cs = .ok (n, rest)) : rest.length < cs.length := by
  unfold scanNumber at h
  split at h
  · cases h
  · rename_i whole afterWhole hw
    split at h
    · cases h
    · rename_i fraction afterFraction hf
      cases he : scanExponent afterFraction with
      | error e => rw [he] at h; cases h
      | ok scanned =>
        rw [he] at h
        cases h
        have := length_scanExponent he
        have := length_scanFraction hf
        have := length_scanWhole hw
        have := length_scanMinus cs
        omega

end IntervalAutomata.Json.StandIn
