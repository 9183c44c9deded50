/-!
# Numerals

How numbers are written and read in every text of this library: hexadecimal with `0x` and as few
digits as possible (`hex`), one byte as two digits (`byteHex`), upper-case hexadecimal of at least
six digits (`wideHex`), and the reading of a row of digits in a base (`valueOf?`).

Writing rests on `Nat.toDigits`; reading refuses the empty row and every character that is no digit
of the base (`valueOf?_nil`, `valueOf?_cons`).
-/

namespace IntervalAutomata.Numeral

/-! ## Writing -/

/-- A row of digits, widened with zeros on the left to at least `count` characters. -/
def padded (count : Nat) (digits : List Char) : List Char :=
  List.replicate (count - digits.length) '0' ++ digits

/-- Lower-case hexadecimal after `0x`, without leading zeros. -/
def hex (n : Nat) : String :=
  "0x" ++ String.ofList (Nat.toDigits 16 n)

/-- Lower-case hexadecimal of at least two digits, as bytes are written. -/
def byteHex (n : Nat) : String :=
  String.ofList (padded 2 (Nat.toDigits 16 n))

/-- Upper-case hexadecimal of at least six digits after `0x`, as code points are written. -/
def wideHex (n : Nat) : String :=
  "0x" ++ String.ofList (padded 6 ((Nat.toDigits 16 n).map Char.toUpper))

/-- Decimal, without leading zeros. -/
def decimal (n : Nat) : String :=
  String.ofList (Nat.toDigits 10 n)

/-! ## Reading -/

/-- What a character counts for as a digit, letters of either case following the ten numerals. -/
def weight? (c : Char) : Option Nat :=
  if '0' ≤ c ∧ c ≤ '9' then some (c.toNat - 48)
  else if 'a' ≤ c ∧ c ≤ 'z' then some (c.toNat - 87)
  else if 'A' ≤ c ∧ c ≤ 'Z' then some (c.toNat - 55)
  else none

/-- The value of a character as a digit of `base`. -/
def digit? (base : Nat) (c : Char) : Option Nat :=
  (weight? c).filter (· < base)

/-- Reads digits onto a number read so far. -/
def extend? (base : Nat) : Nat → List Char → Option Nat
  | value, [] => some value
  | value, c :: cs => (digit? base c).bind fun d => extend? base (base * value + d) cs

/-- The number that a row of digits denotes: at least one digit, all of them of the base. -/
def valueOf? (base : Nat) (digits : List Char) : Option Nat :=
  if digits = [] then none else extend? base 0 digits

/-- An empty row of digits denotes no number. -/
@[simp] theorem valueOf?_nil (base : Nat) : valueOf? base [] = none := rfl

/-- A row of digits is read onto the value of its first digit. -/
theorem valueOf?_cons (base : Nat) (c : Char) (cs : List Char) :
    valueOf? base (c :: cs) = (digit? base c).bind fun d => extend? base d cs := by
  simp [valueOf?, extend?]

/-- Two rows of digits are read one after the other. -/
theorem extend?_append (base value : Nat) (xs ys : List Char) :
    extend? base value (xs ++ ys) = (extend? base value xs).bind (extend? base · ys) := by
  induction xs generalizing value with
  | nil => rfl
  | cons c cs ih => cases h : digit? base c <;> simp [extend?, h, ih]

end IntervalAutomata.Numeral
