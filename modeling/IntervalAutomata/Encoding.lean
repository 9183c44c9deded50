import IntervalAutomata.Numeral

/-!
# Byte encodings of values

Values are written as bytes, least significant first. The minimal encoding uses as few bytes as the
value needs, and one byte for zero; the padded encoding fills up with zero bytes to a fixed width.

`littleEndian` writes and `ofLittleEndian` reads. `encode` chooses the width and refuses a value
that needs more bytes than a padded width offers.
-/

namespace IntervalAutomata

/-- How many bytes a value is given. -/
inductive Encoding where
  /-- As few bytes as possible: the last byte is not zero, except in the encoding of zero itself. -/
  | minimal
  /-- A fixed width, filled up with zero bytes at the significant end. -/
  | padded
deriving DecidableEq

/-- The word that names an encoding. -/
def Encoding.name : Encoding → String
  | .minimal => "minimal"
  | .padded => "padded"

/-- Bytes of the widest value. -/
def maxWidth : Nat := 8

/-- The number of bytes that a value needs; zero needs one. -/
def byteWidth (n : Nat) : Nat :=
  n.log2 / 8 + 1

/-- The `width` least significant bytes of a number, least significant first. -/
def littleEndian : (width : Nat) → Nat → List UInt8
  | 0, _ => []
  | width + 1, n => UInt8.ofNat n :: littleEndian width (n / 256)

/-- The number whose bytes, least significant first, are given. -/
def ofLittleEndian : List UInt8 → Nat
  | [] => 0
  | byte :: bytes => byte.toNat + 256 * ofLittleEndian bytes

/-- The bytes of a value under an encoding. The width matters to the padded encoding alone, which
has no bytes for a value wider than it and none at all for a width outside `1 … maxWidth`. -/
def encode (value : UInt64) (encoding : Encoding) (width : Nat) : Option (List UInt8) :=
  match encoding with
  | .minimal => some (littleEndian (byteWidth value.toNat) value.toNat)
  | .padded =>
    if width = 0 ∨ maxWidth < width ∨ width < byteWidth value.toNat then none
    else some (littleEndian width value.toNat)

/-- Bytes in decimal between brackets, as in `[2, 1]`: the form in which encoded bytes show
themselves to those who look at a result. -/
def bytesListText (bytes : List UInt8) : String :=
  "[" ++ ", ".intercalate (bytes.map fun byte => Numeral.decimal byte.toNat) ++ "]"

/-! ## Length -/

/-- A number has as many bytes as the width asks for. -/
@[simp] theorem length_littleEndian (width n : Nat) : (littleEndian width n).length = width := by
  induction width generalizing n with
  | zero => rfl
  | succ width ih => simp [littleEndian, ih]

end IntervalAutomata
