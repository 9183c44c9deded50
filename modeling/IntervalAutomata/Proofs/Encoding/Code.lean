import IntervalAutomata.Proofs.Encoding.Canonical
import Mathlib.Logic.ExistsUnique
import Mathlib.Order.Bounds.Defs

/-!
# Encodings as codes

What an encoding is as a map from values to byte sequences: which values it is defined for, how long
their sequences are, that reading takes a sequence back to its value, and which sequences it takes.

* **Widths** (`isLeast_byteWidth`): the width of a value is the least that suffices for it, and can
  be reckoned from the zeros that lead the value as a 64-bit word (`widthOfBits_bitCount`).
* **The padded encoding** is defined where the width is one and suffices
  (`isSome_encode_padded_iff`), and of the sequences of its width it takes each once
  (`existsUnique_encode_padded`).
* **The minimal encoding** is defined for every value and takes the sequences of one to eight bytes
  that are trimmed, and the zero byte (`exists_encode_minimal_iff`).
* **Reading** takes back what either encoding writes (`ofLittleEndian_of_encode`), so that both are
  injective, whatever the widths (`encode_injective`). What they write are always the first of the
  value's eight bytes (`eq_take_of_encode`).

The main statement is `encode_code`.
-/

namespace IntervalAutomata

variable {encoding : Encoding} {value value' : UInt64} {width width' : Nat} {bytes : List UInt8}

/-! ## Widths -/

/-- The width of a value is the least number of bytes, at least one, that suffices for it. -/
theorem isLeast_byteWidth (n : Nat) :
    IsLeast {width | 1 ≤ width ∧ n < 256 ^ width} (byteWidth n) := by
  constructor
  · exact ⟨byteWidth_pos n, lt_pow_byteWidth n⟩
  · rintro width ⟨hpos, hlt⟩
    exact (byteWidth_le_iff hpos).mpr hlt

/-- The number of bits of a value without the zeros that lead it. -/
def bitCount (value : UInt64) : Nat :=
  64 - value.toBitVec.clz.toNat

/-- The number of bytes that hold some bits; no bits take one byte. -/
def widthOfBits (bits : Nat) : Nat :=
  if bits = 0 then 1 else (bits + 7) / 8

/-- A value has at most so many bits if it is below their power of two. -/
theorem bitCount_le_iff {bits : Nat} : bitCount value ≤ bits ↔ value.toNat < 2 ^ bits := by
  constructor
  · intro hle
    exact Nat.lt_of_lt_of_le BitVec.toNat_lt_two_pow_sub_clz
      (Nat.pow_le_pow_right (by decide) hle)
  · intro hlt
    apply Nat.le_of_not_lt
    intro hgt
    unfold bitCount at hgt
    -- The value is not zero, so the bit after its leading zeros is set.
    have hne : value.toBitVec ≠ 0#64 := by
      intro hzero
      have hclz : value.toBitVec.clz.toNat = 64 := by
        rw [BitVec.clz_eq_iff_eq_zero.mpr hzero]
        rfl
      omega
    have hpow : 2 ^ bits ≤ 2 ^ (64 - 1 - value.toBitVec.clz.toNat) :=
      Nat.pow_le_pow_right (by decide) (by omega)
    have hge : 2 ^ (64 - 1 - value.toBitVec.clz.toNat) ≤ value.toNat :=
      BitVec.two_pow_sub_clz_le_toNat_of_ne_zero (by decide) hne
    omega

/-- The width of a value is that of its bits, rounded up to bytes. -/
theorem widthOfBits_bitCount (value : UInt64) :
    widthOfBits (bitCount value) = byteWidth value.toNat := by
  have hiff : ∀ width, 0 < width →
      (widthOfBits (bitCount value) ≤ width ↔ byteWidth value.toNat ≤ width) := by
    intro width hpos
    have hbits : widthOfBits (bitCount value) ≤ width ↔ bitCount value ≤ 8 * width := by
      unfold widthOfBits
      split <;> omega
    rw [hbits, bitCount_le_iff, Nat.pow_mul]
    exact (byteWidth_le_iff hpos).symm
  have hpos : 0 < widthOfBits (bitCount value) := by
    unfold widthOfBits
    split <;> omega
  apply Nat.le_antisymm
  · exact (hiff _ (byteWidth_pos _)).mpr (Nat.le_refl _)
  · exact (hiff _ hpos).mp (Nat.le_refl _)

/-! ## Where the encodings are defined -/

/-- The minimal encoding writes every value, whatever the width. -/
theorem encode_minimal (value : UInt64) (width : Nat) :
    encode value .minimal width = some (littleEndian (byteWidth value.toNat) value.toNat) := rfl

/-- The padded encoding writes the values that the width suffices for, if there is such a width. -/
theorem isSome_encode_padded_iff :
    (encode value .padded width).isSome = true ↔
      (1 ≤ width ∧ width ≤ maxWidth) ∧ value.toNat < 256 ^ width := by
  rw [encode]
  by_cases hpos : 1 ≤ width
  · rw [← byteWidth_le_iff hpos]
    split
    · simp only [Option.isSome_none, Bool.false_eq_true, false_iff]
      omega
    · simp only [Option.isSome_some, true_iff]
      omega
  · rw [if_pos (by omega)]
    simp only [Option.isSome_none, Bool.false_eq_true, false_iff]
    omega

/-- What the padded encoding writes has the width for its length and is read as the value. -/
theorem read_of_encode_padded (h : encode value .padded width = some bytes) :
    bytes.length = width ∧ ofLittleEndian bytes = value.toNat := by
  obtain ⟨⟨hpos, hmax⟩, -⟩ := isSome_encode_padded_iff.mp (Option.isSome_iff_exists.mpr ⟨bytes, h⟩)
  exact (encode_padded_eq_some_iff hpos hmax).mp h

/-- Reading takes back what either encoding writes. -/
theorem ofLittleEndian_of_encode (h : encode value encoding width = some bytes) :
    ofLittleEndian bytes = value.toNat := by
  cases encoding with
  | minimal => exact (encode_minimal_eq_some_iff.mp h).2
  | padded => exact (read_of_encode_padded h).2

/-- Each byte sequence encodes at most one value. -/
theorem encode_injective (h : encode value encoding width = some bytes)
    (h' : encode value' encoding width' = some bytes) : value = value' := by
  apply UInt64.toNat_inj.mp
  rw [← ofLittleEndian_of_encode h, ← ofLittleEndian_of_encode h']

/-! ## What the encodings take -/

/-- A sequence of at most eight bytes is read as a value. -/
theorem exists_toNat_eq_ofLittleEndian (h : bytes.length ≤ maxWidth) :
    ∃ value : UInt64, value.toNat = ofLittleEndian bytes := by
  have hlt : ofLittleEndian bytes < UInt64.size :=
    calc ofLittleEndian bytes < 256 ^ bytes.length := ofLittleEndian_lt bytes
      _ ≤ 256 ^ maxWidth := Nat.pow_le_pow_right (by decide) h
  exact ⟨UInt64.ofNat (ofLittleEndian bytes), UInt64.toNat_ofNat_of_lt' hlt⟩

/-- **Every sequence of a width is the padded encoding of one value.** -/
theorem existsUnique_encode_padded (hpos : 1 ≤ bytes.length) (hmax : bytes.length ≤ maxWidth) :
    ∃! value : UInt64, encode value .padded bytes.length = some bytes := by
  obtain ⟨value, hvalue⟩ := exists_toNat_eq_ofLittleEndian hmax
  refine ⟨value, (encode_padded_eq_some_iff hpos hmax).mpr ⟨rfl, hvalue.symm⟩, ?_⟩
  intro value' h
  apply UInt64.toNat_inj.mp
  rw [hvalue, ofLittleEndian_of_encode h]

/-- What follows the first byte is trimmed iff the whole sequence is, or is the zero byte. -/
theorem trimmed_tail_iff (h : bytes ≠ []) : Trimmed bytes.tail ↔ Trimmed bytes ∨ bytes = [0] := by
  match bytes, h with
  | [byte], _ =>
      rw [List.tail_cons, trimmed_singleton]
      simp only [trimmed_nil, true_iff, List.cons.injEq, and_true]
      exact (Decidable.em (byte = 0)).symm
  | first :: second :: rest, _ =>
      rw [List.tail_cons, trimmed_cons_cons]
      simp

/-- **The minimal encodings are the sequences of one to eight bytes that are trimmed, and the zero
byte.** -/
theorem exists_encode_minimal_iff (width : Nat) :
    (∃ value, encode value .minimal width = some bytes) ↔
      (1 ≤ bytes.length ∧ bytes.length ≤ maxWidth) ∧ (Trimmed bytes ∨ bytes = [0]) := by
  constructor
  · rintro ⟨value, h⟩
    obtain ⟨⟨hne, htrim⟩, -⟩ := encode_minimal_eq_some_iff.mp h
    have hlength : bytes.length = byteWidth value.toNat := by
      rw [encode_minimal, Option.some.injEq] at h
      rw [← h, length_littleEndian]
    refine ⟨⟨List.length_pos_iff.mpr hne, ?_⟩, (trimmed_tail_iff hne).mp htrim⟩
    rw [hlength]
    exact byteWidth_le_maxWidth value.toNat_lt_size
  · rintro ⟨⟨hpos, hmax⟩, htrim⟩
    have hne := List.length_pos_iff.mp hpos
    obtain ⟨value, hvalue⟩ := exists_toNat_eq_ofLittleEndian hmax
    refine ⟨value, encode_minimal_eq_some_iff.mpr ⟨⟨hne, ?_⟩, hvalue.symm⟩⟩
    exact (trimmed_tail_iff hne).mpr htrim

/-! ## The first bytes of a value -/

/-- Fewer bytes are the first of more bytes. -/
theorem littleEndian_eq_take (h : width ≤ width') (n : Nat) :
    littleEndian width n = (littleEndian width' n).take width := by
  induction width generalizing width' n with
  | zero => rw [littleEndian, List.take_zero]
  | succ width ih =>
      obtain ⟨more, rfl⟩ : ∃ more, width' = more + 1 := ⟨width' - 1, by omega⟩
      rw [littleEndian, littleEndian, List.take_succ_cons, ← ih (Nat.le_of_succ_le_succ h)]

/-- Writing takes back what was read, with as many bytes. -/
theorem littleEndian_ofLittleEndian (bytes : List UInt8) :
    littleEndian bytes.length (ofLittleEndian bytes) = bytes := by
  apply ofLittleEndian_inj_of_length (length_littleEndian _ _)
  exact ofLittleEndian_littleEndian (ofLittleEndian_lt bytes)

/-- No encoding writes more than eight bytes. -/
theorem length_le_maxWidth_of_encode (h : encode value encoding width = some bytes) :
    bytes.length ≤ maxWidth := by
  cases encoding with
  | minimal => exact ((exists_encode_minimal_iff width).mp ⟨value, h⟩).1.2
  | padded =>
      have hwidth := isSome_encode_padded_iff.mp (Option.isSome_iff_exists.mpr ⟨bytes, h⟩)
      rw [(read_of_encode_padded h).1]
      exact hwidth.1.2

/-- What an encoding writes are the first of the value's eight bytes. -/
theorem eq_take_of_encode (h : encode value encoding width = some bytes) :
    bytes = (littleEndian maxWidth value.toNat).take bytes.length :=
  calc bytes = littleEndian bytes.length (ofLittleEndian bytes) :=
        (littleEndian_ofLittleEndian bytes).symm
    _ = littleEndian bytes.length value.toNat := by rw [ofLittleEndian_of_encode h]
    _ = (littleEndian maxWidth value.toNat).take bytes.length :=
        littleEndian_eq_take (length_le_maxWidth_of_encode h) value.toNat

/-! ## The main statement -/

/-- **Both encodings are codes.** The width of a value, as reckoned from its leading zeros, is the
least that suffices for it. The minimal encoding writes every value, with as many bytes as its width
and whatever the width asked for; the padded encoding writes it iff the width asked for is one of
one to eight bytes and suffices, and then with that many bytes. What either writes are the first of
the value's eight bytes, from which the value is read. The minimal encodings are the sequences of
one to eight bytes that do not end in a zero byte, and the zero byte alone; and every sequence of
one to eight bytes is the padded encoding of exactly one value. So no sequence encodes two
values. -/
theorem encode_code (value : UInt64) (width : Nat) (bytes : List UInt8) :
    (widthOfBits (bitCount value) = byteWidth value.toNat ∧
      IsLeast {n | 1 ≤ n ∧ value.toNat < 256 ^ n} (byteWidth value.toNat)) ∧
    (∃ code, code.length = byteWidth value.toNat ∧
      ∀ width, encode value .minimal width = some code) ∧
    ((encode value .padded width).isSome = true ↔
      (1 ≤ width ∧ width ≤ maxWidth) ∧ value.toNat < 256 ^ width) ∧
    (encode value .padded width = some bytes → bytes.length = width) ∧
    (∀ encoding, encode value encoding width = some bytes →
      bytes = (littleEndian maxWidth value.toNat).take bytes.length ∧
        ofLittleEndian bytes = value.toNat) ∧
    ((∃ value, encode value .minimal width = some bytes) ↔
      (1 ≤ bytes.length ∧ bytes.length ≤ maxWidth) ∧ (Trimmed bytes ∨ bytes = [0])) ∧
    (1 ≤ bytes.length → bytes.length ≤ maxWidth →
      ∃! value, encode value .padded bytes.length = some bytes) ∧
    (∀ encoding value' width', encode value encoding width = some bytes →
      encode value' encoding width' = some bytes → value = value') := by
  refine ⟨⟨widthOfBits_bitCount value, isLeast_byteWidth value.toNat⟩,
    ⟨_, length_littleEndian _ _, encode_minimal value⟩, isSome_encode_padded_iff, ?_, ?_,
    exists_encode_minimal_iff width, existsUnique_encode_padded, ?_⟩
  · intro h
    exact (read_of_encode_padded h).1
  · intro encoding h
    exact ⟨eq_take_of_encode h, ofLittleEndian_of_encode h⟩
  · intro encoding value' width' h h'
    exact encode_injective h h'

/-- The sequence `00 01 00` is the padded encoding of `0x100` with three bytes and of no other
value. It is no minimal encoding, since it ends in a zero byte. -/
theorem encode_code_zeros :
    encode 0x100 .padded 3 = some [0, 1, 0] ∧
      (([0, 1, 0] : List UInt8).length = 3 ∧ ofLittleEndian [0, 1, 0] = 0x100) ∧
      (∃! value, encode value .padded 3 = some [0, 1, 0]) ∧
      ¬ ∃ value, encode value .minimal 3 = some [0, 1, 0] := by
  obtain ⟨-, -, -, hlength, hread, hminimal, hunique, -⟩ := encode_code 0x100 3 [0, 1, 0]
  have hencode : encode 0x100 .padded 3 = some [0, 1, 0] := by decide
  refine ⟨hencode, ⟨hlength hencode, (hread .padded hencode).2⟩, ?_, ?_⟩
  · exact hunique (by decide) (by decide)
  · rw [hminimal]
    rintro ⟨-, htrim | hzero⟩
    · exact htrim rfl
    · cases hzero

end IntervalAutomata
