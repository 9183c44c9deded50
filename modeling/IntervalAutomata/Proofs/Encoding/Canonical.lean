import IntervalAutomata.Encoding
import Mathlib.Algebra.Group.Nat.Defs

/-!
# Which byte sequences are encodings

Every byte sequence is read as a number by `ofLittleEndian`, and many sequences are read as the same
one. This file says which of them is the encoding:

* **padded**: the sequence whose length is the width (`encode_padded_eq_some_iff`);
* **minimal**: the sequence that is not empty and does not end in a zero byte after its first byte
  (`encode_minimal_eq_some_iff`). What follows the first byte is then `Trimmed`, where the number
  zero is spelled by no byte at all; the first byte may be zero, also where it is the only one.

Both rest on the injectivity of reading: on trimmed sequences (`ofLittleEndian_inj_of_trimmed`) and
on sequences of one length (`ofLittleEndian_inj_of_length`).
-/

namespace IntervalAutomata

/-! ## Widths -/

/-- Every number takes at least one byte. -/
theorem byteWidth_pos (n : Nat) : 0 < byteWidth n :=
  Nat.succ_pos _

/-- A width suffices iff it is a width of the number's magnitude. -/
theorem byteWidth_le_iff {n width : Nat} (hw : 0 < width) :
    byteWidth n ≤ width ↔ n < 256 ^ width := by
  have hbits : byteWidth n ≤ width ↔ n.log2 < 8 * width := by
    unfold byteWidth
    omega
  have hpow : (256 : Nat) ^ width = 2 ^ (8 * width) := by
    rw [Nat.pow_mul]
  rw [hbits, hpow]
  by_cases hn : n = 0
  · subst hn
    have hpos : 0 < 2 ^ (8 * width) := Nat.two_pow_pos _
    simp only [Nat.log2_zero]
    omega
  · exact Nat.log2_lt hn

/-- A number fits in the bytes of its width. -/
theorem lt_pow_byteWidth (n : Nat) : n < 256 ^ byteWidth n :=
  (byteWidth_le_iff (byteWidth_pos n)).mp (Nat.le_refl _)

/-- A number of more than one byte has a byte at its most significant place. -/
theorem pow_le_of_byteWidth {n k : Nat} (hk : 0 < k) (h : byteWidth n = k + 1) :
    256 ^ k ≤ n := by
  have hlt : ¬ byteWidth n ≤ k := by omega
  rw [byteWidth_le_iff hk] at hlt
  omega

/-- A greater number is at least as wide. -/
theorem byteWidth_mono {m n : Nat} (h : m ≤ n) : byteWidth m ≤ byteWidth n := by
  rw [byteWidth_le_iff (byteWidth_pos n)]
  exact Nat.lt_of_le_of_lt h (lt_pow_byteWidth n)

/-- A number of 64 bits fits in the greatest width. -/
theorem byteWidth_le_maxWidth {n : Nat} (h : n < UInt64.size) : byteWidth n ≤ maxWidth :=
  (byteWidth_le_iff (by decide)).mpr h

/-! ## Reading -/

/-- An empty row of bytes makes zero. -/
@[simp] theorem ofLittleEndian_nil : ofLittleEndian [] = 0 := rfl

/-- The first byte is the lowest. -/
@[simp] theorem ofLittleEndian_cons (byte : UInt8) (bytes : List UInt8) :
    ofLittleEndian (byte :: bytes) = byte.toNat + 256 * ofLittleEndian bytes := rfl

/-- Bytes make a number that fits in as many. -/
theorem ofLittleEndian_lt (bytes : List UInt8) : ofLittleEndian bytes < 256 ^ bytes.length := by
  induction bytes with
  | nil => decide
  | cons byte bytes ih =>
      have hbyte := byte.toNat_lt
      rw [ofLittleEndian_cons, List.length_cons, Nat.pow_succ]
      omega

/-- Reading takes back what was written if the width suffices. -/
theorem ofLittleEndian_littleEndian {width n : Nat} (h : n < 256 ^ width) :
    ofLittleEndian (littleEndian width n) = n := by
  induction width generalizing n with
  | zero =>
      rw [Nat.pow_zero] at h
      rw [littleEndian, ofLittleEndian_nil]
      omega
  | succ width ih =>
      rw [Nat.pow_succ] at h
      rw [littleEndian, ofLittleEndian_cons, ih (by omega), UInt8.toNat_ofNat']
      omega

/-- Equal numbers have equal first bytes and equal rests. -/
theorem ofLittleEndian_cons_inj {b c : UInt8} {bs cs : List UInt8}
    (h : ofLittleEndian (b :: bs) = ofLittleEndian (c :: cs)) :
    b = c ∧ ofLittleEndian bs = ofLittleEndian cs := by
  have hb := b.toNat_lt
  have hc := c.toNat_lt
  rw [ofLittleEndian_cons, ofLittleEndian_cons] at h
  exact ⟨UInt8.toNat_inj.mp (by omega), by omega⟩

/-- Of the sequences of one length, each is read as a number of its own. -/
theorem ofLittleEndian_inj_of_length {xs ys : List UInt8} (hlen : xs.length = ys.length)
    (h : ofLittleEndian xs = ofLittleEndian ys) : xs = ys := by
  induction xs generalizing ys with
  | nil => exact (List.eq_nil_of_length_eq_zero hlen.symm).symm
  | cons x xs ih =>
      cases ys with
      | nil => cases hlen
      | cons y ys =>
          obtain ⟨rfl, hrest⟩ := ofLittleEndian_cons_inj h
          rw [ih (Nat.succ.inj hlen) hrest]

/-! ## Trimmed sequences -/

/-- A sequence that does not end in a zero byte. -/
def Trimmed (bytes : List UInt8) : Prop :=
  bytes.getLast? ≠ some 0

/-- An empty row of bytes is trimmed. -/
theorem trimmed_nil : Trimmed [] := by
  simp [Trimmed]

/-- A single byte is trimmed if it is not zero. -/
theorem trimmed_singleton {byte : UInt8} : Trimmed [byte] ↔ byte ≠ 0 := by
  simp [Trimmed]

/-- Whether bytes are trimmed is decided by the last one. -/
theorem trimmed_cons_cons {b c : UInt8} {bytes : List UInt8} :
    Trimmed (b :: c :: bytes) ↔ Trimmed (c :: bytes) := by
  rw [Trimmed, Trimmed, List.getLast?_cons_cons]

/-- A trimmed sequence with at least one byte is not read as zero. -/
theorem Trimmed.pos {byte : UInt8} {bytes : List UInt8} (h : Trimmed (byte :: bytes)) :
    0 < ofLittleEndian (byte :: bytes) := by
  induction bytes generalizing byte with
  | nil =>
      have hne : byte.toNat ≠ 0 := by
        intro h0
        exact trimmed_singleton.mp h (UInt8.toNat_inj.mp h0)
      rw [ofLittleEndian_cons]
      omega
  | cons c bytes ih =>
      have hrest := ih (trimmed_cons_cons.mp h)
      rw [ofLittleEndian_cons]
      omega

/-- A byte before a trimmed sequence makes a trimmed sequence, unless all is zero then. -/
theorem trimmed_cons_iff {byte : UInt8} {bytes : List UInt8} :
    Trimmed (byte :: bytes) ↔ Trimmed bytes ∧ 0 < ofLittleEndian (byte :: bytes) := by
  constructor
  · intro h
    refine ⟨?_, h.pos⟩
    cases bytes with
    | nil => exact trimmed_nil
    | cons c bytes => exact trimmed_cons_cons.mp h
  · rintro ⟨h, hpos⟩
    cases bytes with
    | nil =>
        rw [trimmed_singleton]
        rintro rfl
        exact absurd hpos (by decide)
    | cons c bytes => exact trimmed_cons_cons.mpr h

/-- Nothing but the empty sequence is trimmed and read as zero. -/
theorem trimmed_and_eq_zero_iff {bytes : List UInt8} :
    Trimmed bytes ∧ ofLittleEndian bytes = 0 ↔ bytes = [] := by
  constructor
  · rintro ⟨htrim, hzero⟩
    cases bytes with
    | nil => rfl
    | cons byte bytes => exact absurd hzero (Nat.ne_of_gt htrim.pos)
  · rintro rfl
    exact ⟨trimmed_nil, rfl⟩

/-- Of the trimmed sequences, each is read as a number of its own. -/
theorem ofLittleEndian_inj_of_trimmed {xs ys : List UInt8} (hx : Trimmed xs) (hy : Trimmed ys)
    (h : ofLittleEndian xs = ofLittleEndian ys) : xs = ys := by
  induction xs generalizing ys with
  | nil =>
      cases ys with
      | nil => rfl
      | cons y ys => exact absurd hy.pos (by rw [← h]; decide)
  | cons x xs ih =>
      cases ys with
      | nil => exact absurd hx.pos (by rw [h]; decide)
      | cons y ys =>
          obtain ⟨rfl, hrest⟩ := ofLittleEndian_cons_inj h
          rw [ih (trimmed_cons_iff.mp hx).1 (trimmed_cons_iff.mp hy).1 hrest]

/-- A number written with exactly as many bytes as its magnitude needs is trimmed. -/
theorem trimmed_littleEndian {width n : Nat} (hlo : 256 ^ width ≤ n) (hhi : n < 256 ^ (width + 1)) :
    Trimmed (littleEndian (width + 1) n) := by
  induction width generalizing n with
  | zero =>
      rw [littleEndian, littleEndian, trimmed_singleton]
      intro h0
      have hn := congrArg UInt8.toNat h0
      rw [UInt8.toNat_ofNat'] at hn
      change n % 256 = 0 at hn
      omega
  | succ width ih =>
      rw [Nat.pow_succ] at hlo
      rw [Nat.pow_succ] at hhi
      rw [littleEndian, littleEndian, trimmed_cons_cons, ← littleEndian]
      exact ih (by omega) (by omega)

/-! ## The encodings -/

/-- What follows the first byte of a minimal encoding is trimmed. -/
theorem trimmed_tail_minimal (n : Nat) : Trimmed (littleEndian (byteWidth n) n).tail := by
  have hlt := lt_pow_byteWidth n
  obtain ⟨k, hk⟩ : ∃ k, byteWidth n = k + 1 := ⟨_, rfl⟩
  rw [hk] at hlt ⊢
  rw [littleEndian, List.tail_cons]
  cases k with
  | zero => exact trimmed_nil
  | succ k =>
      have hle := pow_le_of_byteWidth (Nat.succ_pos k) hk
      rw [Nat.pow_succ] at hle hlt
      exact trimmed_littleEndian (by omega) (by omega)

/-- **The minimal encodings**: the sequences with a first byte and no zero byte at the end of what
follows it. -/
theorem encode_minimal_eq_some_iff {value : UInt64} {width : Nat} {bytes : List UInt8} :
    encode value .minimal width = some bytes ↔
      (bytes ≠ [] ∧ Trimmed bytes.tail) ∧ ofLittleEndian bytes = value.toNat := by
  have hread := ofLittleEndian_littleEndian (lt_pow_byteWidth value.toNat)
  have htail := trimmed_tail_minimal value.toNat
  obtain ⟨k, hk⟩ : ∃ k, byteWidth value.toNat = k + 1 := ⟨_, rfl⟩
  rw [encode, Option.some.injEq]
  rw [hk, littleEndian] at hread htail ⊢
  constructor
  · rintro rfl
    exact ⟨⟨List.cons_ne_nil _ _, htail⟩, hread⟩
  · rintro ⟨⟨hne, htrim⟩, hvalue⟩
    cases bytes with
    | nil => exact absurd rfl hne
    | cons byte bytes =>
        rw [← hread] at hvalue
        obtain ⟨hbyte, hrest⟩ := ofLittleEndian_cons_inj hvalue
        rw [List.tail_cons] at htrim htail
        rw [hbyte, ofLittleEndian_inj_of_trimmed htrim htail hrest]

/-- **The padded encodings**: the sequences of the right length. -/
theorem encode_padded_eq_some_iff {value : UInt64} {width : Nat} {bytes : List UInt8}
    (hpos : 0 < width) (hmax : width ≤ maxWidth) :
    encode value .padded width = some bytes ↔
      bytes.length = width ∧ ofLittleEndian bytes = value.toNat := by
  have hwidth : (width = 0 ∨ maxWidth < width ∨ width < byteWidth value.toNat) ↔
      ¬ value.toNat < 256 ^ width := by
    rw [← byteWidth_le_iff hpos]
    omega
  rw [encode]
  split
  · rename_i hwide
    rw [hwidth] at hwide
    simp only [reduceCtorEq, false_iff]
    rintro ⟨hlen, hvalue⟩
    have hlt := ofLittleEndian_lt bytes
    rw [hlen, hvalue] at hlt
    exact hwide hlt
  · rename_i hfits
    rw [hwidth, Decidable.not_not] at hfits
    have hread := ofLittleEndian_littleEndian hfits
    rw [Option.some.injEq]
    constructor
    · rintro rfl
      exact ⟨length_littleEndian _ _, hread⟩
    · rintro ⟨hlen, hvalue⟩
      apply ofLittleEndian_inj_of_length
      · rw [hlen, length_littleEndian]
      · rw [hvalue, hread]

end IntervalAutomata
