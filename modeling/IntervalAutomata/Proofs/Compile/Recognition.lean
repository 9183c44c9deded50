import IntervalAutomata.Proofs.Compile.Accepted
import IntervalAutomata.Proofs.Compile.Sharing
import IntervalAutomata.Proofs.Encoding.Code

/-!
# What a compiled automaton recognises

The automaton of an interval accepts exactly the interval's values, and of all byte sequences
exactly the encodings of those values. Neither depends on whether nodes are shared.

* **Byte sequences** (`acceptsBytes_compile_iff`): a sequence is accepted iff it is the encoding of
  a value in the interval. No second spelling of a value is accepted, since encodings are trimmed
  and padded sequences have one length.
* **Values** (`compile_accepts_iff`): compiling two bounds in order succeeds, and the automaton
  accepts a value iff it lies between them. A value too wide for the padded encoding is refused
  without reading a byte.

Both come from what the tree for the interval accepts (`accepts_treeFor`), to which the root of the
automaton unfolds (`unfolded_root_compile`), once the sequences that spell a number at the root are
seen to be the encodings (`spells_root_iff`).
-/

namespace IntervalAutomata

variable {encoding : Encoding} {options : CompileOptions} {interval : Interval} {width : Nat}
  {value : UInt64} {bytes : List UInt8}

/-! ## Spelling and encoding -/

/-- At the root a sequence may follow and is read as a value iff it is the value's encoding. -/
theorem encode_eq_some_iff (hpos : 0 < width) (hmax : width ≤ maxWidth) :
    encode value encoding width = some bytes ↔
      encoding.Continues width 0 bytes ∧ ofLittleEndian bytes = value.toNat := by
  cases encoding with
  | minimal => exact encode_minimal_eq_some_iff
  | padded => exact encode_padded_eq_some_iff hpos hmax

/-- A value has no encoding iff it is too wide for the padded one. -/
theorem encode_eq_none_iff (hpos : 0 < width) (hmax : width ≤ maxWidth) :
    encode value encoding width = none ↔
      encoding = .padded ∧ width < byteWidth value.toNat := by
  cases encoding with
  | minimal => simp [encode]
  | padded =>
      have hne : ¬ width = 0 := Nat.ne_of_gt hpos
      have hle : ¬ maxWidth < width := Nat.not_lt.mpr hmax
      simp [encode, hne, hle]

/-- The sequences that spell a number of the interval at the root are the encodings of its
values. -/
theorem spells_root_iff :
    encoding.Spells (byteWidth interval.high) 0 interval.low interval.high bytes ↔
      ∃ value : UInt64, value.toNat ∈ interval ∧
        encode value encoding (byteWidth interval.high) = some bytes := by
  have hpos := byteWidth_pos interval.high
  have hmax := byteWidth_le_maxWidth interval.high_lt
  constructor
  · rintro ⟨hcont, hlo, hhi⟩
    have hword : (UInt64.ofNat (ofLittleEndian bytes)).toNat = ofLittleEndian bytes :=
      UInt64.toNat_ofNat_of_lt' (Nat.lt_of_le_of_lt hhi interval.high_lt)
    refine ⟨UInt64.ofNat (ofLittleEndian bytes), ?_, ?_⟩
    · rw [hword]
      exact ⟨hlo, hhi⟩
    · rw [encode_eq_some_iff hpos hmax]
      exact ⟨hcont, hword.symm⟩
  · rintro ⟨value, hvalue, hencode⟩
    obtain ⟨hcont, hread⟩ := (encode_eq_some_iff hpos hmax).mp hencode
    rw [← hread] at hvalue
    exact ⟨hcont, hvalue⟩

/-! ## The compiled automaton -/

namespace Automaton

/-- The sequences that are accepted spell the interval's values. -/
theorem acceptsBytes_compile_iff_spells :
    (compile options interval).acceptsBytes bytes = true ↔
      options.encoding.Spells (byteWidth interval.high) 0 interval.low interval.high bytes := by
  rw [← accepts_treeFor (Placed.ofInterval interval), ← unfolded_root_compile, Node.unfolded,
    Node.accepts_rename, acceptsBytes]

/-- The values that are accepted are those of the interval. -/
theorem accepts_compile_iff_mem :
    (compile options interval).accepts value = true ↔ value.toNat ∈ interval := by
  have hpos := byteWidth_pos interval.high
  have hmax := byteWidth_le_maxWidth interval.high_lt
  rw [accepts, encoding_compile, width_compile]
  cases hencode : encode value options.encoding (byteWidth interval.high) with
  | none =>
      obtain ⟨-, hwide⟩ := (encode_eq_none_iff hpos hmax).mp hencode
      simp only [Bool.false_eq_true, false_iff]
      rintro ⟨-, hle⟩
      have hmono := byteWidth_mono hle
      omega
  | some bytes =>
      rw [acceptsBytes_compile_iff_spells, spells_root_iff]
      constructor
      · rintro ⟨value', hmem, hencode'⟩
        rwa [encode_injective hencode hencode']
      · intro hmem
        exact ⟨value, hmem, hencode⟩

/-- A walk ends before the first byte iff the value is too wide for the padded encoding. -/
theorem walk_compile_eq_unencodable_iff :
    (compile options interval).walk value =
        ⟨false, [.unencodable value (byteWidth interval.high)]⟩ ↔
      options.encoding = .padded ∧ byteWidth interval.high < byteWidth value.toNat := by
  have hpos := byteWidth_pos interval.high
  have hmax := byteWidth_le_maxWidth interval.high_lt
  rw [← encode_eq_none_iff hpos hmax, walk, encoding_compile, width_compile]
  cases hencode : encode value options.encoding (byteWidth interval.high) with
  | none => simp
  | some bytes => simp [Walk.after]

/-- **The byte sequences that an automaton accepts are the encodings of the interval's values.** So
the minimal encoding admits no zero byte at the end of two bytes or more, and the padded encoding no
length but the width. -/
theorem acceptsBytes_compile_iff (options : CompileOptions) (interval : Interval)
    (bytes : List UInt8) :
    ((compile options interval).acceptsBytes bytes = true ↔
      ∃ value : UInt64, value.toNat ∈ interval ∧
        encode value options.encoding (byteWidth interval.high) = some bytes) ∧
    (options.encoding = .minimal → 1 < bytes.length → bytes.getLast? = some 0 →
      (compile options interval).acceptsBytes bytes = false) ∧
    (options.encoding = .padded → (compile options interval).acceptsBytes bytes = true →
      bytes.length = byteWidth interval.high) := by
  refine ⟨?_, ?_, ?_⟩
  · rw [acceptsBytes_compile_iff_spells, spells_root_iff]
  · intro hminimal hlen hlast
    rw [Bool.eq_false_iff, Ne, acceptsBytes_compile_iff_spells, hminimal]
    rintro ⟨⟨-, htrim⟩, -⟩
    match bytes, hlen with
    | first :: second :: rest, _ => exact htrim (by rwa [List.getLast?_cons_cons] at hlast)
  · intro hpadded haccepts
    rw [acceptsBytes_compile_iff_spells, hpadded] at haccepts
    exact haccepts.1

/-- The minimal automaton for `[0x0, 0x1ff]` accepts zero in one byte and not in two. -/
theorem acceptsBytes_compile_iff_zero :
    (compile ⟨.minimal, true⟩ { low := 0, high := 0x1ff }).acceptsBytes [0] = true ∧
      (compile ⟨.minimal, true⟩ { low := 0, high := 0x1ff }).acceptsBytes [0, 0] = false := by
  have hone := acceptsBytes_compile_iff ⟨.minimal, true⟩ { low := 0, high := 0x1ff } [0]
  have htwo := acceptsBytes_compile_iff ⟨.minimal, true⟩ { low := 0, high := 0x1ff } [0, 0]
  constructor
  · exact hone.1.mpr ⟨0, by decide, by decide⟩
  · exact htwo.2.1 rfl (by decide) rfl

end Automaton

/-! ## Compiling two bounds -/

/-- Bounds in order are compiled, by a new session to the automaton of their interval. -/
theorem Session.compile_start_of_le (options : CompileOptions) {low high : UInt64}
    (h : low ≤ high) :
    ∃ interval, interval.low = low.toNat ∧ interval.high = high.toNat ∧
      ((start options).compile low high).1 = .ok (Automaton.compile options interval) := by
  obtain ⟨interval, hinterval⟩ : ∃ interval, Interval.ofBounds low high = .ok interval := by
    rw [Interval.ofBounds, dif_pos h]
    exact ⟨_, rfl⟩
  obtain ⟨hlow, hhigh⟩ := Interval.ofBounds_eq_ok_iff.mp hinterval
  refine ⟨interval, hlow, hhigh, ?_⟩
  simp only [compile, hinterval]
  rfl

/-- **The values that the automaton for two bounds accepts are those between the bounds.** A value
wider than the padded encoding is refused without a walk. -/
theorem compile_accepts_iff (options : CompileOptions) {low high : UInt64} (h : low ≤ high) :
    ∃ automaton, ((Session.start options).compile low high).1 = .ok automaton ∧
      ∀ value : UInt64,
        (automaton.accepts value = true ↔ low ≤ value ∧ value ≤ high) ∧
        (automaton.walk value = ⟨false, [.unencodable value (byteWidth high.toNat)]⟩ ↔
          options.encoding = .padded ∧ byteWidth high.toNat < byteWidth value.toNat) := by
  obtain ⟨interval, hlow, hhigh, hcompile⟩ := Session.compile_start_of_le options h
  refine ⟨Automaton.compile options interval, hcompile, ?_⟩
  intro value
  constructor
  · rw [Automaton.accepts_compile_iff_mem, Interval.mem_iff, hlow, hhigh,
      UInt64.le_iff_toNat_le, UInt64.le_iff_toNat_le]
  · rw [← hhigh]
    exact Automaton.walk_compile_eq_unencodable_iff

/-- The padded automaton for `[0xff, 0x20100]`, with shared nodes. -/
theorem compile_accepts_iff_carry :
    (0xff : UInt64) ≤ 0x20100 ∧
      ∃ automaton,
        ((Session.start ⟨.padded, true⟩).compile 0xff 0x20100).1 = .ok automaton ∧
        ∀ value : UInt64,
          (automaton.accepts value = true ↔ 0xff ≤ value ∧ value ≤ 0x20100) ∧
          (automaton.walk value = ⟨false, [.unencodable value 3]⟩ ↔
            3 < byteWidth value.toNat) := by
  refine ⟨by decide, ?_⟩
  have hwidth : byteWidth (0x20100 : UInt64).toNat = 3 := by decide
  simpa only [hwidth, true_and] using
    compile_accepts_iff ⟨.padded, true⟩ (by decide : (0xff : UInt64) ≤ 0x20100)

end IntervalAutomata
