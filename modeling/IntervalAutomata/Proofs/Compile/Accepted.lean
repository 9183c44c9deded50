import IntervalAutomata.Proofs.Compile.Tree

/-!
# What the tree for an interval accepts

At each depth some byte sequences may follow whatever the bounds are (`Encoding.Continues`), and
each of them is read as a number. The tree for two bounds accepts those that are read as a number
between them (`Encoding.Spells`, `accepts_treeFor`). The proof follows the recursion: one byte is
decided by the bands of its level (`accepts_cons_treeFor`), and what the level says of the byte and
the rest (`holds_levelFor_iff`) is what it says of the number they make.
-/

namespace IntervalAutomata

/-- The byte sequences that may follow at a depth, whatever the bounds are. Under the padded
encoding they have one byte for each level that is left. Under the minimal encoding they are
trimmed, but a first byte must come at the root and may be zero there. -/
def Encoding.Continues (encoding : Encoding) (levels depth : Nat) (bytes : List UInt8) : Prop :=
  match encoding with
  | .minimal => if depth = 0 then bytes ≠ [] ∧ Trimmed bytes.tail else Trimmed bytes
  | .padded => bytes.length = levels

/-- The byte sequences that may follow at a depth and are read as numbers between the bounds. -/
def Encoding.Spells (encoding : Encoding) (levels depth low high : Nat) (bytes : List UInt8) :
    Prop :=
  encoding.Continues levels depth bytes ∧ low ≤ ofLittleEndian bytes ∧ ofLittleEndian bytes ≤ high

section accepts

variable {width levels depth low high : Nat} {encoding : Encoding}

/-! ## What may follow -/

/-- A node accepts iff the empty sequence may follow and the number zero lies between the bounds. -/
theorem acceptsAt_iff (encoding : Encoding) (h : Placed width levels depth low high) :
    acceptsAt encoding levels depth low = true ↔
      encoding.Continues levels depth [] ∧ low = 0 := by
  cases encoding with
  | minimal =>
      by_cases hdepth : depth = 0 <;> simp [acceptsAt, Encoding.Continues, hdepth, trimmed_nil]
  | padded =>
      cases levels with
      | zero =>
          obtain ⟨rfl, -, hdepth⟩ := h.eq_zero
          simp [acceptsAt, Encoding.Continues]
          omega
      | succ levels => simp [acceptsAt, Encoding.Continues]

/-- What may follow byte by byte. Only the minimal encoding below the root asks for more than that
the rest may follow, namely that not all is zero. -/
theorem Encoding.continues_cons_iff {byte : UInt8} {bytes : List UInt8} :
    encoding.Continues (levels + 1) depth (byte :: bytes) ↔
      encoding.Continues levels (depth + 1) bytes ∧
        (encoding = .minimal → depth ≠ 0 → 0 < ofLittleEndian (byte :: bytes)) := by
  cases encoding with
  | minimal =>
      by_cases hdepth : depth = 0
      · simp [Encoding.Continues, hdepth]
      · rw [Encoding.Continues, Encoding.Continues, if_neg hdepth,
          if_neg (Nat.succ_ne_zero depth), trimmed_cons_iff]
        constructor
        · rintro ⟨htrim, hpos⟩
          refine ⟨htrim, ?_⟩
          intro _ _
          exact hpos
        · rintro ⟨htrim, hpos⟩
          exact ⟨htrim, hpos rfl hdepth⟩
  | padded => simp [Encoding.Continues]

/-- With no level left no sequence but the empty one spells a number. -/
theorem Encoding.not_spells_cons (hdepth : 0 < depth) {byte : UInt8} {bytes : List UInt8} :
    ¬ encoding.Spells 0 depth 0 0 (byte :: bytes) := by
  rintro ⟨hcont, -, hzero⟩
  cases encoding with
  | minimal =>
      rw [Encoding.Continues, if_neg (by omega)] at hcont
      have hpos := hcont.pos
      omega
  | padded => exact Nat.succ_ne_zero _ hcont

/-- The level of a node has the numbers between the bounds, without zero if the node accepts. -/
theorem holds_levelFor_iff {byte rest : Nat} :
    (levelFor encoding levels depth low high).Holds byte rest ↔
      (encoding = .minimal → depth ≠ 0 → 0 < 256 * rest + byte) ∧
        low ≤ 256 * rest + byte ∧ 256 * rest + byte ≤ high := by
  rw [Level.Holds, levelFor, Level.least_ofBounds, Level.greatest_ofBounds]
  split
  · rename_i haccepts
    obtain ⟨rfl, hdepth, rfl⟩ := acceptsAt_succ_iff.mp haccepts
    simp only [forall_const, ne_eq, hdepth, not_false_eq_true]
    omega
  · rename_i hrejects
    rw [acceptsAt_succ_iff] at hrejects
    constructor
    · rintro ⟨hlo, hhi⟩
      refine ⟨?_, hlo, hhi⟩
      intro hminimal hdepth
      have hlow : low ≠ 0 := by
        intro hzero
        exact hrejects ⟨hminimal, hdepth, hzero⟩
      omega
    · rintro ⟨-, hlo, hhi⟩
      exact ⟨hlo, hhi⟩

/-! ## What the tree accepts -/

/-- A node without edges accepts no byte. -/
theorem Node.accepts_cons_leaf (i : Nat) (a : Bool) (byte : UInt8) (bytes : List UInt8) :
    (Node.mk i a []).accepts (byte :: bytes) = false :=
  Node.accepts_cons_of_none rfl bytes

/-- A sequence with a first byte is decided by the child of the band with that byte. -/
theorem accepts_cons_treeFor (h : Placed width (levels + 1) depth low high) (byte : UInt8)
    (bytes : List UInt8) :
    (treeFor encoding (levels + 1) depth low high).accepts (byte :: bytes) = true ↔
      ∃ band ∈ (levelFor encoding levels depth low high).bands,
        (band.low ≤ byte.toNat ∧ byte.toNat ≤ band.high) ∧
        (childFor encoding levels depth (levelFor encoding levels depth low high)
          band).accepts bytes = true := by
  rw [Node.accepts_cons_iff (ascending_treeFor h), treeFor_succ, Node.edges_mk]
  constructor
  · rintro ⟨edge, hedge, hbyte, haccepts⟩
    obtain ⟨band, hband, hlow, hhigh, hchild⟩ := Band.mem_filterMap_edge?.mp hedge
    rw [ByteRange.mem_iff, hlow, hhigh] at hbyte
    exact ⟨band, hband, hbyte, hchild ▸ haccepts⟩
  · rintro ⟨band, hband, ⟨hlo, hhi⟩, haccepts⟩
    have hlt := (h.valid.suits_of_mem hband).high_lt
    obtain ⟨edge, hedge, hbyte, hchild⟩ := Band.exists_edge?_of_mem hlt hlo hhi
    exact ⟨edge, List.mem_filterMap.mpr ⟨band, hband, hedge⟩, hbyte, hchild ▸ haccepts⟩

/-- If the tree below accepts what it should, so does the child of a band: where the last byte has
been read, the bounds of the child are zero. -/
theorem accepts_childFor {band : Band}
    (hband : band ∈ (levelFor encoding levels depth low high).bands) {bytes : List UInt8}
    (hbelow : (treeFor encoding levels (depth + 1) band.childLow band.childHigh).accepts
        bytes = true ↔
      encoding.Spells levels (depth + 1) band.childLow band.childHigh bytes) :
    (childFor encoding levels depth (levelFor encoding levels depth low high) band).accepts
        bytes = true ↔
      encoding.Spells levels (depth + 1) band.childLow band.childHigh bytes := by
  rw [childFor]
  split
  · rename_i hlast
    obtain ⟨hlayout, rfl⟩ := hlast
    obtain ⟨hlow, hhigh⟩ := Level.child_of_singleByte hlayout hband
    have hspells : Encoding.minimal.Spells levels (depth + 1) 0 0 bytes ↔ bytes = [] := by
      rw [Encoding.Spells, Encoding.Continues, if_neg (Nat.succ_ne_zero depth),
        ← trimmed_and_eq_zero_iff]
      simp
    rw [hlow, hhigh, hspells]
    cases bytes with
    | nil => simp
    | cons byte bytes => simp [Node.accepts_cons_leaf]
  · exact hbelow

/-- **What the tree accepts**: the sequences that may follow at its depth and are read as numbers
between the bounds. -/
theorem accepts_treeFor (h : Placed width levels depth low high) (bytes : List UInt8) :
    (treeFor encoding levels depth low high).accepts bytes = true ↔
      encoding.Spells levels depth low high bytes := by
  induction levels generalizing depth low high bytes with
  | zero =>
      have haccepting := acceptsAt_iff encoding h
      obtain ⟨rfl, rfl, hdepth⟩ := h.eq_zero
      rw [treeFor_zero]
      cases bytes with
      | nil => simpa [Encoding.Spells] using haccepting
      | cons byte bytes =>
          rw [Node.accepts_cons_leaf]
          simp only [Bool.false_eq_true, false_iff]
          exact Encoding.not_spells_cons hdepth
  | succ levels ih =>
      cases bytes with
      | nil =>
          rw [treeFor_succ, Node.accepts_nil, Node.accepting_mk, acceptsAt_iff encoding h]
          simp [Encoding.Spells]
      | cons byte bytes =>
          have hchild : ∀ band ∈ (levelFor encoding levels depth low high).bands,
              (childFor encoding levels depth (levelFor encoding levels depth low high)
                band).accepts bytes = true ↔
              encoding.Spells levels (depth + 1) band.childLow band.childHigh bytes := by
            intro band hband
            exact accepts_childFor hband (ih (h.child hband) bytes)
          calc (treeFor encoding (levels + 1) depth low high).accepts (byte :: bytes) = true
              ↔ ∃ band ∈ (levelFor encoding levels depth low high).bands,
                  (band.low ≤ byte.toNat ∧ byte.toNat ≤ band.high) ∧
                  encoding.Spells levels (depth + 1) band.childLow band.childHigh bytes := by
                rw [accepts_cons_treeFor h]
                apply exists_congr
                intro band
                apply and_congr_right
                intro hband
                rw [hchild band hband]
            _ ↔ encoding.Continues levels (depth + 1) bytes ∧
                  (levelFor encoding levels depth low high).Holds byte.toNat
                    (ofLittleEndian bytes) := by
                rw [← h.valid.exists_band_iff byte.toNat_lt]
                constructor
                · rintro ⟨band, hband, hbyte, hcont, hrest⟩
                  exact ⟨hcont, band, hband, hbyte, hrest⟩
                · rintro ⟨hcont, band, hband, hbyte, hrest⟩
                  exact ⟨band, hband, hbyte, hcont, hrest⟩
            _ ↔ encoding.Spells (levels + 1) depth low high (byte :: bytes) := by
                rw [holds_levelFor_iff, Encoding.Spells, Encoding.continues_cons_iff,
                  ofLittleEndian_cons, Nat.add_comm byte.toNat, and_assoc]

end accepts

end IntervalAutomata
