import IntervalAutomata.Compile.Build
import IntervalAutomata.Interval.Basic
import IntervalAutomata.Proofs.Encoding.Canonical
import IntervalAutomata.Proofs.Level.Cover
import IntervalAutomata.Proofs.Node.Ascending
import Mathlib.Data.List.Basic

/-!
# The tree for an interval

`treeFor` is the recursion of `build` without store, identities and reports: the tree that a node
for given bounds should unfold to. Nodes are compared with it, and what they accept is decided on
it.

* **The recursion keeps its bounds** (`Placed`): they are in order, and the levels that are left
  suffice for the upper one. This holds of a whole interval (`Placed.ofInterval`) and passes from a
  node to its children (`Placed.child`).
* **The edges ascend** at every node (`ascending_treeFor`).
* **Under the minimal encoding the depth does not matter** below the root, and neither does the
  number of levels, as long as they suffice (`treeFor_minimal_congr`).
-/

namespace IntervalAutomata

/-! ## Definitions -/

/-- The edge of a band that has bytes, given what lies below each band. -/
def Band.edge? (child : Band → Node) (band : Band) : Option (Edge Node) :=
  band.range?.map fun range => ⟨range, child band⟩

/-- The tree for the bounds `low` and `high` at a depth, with the given number of levels from there
to the last byte of the upper bound. -/
def treeFor (encoding : Encoding) : (levels depth low high : Nat) → Node
  | 0, depth, low, _ => .mk 0 (acceptsAt encoding 0 depth low) []
  | levels + 1, depth, low, high =>
    let accepting := acceptsAt encoding (levels + 1) depth low
    let level := Level.ofBounds low high accepting
    .mk 0 accepting <| level.bands.filterMap <| Band.edge? fun band =>
      if level.layout = .singleByte ∧ encoding = .minimal then .mk 0 true []
      else treeFor encoding levels (depth + 1) band.childLow band.childHigh

/-- The level of a node above others. -/
def levelFor (encoding : Encoding) (levels depth low high : Nat) : Level :=
  Level.ofBounds low high (acceptsAt encoding (levels + 1) depth low)

/-- What lies below a band of a level. -/
def childFor (encoding : Encoding) (levels depth : Nat) (level : Level) (band : Band) : Node :=
  if level.layout = .singleByte ∧ encoding = .minimal then .mk 0 true []
  else treeFor encoding levels (depth + 1) band.childLow band.childHigh

/-- At the end of the values the tree is a leaf. -/
theorem treeFor_zero (encoding : Encoding) (depth low high : Nat) :
    treeFor encoding 0 depth low high = .mk 0 (acceptsAt encoding 0 depth low) [] := rfl

/-- The tree of a call has an edge for every band of its level. -/
theorem treeFor_succ (encoding : Encoding) (levels depth low high : Nat) :
    treeFor encoding (levels + 1) depth low high =
      .mk 0 (acceptsAt encoding (levels + 1) depth low)
        ((levelFor encoding levels depth low high).bands.filterMap
          (Band.edge? (childFor encoding levels depth
            (levelFor encoding levels depth low high)))) := rfl

/-- The place of a call in a compilation that goes down `width` levels. -/
structure Placed (width levels depth low high : Nat) : Prop where
  /-- The bounds are in order. -/
  low_le_high : low ≤ high
  /-- The levels that are left suffice for the upper bound. -/
  high_lt : high < 256 ^ levels
  /-- The depth and the levels that are left make up the width. -/
  depth_add_levels : depth + levels = width
  /-- There is at least one level. -/
  width_pos : 0 < width

/-! ## Places -/

/-- Above the last level the nodes below the root accept zero under the minimal encoding, and no
others do. -/
theorem acceptsAt_succ_iff {encoding : Encoding} {levels depth low : Nat} :
    acceptsAt encoding (levels + 1) depth low = true ↔
      encoding = .minimal ∧ depth ≠ 0 ∧ low = 0 := by
  cases encoding <;> simp [acceptsAt]

/-- Bounds in order make a valid level. -/
theorem valid_levelFor (encoding : Encoding) (levels depth : Nat) {low high : Nat}
    (h : low ≤ high) : (levelFor encoding levels depth low high).Valid := by
  apply Level.valid_ofBounds h
  intro haccepts
  exact (acceptsAt_succ_iff.mp haccepts).2.2

namespace Placed

/-- The root of a compilation has its place. -/
theorem ofInterval (i : Interval) :
    Placed (byteWidth i.high) (byteWidth i.high) 0 i.low i.high where
  low_le_high := i.low_le_high
  high_lt := lt_pow_byteWidth i.high
  depth_add_levels := Nat.zero_add _
  width_pos := byteWidth_pos i.high

variable {width levels depth low high : Nat} {encoding : Encoding} {band : Band}

/-- The level of a call that has its place is valid. -/
theorem valid (h : Placed width (levels + 1) depth low high) :
    (levelFor encoding levels depth low high).Valid :=
  valid_levelFor encoding levels depth h.low_le_high

/-- The bounds of a child have a place one level below. -/
theorem child (h : Placed width (levels + 1) depth low high)
    (hband : band ∈ (levelFor encoding levels depth low high).bands) :
    Placed width levels (depth + 1) band.childLow band.childHigh := by
  have suits := h.valid.suits_of_mem hband
  refine ⟨suits.child_le, ?_, ?_, h.width_pos⟩
  · have hhigh : band.childHigh ≤ high / 256 := suits.childHigh_le
    have hlt := h.high_lt
    rw [Nat.pow_succ] at hlt
    omega
  · have hdepth := h.depth_add_levels
    omega

/-- With no level left the bounds are zero, and the node is not the root. -/
theorem eq_zero (h : Placed width 0 depth low high) : low = 0 ∧ high = 0 ∧ 0 < depth := by
  obtain ⟨hle, hlt, hdepth, hpos⟩ := h
  rw [Nat.pow_zero] at hlt
  omega

end Placed

/-! ## The edges of one level -/

/-- The edges of bands have the bytes of a band and the child that belongs to it. -/
theorem Band.mem_filterMap_edge? {child : Band → Node} {bands : List Band} {edge : Edge Node} :
    edge ∈ bands.filterMap (Band.edge? child) ↔
      ∃ band ∈ bands, edge.range.low = band.low ∧ edge.range.high = band.high ∧
        edge.child = child band := by
  simp only [List.mem_filterMap, Band.edge?, Band.range?, Option.map_eq_some_iff,
    ByteRange.ofNat?_eq_some_iff]
  constructor
  · rintro ⟨band, hband, range, ⟨hlow, hhigh⟩, rfl⟩
    exact ⟨band, hband, hlow, hhigh, rfl⟩
  · rintro ⟨band, hband, hlow, hhigh, hchild⟩
    refine ⟨band, hband, edge.range, ⟨hlow, hhigh⟩, ?_⟩
    rw [← hchild]

/-- A band with a byte has a range with it. -/
theorem Band.exists_range?_of_mem {band : Band} {byte : UInt8} (hlt : band.high < 256)
    (hlo : band.low ≤ byte.toNat) (hhi : byte.toNat ≤ band.high) :
    ∃ range, band.range? = some range ∧ byte ∈ range := by
  obtain ⟨range, hrange⟩ : ∃ range, band.range? = some range := by
    rw [← Option.isSome_iff_exists, Band.range?, ByteRange.ofNat?_isSome_iff]
    omega
  obtain ⟨hlow, hhigh⟩ := ByteRange.ofNat?_eq_some_iff.mp hrange
  refine ⟨range, hrange, ?_⟩
  rw [ByteRange.mem_iff, hlow, hhigh]
  exact ⟨hlo, hhi⟩

/-- A band with a byte has an edge with it. -/
theorem Band.exists_edge?_of_mem {child : Band → Node} {band : Band} {byte : UInt8}
    (hlt : band.high < 256) (hlo : band.low ≤ byte.toNat) (hhi : byte.toNat ≤ band.high) :
    ∃ edge, band.edge? child = some edge ∧ byte ∈ edge.range ∧ edge.child = child band := by
  obtain ⟨range, hrange, hbyte⟩ := Band.exists_range?_of_mem hlt hlo hhi
  exact ⟨⟨range, child band⟩, by rw [Band.edge?, hrange]; rfl, hbyte, rfl⟩

/-- Bands with the same children have the same edges. -/
theorem Band.filterMap_edge?_congr {child child' : Band → Node} {bands : List Band}
    (h : ∀ band ∈ bands, child band = child' band) :
    bands.filterMap (Band.edge? child) = bands.filterMap (Band.edge? child') := by
  refine List.filterMap_congr ?_
  intro band hband
  rw [Band.edge?, Band.edge?, h band hband]

/-- The edges of bands that ascend do so too. -/
theorem Band.ascending_filterMap_edge? (child : Band → Node) {bands : List Band}
    (h : bands.Pairwise fun first second => first.high < second.low) :
    Node.Ascending (bands.filterMap (Band.edge? child)) := by
  rw [Node.Ascending, List.pairwise_filterMap]
  refine h.imp ?_
  intro first second hlt e he e' he'
  simp only [Band.edge?, Band.range?, Option.map_eq_some_iff,
    ByteRange.ofNat?_eq_some_iff] at he he'
  obtain ⟨range, ⟨-, hhigh⟩, rfl⟩ := he
  obtain ⟨range', ⟨hlow, -⟩, rfl⟩ := he'
  dsimp only
  omega

section treeFor

variable {width width' levels levels' depth depth' low high : Nat} {encoding : Encoding}

/-- The edges of the tree of a call ascend. -/
theorem ascending_treeFor (h : Placed width levels depth low high) :
    Node.Ascending (treeFor encoding levels depth low high).edges := by
  cases levels with
  | zero => exact List.Pairwise.nil
  | succ levels => exact Band.ascending_filterMap_edge? _ h.valid.pairwise_bands

/-! ## The minimal encoding below the root -/

/-- The number zero is spelled by no byte: its node has no edge. -/
theorem treeFor_minimal_zero (hdepth : 0 < depth) :
    treeFor .minimal levels depth 0 0 = .mk 0 true [] := by
  cases levels with
  | zero =>
      have haccepts : acceptsAt .minimal 0 depth 0 = true := by simp [acceptsAt]; omega
      rw [treeFor_zero, haccepts]
  | succ levels =>
      have haccepts : acceptsAt .minimal (levels + 1) depth 0 = true :=
        acceptsAt_succ_iff.mpr ⟨rfl, Nat.ne_of_gt hdepth, rfl⟩
      rw [treeFor_succ, levelFor, haccepts]
      rfl

/-- Two places with the same bounds below the root have the same tree. -/
theorem treeFor_minimal_congr (h : Placed width levels depth low high)
    (h' : Placed width' levels' depth' low high) (hdepth : 0 < depth) (hdepth' : 0 < depth') :
    treeFor .minimal levels depth low high = treeFor .minimal levels' depth' low high := by
  induction levels generalizing levels' depth depth' low high with
  | zero =>
      obtain ⟨rfl, rfl, -⟩ := h.eq_zero
      rw [treeFor_minimal_zero hdepth, treeFor_minimal_zero hdepth']
  | succ levels ih =>
      cases levels' with
      | zero =>
          obtain ⟨rfl, rfl, -⟩ := h'.eq_zero
          rw [treeFor_minimal_zero hdepth, treeFor_minimal_zero hdepth']
      | succ levels' =>
          have haccepts : acceptsAt .minimal (levels + 1) depth low =
              acceptsAt .minimal (levels' + 1) depth' low := by
            rw [Bool.eq_iff_iff, acceptsAt_succ_iff, acceptsAt_succ_iff]
            simp only [true_and]
            omega
          have hlevel : levelFor .minimal levels depth low high =
              levelFor .minimal levels' depth' low high := by
            rw [levelFor, levelFor, haccepts]
          have hchild : ∀ band ∈ (levelFor .minimal levels depth low high).bands,
              childFor .minimal levels depth (levelFor .minimal levels depth low high) band =
                childFor .minimal levels' depth' (levelFor .minimal levels depth low high)
                  band := by
            intro band hband
            have hband' := hband
            rw [hlevel] at hband'
            rw [childFor, childFor, ih (h.child hband) (h'.child hband') (Nat.succ_pos _)
              (Nat.succ_pos _)]
          rw [treeFor_succ, treeFor_succ, ← haccepts, ← hlevel,
            Band.filterMap_edge?_congr hchild]

end treeFor

end IntervalAutomata
