import IntervalAutomata.Proofs.Compile.Recognition
import IntervalAutomata.Proofs.Compile.Residual
import IntervalAutomata.Proofs.Compile.Words
import IntervalAutomata.Proofs.Node.Depth

/-!
# The shape of a compiled automaton

What a compiled automaton looks like, whatever its options: the edges of every node ascend, the root
does not accept, a node without edges does, and the longest path has as many edges as the upper
bound has bytes. Under the padded encoding the graph has layers besides: a node accepts, and has no
edges, iff it lies as many edges below the root as the upper bound has bytes. So all paths from the
root to a leaf are equally long (`Automaton.compile_shape`).

The edges ascend because the partition check finds no fault (`Automaton.partitionFault?_compile`).
All else is read off the sequences that the nodes accept. At the end of a path these are the
sequences that may follow at a place as far below the root as the path is long
(`Automaton.exists_placed_of_path_root`), under the padded encoding therefore sequences of one
length. It does not matter which layouts the levels have, nor where the bounds become zero.
-/

namespace IntervalAutomata

variable {encoding : Encoding} {width levels depth low high : Nat} {bytes : List UInt8}

/-! ## Places and lengths -/

/-- A sequence is at least as long as the number that it is read as needs. -/
theorem byteWidth_ofLittleEndian_le (h : bytes ≠ []) :
    byteWidth (ofLittleEndian bytes) ≤ bytes.length := by
  rw [byteWidth_le_iff (List.length_pos_iff.mpr h)]
  exact ofLittleEndian_lt bytes

namespace Placed

/-- At the root every number takes a byte. -/
theorem not_spells_root_nil (h : Placed width levels 0 low high) :
    ¬ encoding.Spells levels 0 low high [] := by
  rintro ⟨hcont, -, -⟩
  cases encoding with
  | minimal =>
      obtain ⟨hne, -⟩ := hcont
      exact hne rfl
  | padded =>
      have hlevels : 0 = levels := hcont
      have hsum := h.depth_add_levels
      have hpos := h.width_pos
      omega

/-- Under the padded encoding a sequence may end where no level is left. -/
theorem spells_padded_nil_iff (h : Placed width levels depth low high) :
    Encoding.padded.Spells levels depth low high [] ↔ levels = 0 := by
  constructor
  · rintro ⟨hlength, -, -⟩
    exact hlength.symm
  · rintro rfl
    obtain ⟨rfl, rfl, -⟩ := h.eq_zero
    exact ⟨rfl, Nat.le_refl 0, Nat.le_refl 0⟩

end Placed

namespace Automaton

variable {options : CompileOptions} {interval : Interval} {node : Node} {ranges : List ByteRange}

/-! ## Roots and leaves -/

/-- At every node of a compiled automaton the edges ascend. -/
theorem ascending_of_reaches (h : (compile options interval).root.Reaches node) :
    Node.Ascending node.edges := by
  have hcheck : (compile options interval).root.partitionFault? = none := partitionFault?_compile
  rw [Node.partitionFault?_eq_none_iff] at hcheck
  exact hcheck node h

/-- The root does not accept, as every value has at least one byte. -/
theorem accepting_root_compile : (compile options interval).root.accepting = false := by
  rw [← Node.accepts_nil, ← acceptsBytes, Bool.eq_false_iff, Ne, acceptsBytes_compile_iff_spells]
  exact (Placed.ofInterval interval).not_spells_root_nil

/-- A node without edges accepts, since every node accepts some sequence. -/
theorem accepting_of_isLeaf (h : (compile options interval).root.Reaches node)
    (hleaf : node.isLeaf = true) : node.accepting = true := by
  obtain ⟨bytes, haccepts⟩ := exists_accepts_of_reaches h
  obtain rfl := Node.eq_nil_of_accepts hleaf haccepts
  exact haccepts

/-! ## The longest path -/

/-- No path is longer than the width, since each edge takes one of its levels. -/
theorem depth_compile_le : (compile options interval).depth ≤ byteWidth interval.high := by
  obtain ⟨ranges, node, hpath, hlength⟩ :=
    Node.exists_path_length_eq_depth (compile options interval).root
  obtain ⟨levels, low, high, hplaced, -⟩ := exists_placed_of_path_root hpath
  have hsum := hplaced.depth_add_levels
  rw [depth, ← hlength]
  omega

/-- Some path is as long as the width, namely the one along the bytes of the upper bound. -/
theorem byteWidth_le_depth_compile :
    byteWidth interval.high ≤ (compile options interval).depth := by
  obtain ⟨bytes, hspells, hread⟩ : ∃ bytes,
      options.encoding.Spells (byteWidth interval.high) 0 interval.low interval.high bytes ∧
        ofLittleEndian bytes = interval.high :=
    (Placed.ofInterval interval).exists_spells interval.low_le_high (Nat.le_refl interval.high)
  have hne : bytes ≠ [] := by
    rintro rfl
    exact (Placed.ofInterval interval).not_spells_root_nil hspells
  have haccepts : (compile options interval).root.accepts bytes = true :=
    acceptsBytes_compile_iff_spells.mpr hspells
  calc byteWidth interval.high = byteWidth (ofLittleEndian bytes) := by rw [hread]
    _ ≤ bytes.length := byteWidth_ofLittleEndian_le hne
    _ ≤ (compile options interval).depth := Node.length_le_depth_of_accepts haccepts

/-! ## The layers of the padded encoding -/

/-- Under the padded encoding a node accepts iff it lies as deep as the width. -/
theorem accepting_iff_of_path (hpadded : options.encoding = .padded)
    (h : (compile options interval).root.Path ranges node) :
    node.accepting = true ↔ ranges.length = byteWidth interval.high := by
  obtain ⟨levels, low, high, hplaced, haccepts⟩ := exists_placed_of_path_root h
  have hsum := hplaced.depth_add_levels
  rw [← Node.accepts_nil, haccepts, hpadded, hplaced.spells_padded_nil_iff]
  omega

/-- Under the padded encoding a node as deep as the width accepts the empty sequence and no other,
so that no byte leads on. -/
theorem isLeaf_of_path_of_length_eq (hpadded : options.encoding = .padded)
    (h : (compile options interval).root.Path ranges node)
    (hlength : ranges.length = byteWidth interval.high) : node.isLeaf = true := by
  obtain ⟨levels, low, high, hplaced, haccepts⟩ := exists_placed_of_path_root h
  obtain rfl : levels = 0 := by
    have hsum := hplaced.depth_add_levels
    omega
  have hleaf : node.AcceptingLeaf := by
    apply Node.acceptingLeaf_of_accepts_iff
    · intro edge hedge
      exact exists_accepts_of_reaches (Node.Reaches.child ⟨ranges, h⟩ hedge)
    · intro bytes
      rw [haccepts, hpadded]
      constructor
      · rintro ⟨hnone, -, -⟩
        exact List.eq_nil_of_length_eq_zero hnone
      · rintro rfl
        exact hplaced.spells_padded_nil_iff.mpr rfl
  exact hleaf.isLeaf

/-- Under the padded encoding a node has no edges iff it lies as deep as the width. -/
theorem isLeaf_iff_of_path (hpadded : options.encoding = .padded)
    (h : (compile options interval).root.Path ranges node) :
    node.isLeaf = true ↔ ranges.length = byteWidth interval.high := by
  constructor
  · intro hleaf
    have haccepting : node.accepting = true := accepting_of_isLeaf ⟨ranges, h⟩ hleaf
    exact (accepting_iff_of_path hpadded h).mp haccepting
  · exact isLeaf_of_path_of_length_eq hpadded h

/-! ## The whole graph -/

/-- **The shape of a compiled automaton.** The partition check finds no fault, and the edges of
every node ascend, each wholly below all later ones. The root does not accept, a node without edges
does, and the longest path has as many edges as the upper bound has bytes. Under the padded encoding
a node accepts iff the path to it has that many edges, and it has no edges in the same case. -/
theorem compile_shape (options : CompileOptions) (interval : Interval) :
    (compile options interval).root.partitionFault? = none ∧
    (∀ node, (compile options interval).root.Reaches node → Node.Ascending node.edges) ∧
    (compile options interval).root.accepting = false ∧
    (∀ node, (compile options interval).root.Reaches node →
      node.isLeaf = true → node.accepting = true) ∧
    (compile options interval).depth = byteWidth interval.high ∧
    (options.encoding = .padded → ∀ ranges node,
      (compile options interval).root.Path ranges node →
        (node.accepting = true ↔ ranges.length = byteWidth interval.high) ∧
        (node.isLeaf = true ↔ ranges.length = byteWidth interval.high)) := by
  refine ⟨partitionFault?_compile, ?_, accepting_root_compile, ?_, ?_, ?_⟩
  · intro node hreaches
    exact ascending_of_reaches hreaches
  · intro node hreaches hleaf
    exact accepting_of_isLeaf hreaches hleaf
  · exact Nat.le_antisymm depth_compile_le byteWidth_le_depth_compile
  · intro hpadded ranges node hpath
    exact ⟨accepting_iff_of_path hpadded hpath, isLeaf_iff_of_path hpadded hpath⟩

/-- The padded automaton for `[0xff, 0x100]`, with shared nodes. After the first byte of `0xff` all
that is left is zero; still a second byte has to follow, and only then is the leaf reached. -/
theorem compile_shape_borrow :
    ∃ first second,
      (compile ⟨.padded, true⟩ ⟨0xff, 0x100, by decide, by decide⟩).root.follow? [0xff] =
        some first ∧
      (compile ⟨.padded, true⟩ ⟨0xff, 0x100, by decide, by decide⟩).root.follow? [0xff, 0] =
        some second ∧
      (Node.Ascending first.edges ∧ ¬ first.accepting = true ∧ ¬ first.isLeaf = true) ∧
      second.isLeaf = true ∧ second.accepting = true := by
  obtain ⟨-, hascending, -, hleaves, -, hlayers⟩ :=
    compile_shape ⟨.padded, true⟩ ⟨0xff, 0x100, by decide, by decide⟩
  have hwidth : byteWidth 0x100 = 2 := by decide
  obtain ⟨first, hfirst⟩ := Option.isSome_iff_exists.mp (show ((compile ⟨.padded, true⟩
    ⟨0xff, 0x100, by decide, by decide⟩).root.follow? [0xff]).isSome = true by decide)
  obtain ⟨second, hsecond⟩ := Option.isSome_iff_exists.mp (show ((compile ⟨.padded, true⟩
    ⟨0xff, 0x100, by decide, by decide⟩).root.follow? [0xff, 0]).isSome = true by decide)
  refine ⟨first, second, hfirst, hsecond, ?_, ?_⟩
  · obtain ⟨ranges, hpath, hlength⟩ := Node.exists_path_of_follow? hfirst
    obtain ⟨haccepting, hleaf⟩ := hlayers rfl ranges first hpath
    refine ⟨hascending first ⟨ranges, hpath⟩, ?_⟩
    rw [haccepting, hleaf, hlength, hwidth]
    decide
  · obtain ⟨ranges, hpath, hlength⟩ := Node.exists_path_of_follow? hsecond
    obtain ⟨-, hleaf⟩ := hlayers rfl ranges second hpath
    have hsecondLeaf : second.isLeaf = true := by
      rw [hleaf, hlength, hwidth]
      decide
    exact ⟨hsecondLeaf, hleaves second ⟨ranges, hpath⟩ hsecondLeaf⟩

end Automaton

end IntervalAutomata
