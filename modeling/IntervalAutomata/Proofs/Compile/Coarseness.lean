import IntervalAutomata.Proofs.Compile.Shape

/-!
# Edges as coarse as possible

An edge gathers the bytes that lead to one child. At a node of a compiled automaton no more bytes
could be gathered: the children of any two edges accept different sequences (`Node.Coarse`).

* **Bands have children of their own** (`coarse_treeFor`): the children of two bands are asked for
  different bounds, and different bounds are spelled differently.
* **An edge is a class of bytes** (`Node.exists_edge_iff`): where the edges ascend, no two are alike
  and no child is a dead end, two bytes lie on one edge iff some sequence may follow the one and the
  same sequences may follow the other.

The main statement (`Automaton.edges_coarse_of_reaches`) says this of every node of a compiled
automaton, with the number of its edges.
-/

namespace IntervalAutomata

/-! ## Edges of a node -/

namespace Node

/-- The children of any two edges accept different sequences. -/
def Coarse (edges : List (Edge Node)) : Prop :=
  edges.Pairwise fun first second =>
    ¬ ∀ bytes, first.child.accepts bytes = second.child.accepts bytes

/-- A renaming of the children keeps what they accept. -/
theorem coarse_map_rename (f : Nat → Nat) {edges : List (Edge Node)} :
    Coarse (edges.map (Edge.rename f)) ↔ Coarse edges := by
  unfold Coarse
  rw [List.pairwise_map]
  simp only [Edge.rename, accepts_rename]

/-- Two edges whose children accept the same are one edge. -/
theorem Coarse.eq_of_accepts_eq {edges : List (Edge Node)} (h : Coarse edges)
    {first second : Edge Node} (hfirst : first ∈ edges) (hsecond : second ∈ edges)
    (haccepts : ∀ bytes, first.child.accepts bytes = second.child.accepts bytes) :
    first = second := by
  induction edges with
  | nil => cases hfirst
  | cons edge edges ih =>
      obtain ⟨hedge, hedges⟩ := List.pairwise_cons.mp h
      rcases List.mem_cons.mp hfirst with rfl | hmem
      · rcases List.mem_cons.mp hsecond with rfl | hmem'
        · rfl
        · exact absurd haccepts (hedge second hmem')
      · rcases List.mem_cons.mp hsecond with rfl | hmem'
        · exact absurd (fun bytes => (haccepts bytes).symm) (hedge first hmem)
        · exact ih hedges hmem hmem'

/-- **Edges are classes of bytes.** Two bytes lie on one edge iff some sequence may follow the first
and the second may be followed by the same sequences. -/
theorem exists_edge_iff {node : Node} (hascending : Ascending node.edges)
    (hcoarse : Coarse node.edges)
    (halive : ∀ edge ∈ node.edges, ∃ rest, edge.child.accepts rest = true) {byte byte' : UInt8} :
    (∃ edge ∈ node.edges, byte ∈ edge.range ∧ byte' ∈ edge.range) ↔
      (∃ rest, node.accepts (byte :: rest) = true) ∧
        ∀ rest, node.accepts (byte :: rest) = node.accepts (byte' :: rest) := by
  constructor
  · rintro ⟨edge, hedge, hbyte, hbyte'⟩
    have hfor := (edgeFor?_eq_some_iff hascending).mpr ⟨hedge, hbyte⟩
    have hfor' := (edgeFor?_eq_some_iff hascending).mpr ⟨hedge, hbyte'⟩
    obtain ⟨rest, hrest⟩ := halive edge hedge
    refine ⟨⟨rest, ?_⟩, ?_⟩
    · rw [accepts_cons_of_some hfor, hrest]
    · intro rest
      rw [accepts_cons_of_some hfor, accepts_cons_of_some hfor']
  · rintro ⟨⟨rest, hrest⟩, hsame⟩
    obtain ⟨edge, hedge, hbyte, -⟩ := (accepts_cons_iff hascending rest).mp hrest
    obtain ⟨edge', hedge', hbyte', -⟩ :=
      (accepts_cons_iff hascending rest).mp ((hsame rest).symm.trans hrest)
    have hfor := (edgeFor?_eq_some_iff hascending).mpr ⟨hedge, hbyte⟩
    have hfor' := (edgeFor?_eq_some_iff hascending).mpr ⟨hedge', hbyte'⟩
    have hchildren : ∀ bytes, edge.child.accepts bytes = edge'.child.accepts bytes := by
      intro bytes
      rw [← accepts_cons_of_some hfor, ← accepts_cons_of_some hfor', hsame bytes]
    obtain rfl := hcoarse.eq_of_accepts_eq hedge hedge' hchildren
    exact ⟨edge, hedge, hbyte, hbyte'⟩

end Node

/-! ## Edges of a place -/

section treeFor

variable {encoding : Encoding} {width levels depth low high : Nat}

/-- Bands that are asked for different bounds have children that accept different sequences. -/
theorem not_accepts_childFor_eq (h : Placed width (levels + 1) depth low high) {first second : Band}
    (hfirst : first ∈ (levelFor encoding levels depth low high).bands)
    (hsecond : second ∈ (levelFor encoding levels depth low high).bands)
    (hbounds : first.childLow ≠ second.childLow ∨ first.childHigh ≠ second.childHigh) :
    ¬ ∀ bytes,
      (childFor encoding levels depth (levelFor encoding levels depth low high) first).accepts
          bytes =
        (childFor encoding levels depth (levelFor encoding levels depth low high) second).accepts
          bytes := by
  intro haccepts
  have hspells : ∀ bytes,
      encoding.Spells levels (depth + 1) first.childLow first.childHigh bytes ↔
        encoding.Spells levels (depth + 1) second.childLow second.childHigh bytes := by
    intro bytes
    rw [← accepts_treeFor (h.child hfirst), ← accepts_treeFor (h.child hsecond),
      ← childFor_eq_treeFor hfirst, ← childFor_eq_treeFor hsecond, haccepts bytes]
  have hkey := (h.child hfirst).key_eq_of_spells_iff (h.child hsecond) hspells
  cases encoding <;> simp only [Key.of, Key.mk.injEq] at hkey <;> omega

/-- The edges of every tree are coarse. -/
theorem coarse_treeFor (h : Placed width levels depth low high) :
    Node.Coarse (treeFor encoding levels depth low high).edges := by
  cases levels with
  | zero => exact List.Pairwise.nil
  | succ levels =>
      rw [treeFor_succ, Node.edges_mk, Node.Coarse, List.pairwise_filterMap]
      have hvalid : (levelFor encoding levels depth low high).Valid := h.valid
      refine hvalid.pairwise_child_bands.imp_of_mem ?_
      intro first second hfirst hsecond hbounds edge hedge edge' hedge'
      simp only [Band.edge?, Option.map_eq_some_iff] at hedge hedge'
      obtain ⟨range, -, rfl⟩ := hedge
      obtain ⟨range', -, rfl⟩ := hedge'
      exact not_accepts_childFor_eq h hfirst hsecond hbounds

/-- A tree has at most one edge for each band of its level. -/
theorem length_edges_treeFor_le (encoding : Encoding) (levels depth low high : Nat) :
    (treeFor encoding levels depth low high).edges.length ≤ 3 := by
  cases levels with
  | zero => exact Nat.zero_le 3
  | succ levels =>
      rw [treeFor_succ, Node.edges_mk]
      exact Nat.le_trans (List.length_filterMap_le _ _) (Level.length_bands_le _)

end treeFor

/-! ## Edges of a compiled automaton -/

namespace Automaton

variable {options : CompileOptions} {interval : Interval} {node : Node}

/-- **Edges are as coarse as possible.** At every node of a compiled automaton the children of any
two edges accept different sequences. So two bytes lie on one edge iff some sequence may follow the
first and the second may be followed by the same sequences; and there are at most three edges. -/
theorem edges_coarse_of_reaches (h : (compile options interval).root.Reaches node) :
    Node.Coarse node.edges ∧
    (∀ byte byte' : UInt8, (∃ edge ∈ node.edges, byte ∈ edge.range ∧ byte' ∈ edge.range) ↔
      (∃ rest, node.accepts (byte :: rest) = true) ∧
        ∀ rest, node.accepts (byte :: rest) = node.accepts (byte' :: rest)) ∧
    node.edges.length ≤ 3 := by
  obtain ⟨ranges, hpath⟩ := h
  obtain ⟨levels, low, high, hplaced, hnode⟩ := exists_unfolded_of_path_root hpath
  have hedges : node.edges.map (Edge.rename fun _ => 0) =
      (treeFor options.encoding levels ranges.length low high).edges := by
    rw [← hnode, Node.unfolded, Node.edges_rename]
  have hcoarse : Node.Coarse node.edges := by
    rw [← Node.coarse_map_rename fun _ => 0, hedges]
    exact coarse_treeFor hplaced
  refine ⟨hcoarse, ?_, ?_⟩
  · intro byte byte'
    apply Node.exists_edge_iff (ascending_of_reaches ⟨ranges, hpath⟩) hcoarse
    intro edge hedge
    exact exists_accepts_of_reaches (Node.Reaches.child ⟨ranges, hpath⟩ hedge)
  · calc node.edges.length
        = (node.edges.map (Edge.rename fun _ => 0)).length := (List.length_map _).symm
      _ = (treeFor options.encoding levels ranges.length low high).edges.length := by rw [hedges]
      _ ≤ 3 := length_edges_treeFor_le _ _ _ _ _

/-- In the padded automaton for `[0xf000, 0x30fff]` three edges leave the node after one byte. The
bytes `10` and `ef` lie on one of them, and `0f` does not. -/
theorem edges_coarse_of_reaches_gap :
    ∃ node,
      (compile ⟨.padded, true⟩ ⟨0xf000, 0x30fff, by decide, by decide⟩).root.follow? [7] =
        some node ∧
      (Node.Coarse node.edges ∧ node.edges.length = 3) ∧
      (∀ rest, node.accepts (0x10 :: rest) = node.accepts (0xef :: rest)) ∧
      ¬ ∀ rest, node.accepts (0x0f :: rest) = node.accepts (0x10 :: rest) := by
  have hnode : ((compile ⟨.padded, true⟩ ⟨0xf000, 0x30fff, by decide, by decide⟩).root.follow?
      [7]).map (fun node => (node.edges.map fun edge => (edge.range.low, edge.range.high),
        node.accepts [0x0f, 1])) = some ([(0, 0x0f), (0x10, 0xef), (0xf0, 0xff)], true) := by
    decide
  obtain ⟨node, hfollow, hfacts⟩ := Option.map_eq_some_iff.mp hnode
  obtain ⟨hranges, haccepts⟩ := Prod.mk.inj hfacts
  obtain ⟨hcoarse, hsame, -⟩ := edges_coarse_of_reaches (Node.reaches_of_follow? hfollow)
  have hlength : node.edges.length = 3 := by
    simpa using congrArg List.length hranges
  refine ⟨node, hfollow, ⟨hcoarse, hlength⟩, ?_, ?_⟩
  · apply ((hsame 0x10 0xef).mp _).2
    have hmem : (0x10, 0xef) ∈ node.edges.map fun edge => (edge.range.low, edge.range.high) := by
      rw [hranges]
      decide
    obtain ⟨edge, hedge, hrange⟩ := List.mem_map.mp hmem
    obtain ⟨hlow, hhigh⟩ := Prod.mk.inj hrange
    refine ⟨edge, hedge, ?_, ?_⟩
    · rw [ByteRange.mem_iff, hlow, hhigh]
      decide
    · rw [ByteRange.mem_iff, hlow, hhigh]
      decide
  · intro hcontinue
    obtain ⟨edge, hedge, hbyte, hbyte'⟩ := (hsame 0x0f 0x10).mpr ⟨⟨[1], haccepts⟩, hcontinue⟩
    have hmem : (edge.range.low, edge.range.high) ∈
        [(0, 0x0f), (0x10, 0xef), (0xf0, 0xff)] := by
      rw [← hranges]
      exact List.mem_map_of_mem hedge
    simp only [List.mem_cons, Prod.mk.injEq, List.not_mem_nil, or_false] at hmem
    have hlow : edge.range.low ≤ 0x0f := hbyte.1
    have hhigh : 0x10 ≤ edge.range.high := hbyte'.2
    omega

end Automaton

end IntervalAutomata
