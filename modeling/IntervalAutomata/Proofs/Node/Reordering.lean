import IntervalAutomata.Automaton.Basic
import IntervalAutomata.Proofs.Node.Partition
import Mathlib.Data.List.Forall2

/-!
# Walks, and all paths along the same bytes

A walk takes the first edge that fits each byte and never goes back. It could miss an accepting path
that a later edge opens, and then the verdict would hang on the order of the edges. Neither happens
in a graph that passes the partition check (`Automaton.acceptsBytes_iff_acceptsAlong`):

* **A walk finds what any path finds** (`Node.accepts_iff_acceptsAlong`). All that is needed is that
  no two edges of a node share a byte (`Node.Apart`), in whatever order they stand.
* **The order of edges does not matter** (`Node.Reordered`). Reordering keeps paths in both
  directions (`Reordered.exists_path`, `Reordered.exists_path_of_reordered`), and it keeps edges
  apart, although they no longer ascend.
-/

namespace IntervalAutomata

namespace Node

/-! ## Acceptance along any path -/

/-- Some path, whose ranges contain the bytes one after the other, ends at an accepting node. -/
def AcceptsAlong (node : Node) (bytes : List UInt8) : Prop :=
  ∃ ranges target, node.Path ranges target ∧
    List.Forall₂ (fun byte range => byte ∈ range) bytes ranges ∧ target.accepting = true

variable {node : Node} {byte : UInt8} {bytes : List UInt8}

/-- The empty sequence is accepted along the path without edges. -/
theorem acceptsAlong_nil_iff : node.AcceptsAlong [] ↔ node.accepting = true := by
  constructor
  · rintro ⟨ranges, target, hpath, hbytes, haccepting⟩
    cases hbytes
    cases hpath
    exact haccepting
  · intro haccepting
    exact ⟨[], node, .here node, .nil, haccepting⟩

/-- A path along some bytes takes an edge with the first of them. -/
theorem acceptsAlong_cons_iff :
    node.AcceptsAlong (byte :: bytes) ↔
      ∃ edge ∈ node.edges, byte ∈ edge.range ∧ edge.child.AcceptsAlong bytes := by
  constructor
  · rintro ⟨ranges, target, hpath, hbytes, haccepting⟩
    cases hbytes with
    | cons hbyte hbytes =>
        cases hpath with
        | along hedge hbelow => exact ⟨_, hedge, hbyte, _, target, hbelow, hbytes, haccepting⟩
  · rintro ⟨edge, hedge, hbyte, ranges, target, hpath, hbytes, haccepting⟩
    exact ⟨edge.range :: ranges, target, .along hedge hpath, .cons hbyte hbytes, haccepting⟩

/-- Where the edges of every node are apart, a walk accepts iff some path does. -/
theorem accepts_iff_acceptsAlong (h : ∀ target, node.Reaches target → Apart target.edges) :
    node.accepts bytes = true ↔ node.AcceptsAlong bytes := by
  induction bytes generalizing node with
  | nil => rw [accepts_nil, acceptsAlong_nil_iff]
  | cons byte bytes ih =>
      rw [accepts_cons_iff_of_apart (h node (.refl node)), acceptsAlong_cons_iff]
      have hbelow : ∀ edge ∈ node.edges,
          (edge.child.accepts bytes = true ↔ edge.child.AcceptsAlong bytes) := by
        intro edge hedge
        apply ih
        intro target htarget
        exact h target (htarget.below hedge)
      constructor
      · rintro ⟨edge, hedge, hbyte, haccepts⟩
        exact ⟨edge, hedge, hbyte, (hbelow edge hedge).mp haccepts⟩
      · rintro ⟨edge, hedge, hbyte, halong⟩
        exact ⟨edge, hedge, hbyte, (hbelow edge hedge).mpr halong⟩

/-! ## The order of edges -/

/-- The second node arises from the first when the edges inside any of its nodes are put into
another order. -/
inductive Reordered : Node → Node → Prop where
  /-- Children are reordered in place, and then the edges that lead to them. -/
  | mk {i : Nat} {a : Bool} {es fs gs : List (Edge Node)}
      (ranges_eq : es.map Edge.range = fs.map Edge.range)
      (below : List.Forall₂ Reordered (es.map Edge.child) (fs.map Edge.child))
      (order : fs.Perm gs) : Reordered (mk i a es) (mk i a gs)

/-- Rows of edges with the same ranges and related children match edge by edge. -/
theorem exists_matching_edge {R : Node → Node → Prop} {es fs : List (Edge Node)}
    (hranges : es.map Edge.range = fs.map Edge.range)
    (hbelow : List.Forall₂ R (es.map Edge.child) (fs.map Edge.child)) {edge : Edge Node}
    (hedge : edge ∈ es) : ∃ edge' ∈ fs, edge'.range = edge.range ∧ R edge.child edge'.child := by
  induction es generalizing fs with
  | nil => cases hedge
  | cons e es ih =>
      cases fs with
      | nil => cases hbelow
      | cons f fs =>
          obtain ⟨hrange, hranges⟩ := List.cons_eq_cons.mp hranges
          obtain ⟨hchild, hbelow⟩ := List.forall₂_cons.mp hbelow
          rcases List.mem_cons.mp hedge with rfl | hedge
          · exact ⟨f, List.mem_cons_self, hrange.symm, hchild⟩
          · obtain ⟨edge', hmem, hmatch⟩ := ih hranges hbelow hedge
            exact ⟨edge', List.mem_cons_of_mem f hmem, hmatch⟩

namespace Reordered

variable {a b target : Node} {ranges : List ByteRange}

/-- A node is a reordering of itself. -/
theorem refl (node : Node) : node.Reordered node := by
  induction node using Node.induct with
  | step i a es ih =>
      refine .mk rfl ?_ (.refl es)
      rw [List.forall₂_same]
      intro child hchild
      obtain ⟨edge, hedge, rfl⟩ := List.mem_map.mp hchild
      exact ih edge hedge

/-- The edges of one node in another order. -/
theorem of_perm {i : Nat} {accepting : Bool} {es fs : List (Edge Node)} (h : es.Perm fs) :
    (Node.mk i accepting es).Reordered (Node.mk i accepting fs) := by
  refine .mk rfl ?_ h
  rw [List.forall₂_same]
  intro child _
  exact refl child

/-- A reordering does not change whether a node accepts. -/
theorem accepting_eq (h : a.Reordered b) : a.accepting = b.accepting := by
  cases h
  rfl

/-- Every edge is still there. -/
theorem exists_edge (h : a.Reordered b) {edge : Edge Node} (hedge : edge ∈ a.edges) :
    ∃ edge' ∈ b.edges, edge'.range = edge.range ∧ edge.child.Reordered edge'.child := by
  cases h with
  | mk hranges hbelow hperm =>
      obtain ⟨edge', hmem, hmatch⟩ := exists_matching_edge hranges hbelow hedge
      exact ⟨edge', hperm.mem_iff.mp hmem, hmatch⟩

/-- No edge is new. -/
theorem exists_edge_of_reordered (h : a.Reordered b) {edge : Edge Node} (hedge : edge ∈ b.edges) :
    ∃ edge' ∈ a.edges, edge'.range = edge.range ∧ edge'.child.Reordered edge.child := by
  cases h with
  | mk hranges hbelow hperm =>
      exact exists_matching_edge hranges.symm hbelow.flip (hperm.mem_iff.mpr hedge)

/-- Every path is still there. -/
theorem exists_path (h : a.Reordered b) (hpath : a.Path ranges target) :
    ∃ target', b.Path ranges target' ∧ target.Reordered target' := by
  induction hpath generalizing b with
  | here node => exact ⟨b, .here b, h⟩
  | along hedge _ ih =>
      obtain ⟨edge', hedge', hrange, hchild⟩ := h.exists_edge hedge
      obtain ⟨target', hpath', htarget⟩ := ih hchild
      rw [← hrange]
      exact ⟨target', .along hedge' hpath', htarget⟩

/-- No path is new. -/
theorem exists_path_of_reordered (h : a.Reordered b) (hpath : b.Path ranges target) :
    ∃ target', a.Path ranges target' ∧ target'.Reordered target := by
  induction hpath generalizing a with
  | here node => exact ⟨a, .here a, h⟩
  | along hedge _ ih =>
      obtain ⟨edge', hedge', hrange, hchild⟩ := h.exists_edge_of_reordered hedge
      obtain ⟨target', hpath', htarget⟩ := ih hchild
      rw [← hrange]
      exact ⟨target', .along hedge' hpath', htarget⟩

/-- A reordered node accepts the same sequences along its paths. -/
theorem acceptsAlong_iff (h : a.Reordered b) (bytes : List UInt8) :
    a.AcceptsAlong bytes ↔ b.AcceptsAlong bytes := by
  constructor
  · rintro ⟨ranges, target, hpath, hbytes, haccepting⟩
    obtain ⟨target', hpath', htarget⟩ := h.exists_path hpath
    exact ⟨ranges, target', hpath', hbytes, htarget.accepting_eq ▸ haccepting⟩
  · rintro ⟨ranges, target, hpath, hbytes, haccepting⟩
    obtain ⟨target', hpath', htarget⟩ := h.exists_path_of_reordered hpath
    exact ⟨ranges, target', hpath', hbytes, htarget.accepting_eq ▸ haccepting⟩

/-- Edges that share no byte share none in another order. -/
theorem apart_edges (h : a.Reordered b) (hapart : Apart a.edges) : Apart b.edges := by
  cases h with
  | mk hranges _ hperm =>
      rw [edges_mk, apart_iff_pairwise_map] at hapart ⊢
      rw [hranges] at hapart
      have hsymm : ∀ {r s : ByteRange}, (∀ byte : UInt8, byte ∈ r → byte ∉ s) →
          ∀ byte : UInt8, byte ∈ s → byte ∉ r := by
        intro r s hrs byte hs hr
        exact hrs byte hr hs
      exact ((hperm.map Edge.range).pairwise_iff hsymm).mp hapart

/-- No reordering changes a verdict, where the edges of every node are apart. -/
theorem accepts_eq (h : a.Reordered b) (hapart : ∀ target, a.Reaches target → Apart target.edges)
    (bytes : List UInt8) : b.accepts bytes = a.accepts bytes := by
  have hapart' : ∀ target, b.Reaches target → Apart target.edges := by
    rintro target ⟨ranges, hpath⟩
    obtain ⟨target', hpath', htarget⟩ := h.exists_path_of_reordered hpath
    exact htarget.apart_edges (hapart target' ⟨ranges, hpath'⟩)
  rw [Bool.eq_iff_iff, accepts_iff_acceptsAlong hapart', accepts_iff_acceptsAlong hapart]
  exact (h.acceptsAlong_iff bytes).symm

end Reordered

end Node

/-! ## The verdicts of an automaton -/

namespace Automaton

/-- **A walk finds what any path finds**, in a graph that passes the partition check: a byte
sequence is accepted iff some path along its bytes ends at an accepting node. So the edges inside
any of the nodes may be put into another order without a change to any verdict. -/
theorem acceptsBytes_iff_acceptsAlong (automaton : Automaton)
    (h : automaton.root.partitionFault? = none) :
    (∀ bytes, automaton.acceptsBytes bytes = true ↔ automaton.root.AcceptsAlong bytes) ∧
    ∀ root, automaton.root.Reordered root →
      (∀ bytes, { automaton with root }.acceptsBytes bytes = automaton.acceptsBytes bytes) ∧
      ∀ value, { automaton with root }.accepts value = automaton.accepts value := by
  have hapart : ∀ target, automaton.root.Reaches target → Node.Apart target.edges := by
    intro target htarget
    exact (Node.partitionFault?_eq_none_iff.mp h target htarget).apart
  refine ⟨fun bytes => Node.accepts_iff_acceptsAlong hapart, ?_⟩
  intro root hroot
  have hbytes : ∀ bytes,
      { automaton with root }.acceptsBytes bytes = automaton.acceptsBytes bytes := by
    intro bytes
    exact hroot.accepts_eq hapart bytes
  refine ⟨hbytes, ?_⟩
  intro value
  simp only [accepts, hbytes]

/-- A root with two edges, one to a leaf and one to a node that has its only edge to the same leaf.
With the edges of the root swapped it no longer passes the partition check, but it accepts the same
sequences. -/
theorem acceptsBytes_iff_acceptsAlong_swapped :
    ∃ (leaf middle : Node) (first second : Edge Node) (automaton : Automaton),
      leaf = .mk 0 true [] ∧ middle = .mk 1 false [⟨.full, leaf⟩] ∧
      first = ⟨⟨0x00, 0x0f, by decide, by decide⟩, leaf⟩ ∧
      second = ⟨⟨0x10, 0xff, by decide, by decide⟩, middle⟩ ∧
      automaton = ⟨.mk 2 false [first, second], ⟨0, 0xffff, by decide, by decide⟩, .padded, 2⟩ ∧
      automaton.root.partitionFault? = none ∧
      (Node.mk 2 false [second, first]).partitionFault? ≠ none ∧
      automaton.root.AcceptsAlong [0x20, 0x05] ∧
      { automaton with root := .mk 2 false [second, first] }.acceptsBytes [0x20, 0x05] = true ∧
      { automaton with root := .mk 2 false [second, first] }.accepts 0x520 =
        automaton.accepts 0x520 := by
  refine ⟨_, _, _, _, _, rfl, rfl, rfl, rfl, rfl, by decide, by decide, ?_⟩
  obtain ⟨halong, hreordered⟩ := acceptsBytes_iff_acceptsAlong
    ⟨.mk 2 false [⟨⟨0x00, 0x0f, by decide, by decide⟩, .mk 0 true []⟩,
      ⟨⟨0x10, 0xff, by decide, by decide⟩, .mk 1 false [⟨.full, .mk 0 true []⟩]⟩],
      ⟨0, 0xffff, by decide, by decide⟩, .padded, 2⟩ (by decide)
  obtain ⟨hbytes, hvalues⟩ := hreordered _ (.of_perm (.swap _ _ []))
  refine ⟨(halong _).mp (by decide), ?_, hvalues 0x520⟩
  rw [hbytes]
  decide

end Automaton

end IntervalAutomata
