import IntervalAutomata.Proofs.Node.Partition
import Mathlib.Algebra.Ring.Nat

/-!
# What a fault says, and where it lies

The partition check answers with one fault, which names two ranges and a depth. What it says is true
(`Node.partitionFault?_sound_complete`):

* it is an overlap iff the two ranges share a byte, and otherwise the later one lies wholly below
  the earlier (`PartitionFault.Describes`);
* a path with as many edges as the depth leads from the root to a node at which the two ranges are
  neighbours in that order (`Node.exists_path_of_partitionFaultAt?`).

The check is given by recursion on the graph. It may also be run as a loop over a list of nodes that
are still pending, each with its depth, where a node without a fault of its own is replaced by its
children (`Node.pendingFault?`). Both find the same fault, because the children go in front of all
that is pending (`Node.pendingFault?_eq_findSome?`).
-/

namespace IntervalAutomata

/-! ## Two neighbours -/

/-- Some byte is in both of two ranges iff neither lies wholly above the other. -/
theorem ByteRange.exists_mem_and_mem_iff {a b : ByteRange} :
    (∃ byte : UInt8, byte ∈ a ∧ byte ∈ b) ↔ b.low ≤ a.high ∧ a.low ≤ b.high := by
  have ha := a.low_le_high
  have hb := b.low_le_high
  constructor
  · rintro ⟨byte, hbyteA, hbyteB⟩
    rw [mem_iff] at hbyteA hbyteB
    omega
  · rintro ⟨hba, hab⟩
    -- The greater of the lower bounds is in both ranges.
    refine ⟨UInt8.ofNat (max a.low b.low), ?_⟩
    have hlt := a.high_lt
    rw [mem_iff, mem_iff, UInt8.toNat_ofNat_of_lt' (by simp only [UInt8.size]; omega)]
    omega

/-- What a fault says of two ranges at a depth, the later one second, is true. -/
structure PartitionFault.Describes (fault : PartitionFault) (depth : Nat)
    (first second : ByteRange) : Prop where
  /-- The fault names the depth and the two ranges. -/
  names : fault = .overlap depth first second ∨ fault = .unordered depth first second
  /-- It is an overlap iff some byte is in both ranges. -/
  overlap_iff : fault = .overlap depth first second ↔ ∃ byte : UInt8, byte ∈ first ∧ byte ∈ second
  /-- The order is wrong iff the later range lies wholly below the earlier. -/
  unordered_iff : fault = .unordered depth first second ↔ second.high < first.low

variable {depth : Nat} {fault : PartitionFault}

/-- The fault of two ranges tells the truth about them. -/
theorem PartitionFault.Describes.of_pairFault? {first second : ByteRange}
    (h : pairFault? depth first second = some fault) : fault.Describes depth first second := by
  have hfirst := first.low_le_high
  have hsecond := second.low_le_high
  obtain ⟨hpair, hshare⟩ | ⟨hpair, hbelow⟩ | ⟨hpair, -⟩ := pairFault?_cases depth first second
  · rw [hpair, Option.some.injEq] at h
    subst h
    have hbyte := ByteRange.exists_mem_and_mem_iff.mpr hshare
    exact ⟨Or.inl rfl, iff_of_true rfl hbyte, iff_of_false (by simp) (by omega)⟩
  · rw [hpair, Option.some.injEq] at h
    subst h
    have hapart : ¬∃ byte : UInt8, byte ∈ first ∧ byte ∈ second := by
      rw [ByteRange.exists_mem_and_mem_iff]
      omega
    exact ⟨Or.inr rfl, iff_of_false (by simp) hapart, iff_of_true rfl hbelow⟩
  · rw [hpair] at h
    cases h

/-- The fault of a row describes two neighbours. -/
theorem exists_describes_of_rowFault? {ranges : List ByteRange}
    (h : rowFault? depth ranges = some fault) :
    ∃ before first second after, ranges = before ++ first :: second :: after ∧
      fault.Describes depth first second := by
  induction ranges with
  | nil => cases h
  | cons first ranges ih =>
      cases ranges with
      | nil => cases h
      | cons second ranges =>
          rw [rowFault?] at h
          cases hpair : pairFault? depth first second with
          | some found =>
              simp only [hpair, Option.some.injEq] at h
              subst h
              exact ⟨[], first, second, ranges, rfl, .of_pairFault? hpair⟩
          | none =>
              simp only [hpair] at h
              obtain ⟨before, a, b, after, hranges, hdescribes⟩ := ih h
              refine ⟨first :: before, a, b, after, ?_, hdescribes⟩
              rw [hranges, List.cons_append]

/-! ## The place of a fault -/

namespace Node

/-- The children of a node with the depth at which they lie, the last edge's child first. -/
def childrenAt (node : Node) (depth : Nat) : List (Node × Nat) :=
  node.edges.reverse.map fun edge => (edge.child, depth)

/-- The children at a depth are those of the node, with the depth. -/
theorem mem_childrenAt {node child : Node} {childDepth : Nat} :
    (child, childDepth) ∈ node.childrenAt depth ↔
      (∃ edge ∈ node.edges, edge.child = child) ∧ childDepth = depth := by
  simp only [childrenAt, List.mem_map, List.mem_reverse, Prod.mk.injEq]
  constructor
  · rintro ⟨edge, hedge, rfl, rfl⟩
    exact ⟨⟨edge, hedge, rfl⟩, rfl⟩
  · rintro ⟨⟨edge, hedge, rfl⟩, rfl⟩
    exact ⟨edge, hedge, rfl, rfl⟩

/-- The first fault below edges is the first that a child has, from the last edge to the first. -/
theorem partitionFaultBelow?_eq_findSome? (edges : List (Edge Node)) (depth : Nat) :
    partitionFaultBelow? edges depth =
      edges.reverse.findSome? fun edge => edge.child.partitionFaultAt? depth := by
  induction edges with
  | nil => rfl
  | cons edge edges ih =>
      rw [partitionFaultBelow?, ih, List.reverse_cons, List.findSome?_append,
        List.findSome?_singleton]
      cases edges.reverse.findSome? fun edge => edge.child.partitionFaultAt? depth <;> rfl

/-- A fault in a node's own row comes before those below it. -/
theorem partitionFaultAt?_of_rowFault? {node : Node}
    (h : rowFault? depth (node.edges.map Edge.range) = some fault) :
    node.partitionFaultAt? depth = some fault := by
  cases node with
  | mk i a es =>
      rw [edges_mk] at h
      simp only [partitionFaultAt?, h]

/-- A node with no fault of its own has the fault of the first child that has one. -/
theorem partitionFaultAt?_of_rowFault?_eq_none {node : Node}
    (h : rowFault? depth (node.edges.map Edge.range) = none) :
    node.partitionFaultAt? depth =
      (node.childrenAt (depth + 1)).findSome? fun entry => entry.1.partitionFaultAt? entry.2 := by
  cases node with
  | mk i a es =>
      rw [edges_mk] at h
      simp only [partitionFaultAt?, h, partitionFaultBelow?_eq_findSome?, childrenAt, edges_mk,
        List.findSome?_map, Function.comp_def]

/-- A fault lies as many edges below a node as its depth exceeds the node's. -/
theorem exists_path_of_partitionFaultAt? {node : Node}
    (h : node.partitionFaultAt? depth = some fault) :
    ∃ target ranges before first second after, node.Path ranges target ∧
      target.edges.map Edge.range = before ++ first :: second :: after ∧
      fault.Describes (depth + ranges.length) first second := by
  induction node using Node.induct generalizing depth with
  | step i a es ih =>
      cases hrow : rowFault? depth ((mk i a es).edges.map Edge.range) with
      | some found =>
          rw [partitionFaultAt?_of_rowFault? hrow, Option.some.injEq] at h
          subst h
          obtain ⟨before, first, second, after, hranges, hdescribes⟩ :=
            exists_describes_of_rowFault? hrow
          exact ⟨mk i a es, [], before, first, second, after, .here _, hranges, hdescribes⟩
      | none =>
          rw [partitionFaultAt?_of_rowFault?_eq_none hrow] at h
          obtain ⟨⟨child, childDepth⟩, hmem, hchild⟩ := List.exists_of_findSome?_eq_some h
          obtain ⟨⟨edge, hedge, rfl⟩, rfl⟩ := mem_childrenAt.mp hmem
          obtain ⟨target, ranges, before, first, second, after, hpath, hranges, hdescribes⟩ :=
            ih edge hedge hchild
          refine ⟨target, edge.range :: ranges, before, first, second, after, .along hedge hpath,
            hranges, ?_⟩
          rw [List.length_cons, Nat.add_comm ranges.length, ← Nat.add_assoc]
          exact hdescribes

/-! ## The loop over pending nodes -/

/-- The identities below edges are as many as those of all children together. -/
theorem length_idsBelow (edges : List (Edge Node)) :
    (idsBelow edges).length = (edges.map fun edge => edge.child.ids.length).sum := by
  induction edges with
  | nil => rfl
  | cons edge edges ih => rw [idsBelow_cons, List.length_append, ih, List.map_cons, List.sum_cons]

/-- How many nodes there are to check if every node is checked once for each path to it. -/
def checksLeft (pending : List (Node × Nat)) : Nat :=
  (pending.map fun entry => entry.1.ids.length).sum

/-- There is one check less to do when a node gives way to its children. -/
theorem checksLeft_cons (node : Node) (depth : Nat) (pending : List (Node × Nat)) :
    checksLeft ((node, depth) :: pending) =
      checksLeft (node.childrenAt (depth + 1) ++ pending) + 1 := by
  cases node with
  | mk i a es =>
      simp only [checksLeft, childrenAt, edges_mk, ids_mk, List.length_cons, length_idsBelow,
        List.map_append, List.map_map, List.map_reverse, List.sum_append, List.sum_reverse,
        List.map_cons, List.sum_cons, Function.comp_def]
      omega

/-- The first fault that is met when the pending nodes are checked. The first of them is taken, and
if its own edges are in order its children are pending before all others. -/
def pendingFault? : List (Node × Nat) → Option PartitionFault
  | [] => none
  | (node, depth) :: pending =>
    match rowFault? depth (node.edges.map Edge.range) with
    | some fault => some fault
    | none => pendingFault? (node.childrenAt (depth + 1) ++ pending)
termination_by pending => checksLeft pending
decreasing_by
  rw [checksLeft_cons]
  exact Nat.lt_succ_self _

/-- The loop finds what the recursion finds at the first pending node with a fault. -/
theorem pendingFault?_eq_findSome? (pending : List (Node × Nat)) :
    pendingFault? pending = pending.findSome? fun entry => entry.1.partitionFaultAt? entry.2 := by
  induction pending using pendingFault?.induct with
  | case1 => rw [pendingFault?, List.findSome?_nil]
  | case2 node depth pending fault hrow =>
      rw [List.findSome?_cons, partitionFaultAt?_of_rowFault? hrow, pendingFault?]
      simp only [hrow]
  | case3 node depth pending hrow ih =>
      rw [List.findSome?_cons, partitionFaultAt?_of_rowFault?_eq_none hrow, pendingFault?]
      simp only [hrow]
      rw [ih, List.findSome?_append]
      cases (node.childrenAt (depth + 1)).findSome? fun entry =>
        entry.1.partitionFaultAt? entry.2 <;> rfl

/-- The loop from the root finds the fault of the graph. -/
theorem pendingFault?_root (root : Node) : pendingFault? [(root, 0)] = root.partitionFault? := by
  rw [pendingFault?_eq_findSome?, List.findSome?_singleton, partitionFault?]

/-! ## The whole graph -/

/-- **The partition check is sound and complete**. The loop from the root ends with the fault of the
graph. There is none iff at every node each edge lies wholly below all later ones, and otherwise it
describes two neighbouring edges at a node that lies at its depth. -/
theorem partitionFault?_sound_complete (root : Node) :
    pendingFault? [(root, 0)] = root.partitionFault? ∧
      (root.partitionFault? = none ↔ ∀ node, root.Reaches node → Ascending node.edges) ∧
      ∀ fault, root.partitionFault? = some fault →
        ∃ node ranges before first second after, root.Path ranges node ∧
          node.edges.map Edge.range = before ++ first :: second :: after ∧
          fault.Describes ranges.length first second := by
  refine ⟨pendingFault?_root root, partitionFault?_eq_none_iff, ?_⟩
  intro fault hfault
  obtain ⟨node, ranges, before, first, second, after, hpath, hranges, hdescribes⟩ :=
    exists_path_of_partitionFaultAt? hfault
  rw [Nat.zero_add] at hdescribes
  exact ⟨node, ranges, before, first, second, after, hpath, hranges, hdescribes⟩

/-- A root with one edge, above a node with two edges that have all bytes in common. Both lead to
one leaf. -/
theorem partitionFault?_sound_complete_nested :
    ∃ root,
      root = mk 2 false [⟨.full, mk 1 false [⟨.full, mk 0 true []⟩, ⟨.full, mk 0 true []⟩]⟩] ∧
      root.partitionFault? = some (.overlap 1 .full .full) ∧
      ∃ node ranges before first second after, root.Path ranges node ∧
        node.edges.map Edge.range = before ++ first :: second :: after ∧
        (PartitionFault.overlap 1 .full .full).Describes ranges.length first second := by
  refine ⟨_, rfl, by decide, ?_⟩
  exact (partitionFault?_sound_complete _).2.2 _ (by decide)

end Node

end IntervalAutomata
