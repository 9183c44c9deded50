import IntervalAutomata.Node.Basic

/-!
# The partition condition

At every node the edges should be disjoint and in ascending order. `Node.partitionFault?` looks for
a pair of neighbouring edges that breaks this and reports the first one it meets: a node's own edges
come before those below it, and the children are searched from the last edge to the first.
-/

namespace IntervalAutomata

/-- Two neighbouring edges of one node that are not disjoint and ascending. -/
inductive PartitionFault where
  /-- Both edges contain a common byte. -/
  | overlap (depth : Nat) (first second : ByteRange)
  /-- The later edge lies wholly below the earlier one. -/
  | unordered (depth : Nat) (first second : ByteRange)
deriving DecidableEq

/-- The fault in words, for those who have a graph checked; no report prints it. -/
def PartitionFault.message : PartitionFault → String
  | .overlap depth first second =>
    "edges " ++ first.text ++ " and " ++ second.text ++ " overlap at depth "
      ++ Numeral.decimal depth
  | .unordered depth first second =>
    "edge " ++ second.text ++ " precedes " ++ first.text ++ " at depth "
      ++ Numeral.decimal depth

/-- The fault of two neighbouring edges. -/
def pairFault? (depth : Nat) (first second : ByteRange) : Option PartitionFault :=
  if first.overlaps second then some (.overlap depth first second)
  else if second.low < first.low then some (.unordered depth first second)
  else none

/-- The first fault in a row of edges. -/
def rowFault? (depth : Nat) : List ByteRange → Option PartitionFault
  | first :: second :: ranges =>
    match pairFault? depth first second with
    | some fault => some fault
    | none => rowFault? depth (second :: ranges)
  | _ => none

namespace Node

mutual

/-- The first fault at or below a node that lies at the given depth. -/
def partitionFaultAt? : Node → Nat → Option PartitionFault
  | mk _ _ edges, depth =>
    match rowFault? depth (edges.map Edge.range) with
    | some fault => some fault
    | none => partitionFaultBelow? edges (depth + 1)

/-- The first fault below some edges, the last edge first. -/
def partitionFaultBelow? : List (Edge Node) → Nat → Option PartitionFault
  | [], _ => none
  | edge :: edges, depth =>
    match partitionFaultBelow? edges depth with
    | some fault => some fault
    | none => edge.child.partitionFaultAt? depth

end

/-- The first fault of a graph, if any, seen from its root. -/
def partitionFault? (root : Node) : Option PartitionFault :=
  root.partitionFaultAt? 0

end Node

end IntervalAutomata
