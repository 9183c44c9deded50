import IntervalAutomata.ByteRange

/-!
# Nodes

An automaton is a rooted acyclic graph whose edges are labelled with byte ranges. A `Node` holds its
edges in order and its children below them. Children may be shared: every node has an identity, and
two occurrences with one identity are one node of the graph, which `Node.visit` and
`Node.nodeCount` therefore pass once.

Everything that reads a node without asking for identities (`Node.accepts`, `Node.depth`) treats it
as the tree that it unfolds to.
-/

namespace IntervalAutomata

/-- An edge to a child. -/
structure Edge (α : Type) where
  /-- The bytes that lead along the edge. -/
  range : ByteRange
  /-- Where the edge leads. -/
  child : α

/-- A node of an automaton, together with all that lies below it. -/
inductive Node where
  /-- A node with its identity, whether a byte sequence may end at it, and its edges in order. -/
  | mk (id : Nat) (accepting : Bool) (edges : List (Edge Node))

namespace Node

/-- What tells a node from others that look alike. -/
def id : Node → Nat
  | mk id _ _ => id

/-- Whether a byte sequence may end at the node. -/
def accepting : Node → Bool
  | mk _ accepting _ => accepting

/-- The outgoing edges in order. -/
def edges : Node → List (Edge Node)
  | mk _ _ edges => edges

/-- Whether the node has no edges. -/
def isLeaf (node : Node) : Bool :=
  node.edges.isEmpty

/-- The identity of a node is the first of its parts. -/
@[simp] theorem id_mk (i : Nat) (a : Bool) (es : List (Edge Node)) : (mk i a es).id = i := rfl

/-- Whether a node accepts is the second of its parts. -/
@[simp] theorem accepting_mk (i : Nat) (a : Bool) (es : List (Edge Node)) :
    (mk i a es).accepting = a := rfl

/-- The edges of a node are the last of its parts. -/
@[simp] theorem edges_mk (i : Nat) (a : Bool) (es : List (Edge Node)) :
    (mk i a es).edges = es := rfl

/-- What holds of every node whose children it holds of, holds of all nodes. -/
theorem induct {motive : Node → Prop}
    (step : ∀ i a es, (∀ e ∈ es, motive e.child) → motive (mk i a es)) (node : Node) :
    motive node :=
  Node.rec (motive_1 := motive) (motive_2 := fun es => ∀ e ∈ es, motive e.child)
    (motive_3 := fun e => motive e.child)
    (fun i a es ih => step i a es ih)
    (fun e he => by cases he)
    (fun _ _ hhead htail e he => by
      rcases List.mem_cons.mp he with rfl | he
      · exact hhead
      · exact htail e he)
    (fun _ _ hchild => hchild) node

/-! ## Following bytes -/

/-- The first edge whose range contains a byte. -/
def edgeFor? (node : Node) (byte : UInt8) : Option (Edge Node) :=
  node.edges.find? (·.range.contains byte)

/-- Whether the walk along a byte sequence, taking the first edge that fits each byte, ends at an
accepting node. -/
def accepts (node : Node) : List UInt8 → Bool
  | [] => node.accepting
  | byte :: bytes =>
    match node.edgeFor? byte with
    | none => false
    | some edge => edge.child.accepts bytes

/-- The empty sequence is accepted by accepting nodes. -/
@[simp] theorem accepts_nil (node : Node) : node.accepts [] = node.accepting := rfl

/-- A sequence is not accepted if its first byte has no edge. -/
theorem accepts_cons_of_none {node : Node} {byte : UInt8} (h : node.edgeFor? byte = none)
    (bytes : List UInt8) : node.accepts (byte :: bytes) = false := by
  simp only [accepts, h]

/-- A sequence whose first byte has an edge is accepted if the child accepts the rest. -/
theorem accepts_cons_of_some {node : Node} {byte : UInt8} {edge : Edge Node}
    (h : node.edgeFor? byte = some edge) (bytes : List UInt8) :
    node.accepts (byte :: bytes) = edge.child.accepts bytes := by
  simp only [accepts, h]

/-! ## Measures -/

mutual

/-- The number of edges on the longest path from a node. -/
def depth : Node → Nat
  | mk _ _ edges => depthBelow edges

/-- The number of edges on the longest path that starts with one of the given edges. -/
def depthBelow : List (Edge Node) → Nat
  | [] => 0
  | edge :: edges => max (1 + edge.child.depth) (depthBelow edges)

end

mutual

/-- The identities of a node and of all below it, each once, added to those seen before; a node seen
before is not entered again. -/
def visit : Node → List Nat → List Nat
  | mk id _ edges, seen => if id ∈ seen then seen else visitBelow edges (id :: seen)

/-- The identities at and below the children of some edges, added to those seen before. -/
def visitBelow : List (Edge Node) → List Nat → List Nat
  | [], seen => seen
  | edge :: edges, seen => visitBelow edges (edge.child.visit seen)

end

/-- The number of distinct nodes at and below a node. -/
def nodeCount (node : Node) : Nat :=
  (node.visit []).length

end Node

end IntervalAutomata
