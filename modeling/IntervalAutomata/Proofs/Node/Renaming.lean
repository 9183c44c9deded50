import IntervalAutomata.Automaton.Outline
import IntervalAutomata.Automaton.Walk

/-!
# Renaming the identities of a graph

`Node.rename f` replaces every identity by its image under `f` and leaves ranges, order and
acceptance alone. Two uses matter:

* **An injective `f`** gives the same graph under other names, since two occurrences are one node
  before the renaming iff they are afterwards.
* **A constant `f`** forgets which occurrences are one node. `Node.unfolded` is this case: two nodes
  unfold to equal trees iff they have the same accept flags and the same edges in the same order at
  every path.

Everything that reads a node without comparing identities is blind to *every* renaming: following a
byte (`edgeFor?_rename`), the verdict (`accepts_rename`), the report of a walk
(`walkFrom_rename`), the depth (`depth_rename`), the partition check (`partitionFault?_rename`) and
the outline (`outline_rename`). So nodes with equal unfoldings agree on all of them
(`eq_of_unfolded_eq`).
-/

namespace IntervalAutomata

namespace Node

/-! ## Renaming -/

mutual

/-- The node with each identity at and below it replaced by its image. -/
def rename (f : Nat → Nat) : Node → Node
  | mk id accepting edges => mk (f id) accepting (renameEdges f edges)

/-- The edges with each identity below them replaced by its image. -/
def renameEdges (f : Nat → Nat) : List (Edge Node) → List (Edge Node)
  | [] => []
  | edge :: edges => ⟨edge.range, edge.child.rename f⟩ :: renameEdges f edges

end

/-- The tree that a node unfolds to: the node with all identities forgotten. -/
def unfolded (node : Node) : Node :=
  node.rename fun _ => 0

end Node

/-- The edge with each identity below it replaced by its image. -/
def Edge.rename (f : Nat → Nat) (edge : Edge Node) : Edge Node :=
  ⟨edge.range, edge.child.rename f⟩

namespace Node

variable (f : Nat → Nat)

/-- A row of edges is renamed edge by edge. -/
theorem renameEdges_eq_map (edges : List (Edge Node)) :
    renameEdges f edges = edges.map (Edge.rename f) := by
  induction edges with
  | nil => rfl
  | cons edge edges ih =>
      rw [renameEdges, ih]
      rfl

/-- A renaming changes the identity of a node and renames its edges. -/
@[simp] theorem rename_mk (i : Nat) (a : Bool) (es : List (Edge Node)) :
    (mk i a es).rename f = mk (f i) a (es.map (Edge.rename f)) := by
  rw [rename, renameEdges_eq_map]

/-- A renaming does not change whether a node accepts. -/
@[simp] theorem accepting_rename (node : Node) : (node.rename f).accepting = node.accepting := by
  cases node
  rw [rename_mk]
  rfl

/-- The edges of a renamed node are the renamed edges. -/
theorem edges_rename (node : Node) :
    (node.rename f).edges = node.edges.map (Edge.rename f) := by
  cases node
  rw [rename_mk]
  rfl

/-- Renaming twice is renaming once, by the composite. -/
theorem rename_rename (g : Nat → Nat) (node : Node) :
    (node.rename f).rename g = node.rename (g ∘ f) := by
  induction node using Node.induct with
  | step i a es ih =>
      have hes : ∀ e ∈ es, (Edge.rename g ∘ Edge.rename f) e = Edge.rename (g ∘ f) e := by
        intro e he
        simp only [Function.comp_apply, Edge.rename, ih e he]
      simp only [rename_mk, List.map_map, Function.comp_apply]
      rw [List.map_congr_left hes]

/-- A renaming that moves nothing changes nothing. -/
theorem rename_self (node : Node) : (node.rename fun i => i) = node := by
  induction node using Node.induct with
  | step i a es ih =>
      have hes : ∀ e ∈ es, Edge.rename (fun i => i) e = e := by
        intro e he
        rw [Edge.rename, ih e he]
      rw [rename_mk, List.map_congr_left hes, List.map_id']

/-! ## What no renaming changes -/

/-- The edge found for a byte is the renamed one. -/
theorem edgeFor?_rename (node : Node) (byte : UInt8) :
    (node.rename f).edgeFor? byte = (node.edgeFor? byte).map (Edge.rename f) := by
  rw [edgeFor?, edgeFor?, edges_rename, List.find?_map]
  rfl

/-- A renamed node accepts the same sequences. -/
theorem accepts_rename (node : Node) (bytes : List UInt8) :
    (node.rename f).accepts bytes = node.accepts bytes := by
  induction bytes generalizing node with
  | nil => exact accepting_rename f node
  | cons byte bytes ih =>
      cases h : node.edgeFor? byte with
      | none =>
          rw [accepts_cons_of_none h]
          exact accepts_cons_of_none (by rw [edgeFor?_rename, h]; rfl) bytes
      | some edge =>
          have h' : (node.rename f).edgeFor? byte = some (edge.rename f) := by
            rw [edgeFor?_rename, h]
            rfl
          rw [accepts_cons_of_some h, accepts_cons_of_some h']
          exact ih edge.child

/-- A node accepts the same sequences as its unfolding. -/
theorem accepts_unfolded (node : Node) (bytes : List UInt8) :
    node.unfolded.accepts bytes = node.accepts bytes :=
  accepts_rename _ node bytes

/-- A walk from a renamed node reports the same. -/
theorem walkFrom_rename (node : Node) (position : Nat) (bytes : List UInt8) :
    (node.rename f).walkFrom position bytes = node.walkFrom position bytes := by
  induction bytes generalizing node position with
  | nil => simp only [walkFrom, accepting_rename]
  | cons byte bytes ih =>
      cases h : node.edgeFor? byte with
      | none => simp only [walkFrom, edgeFor?_rename, h, Option.map_none]
      | some edge =>
          simp only [walkFrom, edgeFor?_rename, h, Option.map_some]
          rw [show (edge.rename f).child = edge.child.rename f from rfl, ih]
          rfl

/-- A renaming keeps the ranges of edges. -/
theorem ranges_rename (edges : List (Edge Node)) :
    (edges.map (Edge.rename f)).map Edge.range = edges.map Edge.range := by
  rw [List.map_map]
  rfl

mutual

/-- A renamed node is as deep. -/
theorem depth_rename : (node : Node) → (node.rename f).depth = node.depth
  | mk i a es => by
      rw [rename, depth, depth]
      exact depthBelow_rename es

/-- Renamed edges are as deep. -/
theorem depthBelow_rename :
    (edges : List (Edge Node)) → depthBelow (renameEdges f edges) = depthBelow edges
  | [] => rfl
  | edge :: edges => by
      rw [renameEdges, depthBelow, depthBelow]
      simp only [depth_rename edge.child, depthBelow_rename edges]

end

mutual

/-- A renamed node has the same outline. -/
theorem outline_rename :
    (node : Node) → ∀ depth, (node.rename f).outline depth = node.outline depth
  | mk i a es, depth => by
      rw [rename, outline, outline]
      exact outlineOf_rename es depth

/-- Renamed edges have the same outline. -/
theorem outlineOf_rename : (edges : List (Edge Node)) → ∀ depth,
    outlineOf (renameEdges f edges) depth = outlineOf edges depth
  | [], _ => rfl
  | edge :: edges, depth => by
      rw [renameEdges, outlineOf, outlineOf]
      simp only [accepting_rename, outline_rename edge.child, outlineOf_rename edges]

end

mutual

/-- A renamed node has the same fault at every depth. -/
theorem partitionFaultAt?_rename : (node : Node) → ∀ depth,
    (node.rename f).partitionFaultAt? depth = node.partitionFaultAt? depth
  | mk i a es, depth => by
      have hbelow := partitionFaultBelow?_rename es (depth + 1)
      rw [renameEdges_eq_map] at hbelow
      rw [rename_mk, partitionFaultAt?, partitionFaultAt?, ranges_rename, hbelow]

/-- Renamed edges have the same fault at every depth. -/
theorem partitionFaultBelow?_rename : (edges : List (Edge Node)) → ∀ depth,
    partitionFaultBelow? (renameEdges f edges) depth = partitionFaultBelow? edges depth
  | [], _ => rfl
  | edge :: edges, depth => by
      rw [renameEdges, partitionFaultBelow?, partitionFaultBelow?]
      simp only [partitionFaultAt?_rename edge.child, partitionFaultBelow?_rename edges]

end

/-- A renamed graph has the same fault. -/
theorem partitionFault?_rename (node : Node) :
    (node.rename f).partitionFault? = node.partitionFault? :=
  partitionFaultAt?_rename f node 0

/-- What no renaming changes is common to all nodes with one unfolding. -/
theorem eq_of_unfolded_eq {β : Type} {g : Node → β}
    (hg : ∀ f node, g (node.rename f) = g node) {a b : Node}
    (h : a.unfolded = b.unfolded) : g a = g b := by
  calc g a = g a.unfolded := (hg _ a).symm
    _ = g b.unfolded := by rw [h]
    _ = g b := hg _ b

end Node

end IntervalAutomata
