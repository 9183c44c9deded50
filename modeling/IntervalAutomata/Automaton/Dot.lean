import IntervalAutomata.Automaton.Basic

/-!
# Graphs in the DOT language

An automaton as a directed graph. Nodes are numbered from 0 in the order in which a walk over all
edges, depth first, meets them, so that a shared node has one number and is stated once. A node is
stated when it is met, and an edge once all that lies below it is stated.
-/

namespace IntervalAutomata

/-- A statement of the graph. -/
inductive DotStatement where
  /-- A node by its number, with its label. -/
  | node (number : Nat) (accepting : Bool)
  /-- An edge between two numbered nodes. -/
  | edge (source target : Nat) (range : ByteRange)
deriving DecidableEq

/-- A statement as a line of DOT. -/
def DotStatement.text : DotStatement → String
  | .node number accepting =>
    "  node" ++ Numeral.decimal number ++ " [label=\"" ++ (if accepting then "Acc" else "")
      ++ "\"];"
  | .edge source target range =>
    "  node" ++ Numeral.decimal source ++ " -> node" ++ Numeral.decimal target ++ " [label=\""
      ++ range.text ++ "\"];"

/-- The numbers given to nodes so far, the latest first. -/
abbrev Numbering := List (Nat × Nat)

/-- The statements that one part of a graph adds, and the numbers given by then. -/
structure DotPart where
  /-- Statements in order. -/
  statements : List DotStatement
  /-- Numbers by identity. -/
  numbering : Numbering

namespace Node

mutual

/-- States a node and all below it that has no number yet, and answers with the node's number. -/
def dot : Node → Numbering → Nat × DotPart
  | mk id accepting edges, numbering =>
    match numbering.lookup id with
    | some number => (number, ⟨[], numbering⟩)
    | none =>
      let number := numbering.length
      let below := dotBelow number edges ((id, number) :: numbering)
      (number, ⟨.node number accepting :: below.statements, below.numbering⟩)

/-- States some edges of one node, each after all that lies below it. -/
def dotBelow (source : Nat) : List (Edge Node) → Numbering → DotPart
  | [], numbering => ⟨[], numbering⟩
  | edge :: edges, numbering =>
    let target := edge.child.dot numbering
    let rest := dotBelow source edges target.2.numbering
    ⟨target.2.statements ++ .edge source target.1 edge.range :: rest.statements, rest.numbering⟩

end

end Node

namespace Automaton

/-- The statements of an automaton's graph. -/
def dotStatements (automaton : Automaton) : List DotStatement :=
  (automaton.root.dot []).2.statements

/-- The lines of the graph in DOT. -/
def dotLines (automaton : Automaton) : List String :=
  "digraph automaton \x7b" :: (automaton.dotStatements.map DotStatement.text ++ ["\x7d"])

/-- The graph in DOT, each line ended by a line feed. -/
def dotText (automaton : Automaton) : String :=
  String.join (automaton.dotLines.map (· ++ "\n"))

end Automaton

end IntervalAutomata
