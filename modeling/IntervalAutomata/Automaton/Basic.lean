import IntervalAutomata.Encoding
import IntervalAutomata.Interval.Basic
import IntervalAutomata.Node.Partition

/-!
# Automata

The outcome of compiling an interval: a root node with the interval that it recognises, the encoding
in which it reads values, and the width that the padded encoding fills up to.
-/

namespace IntervalAutomata

/-- A graph of nodes that recognises the encodings of an interval's values. -/
structure Automaton where
  /-- Where every walk starts. -/
  root : Node
  /-- The interval that was compiled. -/
  interval : Interval
  /-- The encoding of the values that the automaton reads. -/
  encoding : Encoding
  /-- The number of bytes of the upper bound, to which the padded encoding fills up. -/
  width : Nat

namespace Automaton

/-- The number of edges on the longest path from the root. -/
def depth (automaton : Automaton) : Nat :=
  automaton.root.depth

/-- The number of distinct nodes. -/
def nodeCount (automaton : Automaton) : Nat :=
  automaton.root.nodeCount

/-- Whether the automaton accepts exactly this byte sequence. -/
def acceptsBytes (automaton : Automaton) (bytes : List UInt8) : Bool :=
  automaton.root.accepts bytes

/-- Whether the automaton accepts a value, which is encoded first; a value without an encoding is
rejected. -/
def accepts (automaton : Automaton) (value : UInt64) : Bool :=
  match encode value automaton.encoding automaton.width with
  | none => false
  | some bytes => automaton.acceptsBytes bytes

end Automaton

end IntervalAutomata
