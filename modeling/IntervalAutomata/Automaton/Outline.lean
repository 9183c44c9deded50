import IntervalAutomata.Automaton.Basic
import IntervalAutomata.Text.Line

/-!
# Outlines

An automaton as indented text, one line for each edge:

```text
[0x0, 0x1ff] minimal
root
  00..ff Acc
    01 Acc
```

The outline is that of the tree which the automaton unfolds to: what lies below a shared node is
written out below each edge that leads to it.
-/

namespace IntervalAutomata

namespace Node

mutual

/-- The lines of all edges at and below a node whose edges are set in by `depth`. -/
def outline : Node → Nat → List Line
  | mk _ _ edges, depth => outlineOf edges depth

/-- The lines of some edges and of all below them. -/
def outlineOf : List (Edge Node) → Nat → List Line
  | [], _ => []
  | edge :: edges, depth =>
    Line.atDepth depth
        (.painted .blue edge.range.text ::
          if edge.child.accepting then [.plain " ", Line.acceptMark] else [])
      :: (edge.child.outline (depth + 1) ++ outlineOf edges depth)

end

end Node

namespace Automaton

/-- The heading of an outline: the interval and the name of the encoding. -/
def heading (automaton : Automaton) : Line :=
  [.painted .dim (automaton.interval.text ++ " " ++ automaton.encoding.name)]

/-- The heading is printed as its texts, one by one, between the code for faint text and the
reset. -/
theorem render_heading (automaton : Automaton) (palette : Palette) :
    automaton.heading.render palette =
      palette.dim ++ automaton.interval.text ++ " " ++ automaton.encoding.name ++
        palette.reset := by
  simp only [heading, Line.render_cons, Line.render_nil, Span.render_painted, Palette.code,
    String.append_assoc, String.append_empty]

/-- The lines of an automaton's outline. -/
def outline (automaton : Automaton) : List Line :=
  automaton.heading :: [.plain "root"] :: automaton.root.outline 1

/-- The outline as text, each line ended by a line feed. -/
def outlineText (automaton : Automaton) (palette : Palette) : String :=
  Line.document palette automaton.outline

end Automaton

end IntervalAutomata
