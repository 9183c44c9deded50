import IntervalAutomata.ByteRange
import IntervalAutomata.Interval.Basic
import IntervalAutomata.Level.Layout
import IntervalAutomata.Text.Line

/-!
# Compile events

What a compilation reports while it builds nodes, and the printed line of each report.
-/

namespace IntervalAutomata

/-- A report of a compilation. Each carries the depth of the node that is being built. -/
inductive CompileEvent where
  /-- A node for these bounds is begun; it accepts or does not. -/
  | enter (depth low high : Nat) (accepting : Bool)
  /-- How the bounds of the node begun last stand to each other at its byte. -/
  | laidOut (depth : Nat) (layout : Layout)
  /-- An edge to a node for the given bounds. -/
  | edge (depth : Nat) (range : ByteRange) (childLow childHigh : Nat)
  /-- An edge to an accepting node without edges. -/
  | leaf (depth : Nat) (range : ByteRange)
  /-- A node for these bounds was built before and is shared. -/
  | reuse (depth low high : Nat)
deriving DecidableEq

namespace CompileEvent

/-- Bounds as they are printed in reports. -/
def boundsSpan (low high : Nat) : Span :=
  .painted .dim (Interval.boundsText low high)

/-- Bounds are printed as their texts, one by one, between the code for faint text and the reset. -/
theorem render_boundsSpan (palette : Palette) (low high : Nat) :
    (boundsSpan low high).render palette =
      palette.dim ++ "[" ++ Numeral.hex low ++ ", " ++ Numeral.hex high ++ "]" ++
        palette.reset := by
  simp only [boundsSpan, Span.render_painted, Palette.code, Interval.boundsText,
    String.append_assoc]

/-- The printed line of an event. What concerns a node's byte is set in one level deeper than the
node itself. -/
def line : CompileEvent → Line
  | enter depth low high accepting =>
    Line.atDepth depth
      (.plain "enter " :: boundsSpan low high ::
        if accepting then [.plain " ", Line.acceptMark] else [])
  | laidOut depth layout =>
    Line.atDepth (depth + 1) [.plain "case ", .painted .dim layout.name]
  | edge depth range childLow childHigh =>
    Line.atDepth (depth + 1)
      [.painted .blue range.text, .plain " -> ", boundsSpan childLow childHigh]
  | leaf depth range =>
    Line.atDepth (depth + 1) [.painted .blue range.text, .plain " -> ", Line.acceptMark]
  | reuse depth low high =>
    Line.atDepth depth [.plain "reuse ", boundsSpan low high]

end CompileEvent

end IntervalAutomata
