import IntervalAutomata.Text.Palette

/-!
# Lines of coloured text

Printed lines are built as rows of spans, each of which is plain or has one colour, and become text
only when a palette is chosen (`Line.render`). What a line says is therefore fixed before it is
coloured: no span contains another, and each coloured span is ended by its own reset.
-/

namespace IntervalAutomata

/-- A piece of a line. -/
inductive Span where
  /-- Text in no colour. -/
  | plain (text : String)
  /-- Text in one colour. -/
  | painted (hue : Hue) (text : String)
deriving DecidableEq

/-- A line before it is coloured. -/
abbrev Line := List Span

/-- The text of a span under a palette. -/
def Span.render (palette : Palette) : Span → String
  | .plain text => text
  | .painted hue text => palette.paint (palette.code hue) text

/-- A coloured span is its text between the code of its hue and the reset. -/
theorem Span.render_painted (palette : Palette) (hue : Hue) (text : String) :
    (painted hue text).render palette = palette.code hue ++ text ++ palette.reset := rfl

namespace Line

/-- The text of a line under a palette. -/
def render (palette : Palette) : Line → String
  | [] => ""
  | span :: line => span.render palette ++ render palette line

/-- Two blanks for each level of depth. -/
def margin : (depth : Nat) → String
  | 0 => ""
  | depth + 1 => "  " ++ margin depth

/-- A line set in by its depth. -/
def atDepth (depth : Nat) (line : Line) : Line :=
  .plain (margin depth) :: line

/-- The word that marks acceptance. -/
def acceptMark : Span :=
  .painted .green "Acc"

/-- Several lines, each ended by a line feed. -/
def document (palette : Palette) : List Line → String
  | [] => ""
  | line :: lines => render palette line ++ "\n" ++ document palette lines

/-- Nothing is printed of an empty line. -/
@[simp] theorem render_nil (palette : Palette) : render palette [] = "" := rfl

/-- The spans of a line are printed one after the other. -/
@[simp] theorem render_cons (palette : Palette) (span : Span) (line : Line) :
    render palette (span :: line) = span.render palette ++ render palette line := rfl

end Line

end IntervalAutomata
