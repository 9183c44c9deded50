/-!
# Palettes

Terminal colours as the codes written around a text. A `Palette` is either the ANSI codes or nothing
at all. A text is coloured by `Palette.paint`, which always resets after it; without codes painting
changes nothing (`paint_plain`). Headings and bounds, which are made of several texts, are written
out between the code for faint text and the reset, which comes to the same (`Span.render_painted`,
`CompileEvent.render_boundsSpan`, `Automaton.render_heading`).
-/

namespace IntervalAutomata

/-- What a colour stands for. -/
inductive Hue where
  /-- Byte ranges. -/
  | blue
  /-- Acceptance. -/
  | green
  /-- Rejection. -/
  | red
  /-- Bounds and headings. -/
  | dim
deriving DecidableEq

/-- The codes that switch colours on and off. -/
structure Palette where
  /-- Switches to blue. -/
  blue : String
  /-- Switches to green. -/
  green : String
  /-- Switches to red. -/
  red : String
  /-- Switches to faint text. -/
  dim : String
  /-- Ends any of the others. -/
  reset : String
deriving DecidableEq

namespace Palette

/-- The standard ANSI codes. -/
def ansi : Palette where
  blue := "\x1b[34m"
  green := "\x1b[32m"
  red := "\x1b[31m"
  dim := "\x1b[2m"
  reset := "\x1b[0m"

/-- No codes: text stays as it is. -/
def plain : Palette where
  blue := ""
  green := ""
  red := ""
  dim := ""
  reset := ""

/-- Unless told otherwise, nothing is coloured. -/
instance : Inhabited Palette := ⟨plain⟩

/-- The palette for a choice to colour or not. -/
def ofChoice (coloured : Bool) : Palette :=
  if coloured then ansi else plain

/-- Whether the palette has any effect, told by its reset code. Nothing here asks for it; it is for
those who print with a palette and want to know. -/
def isEnabled (palette : Palette) : Bool :=
  palette.reset != ""

/-- The code that switches a colour on. -/
def code (palette : Palette) : Hue → String
  | .blue => palette.blue
  | .green => palette.green
  | .red => palette.red
  | .dim => palette.dim

/-- A text between a code and the reset. -/
def paint (palette : Palette) (code text : String) : String :=
  code ++ text ++ palette.reset

/-- Without colours no hue has a code. -/
@[simp] theorem code_plain (hue : Hue) : plain.code hue = "" := by
  cases hue <;> rfl

/-- Without codes painting changes nothing. -/
@[simp] theorem paint_plain (text : String) : plain.paint "" text = text := by
  simp [paint, plain]

end Palette

end IntervalAutomata
