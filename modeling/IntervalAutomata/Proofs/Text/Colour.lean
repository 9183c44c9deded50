import IntervalAutomata.Proofs.Text.Printable

/-!
# Colours in a text

A coloured text is read as a row of characters and of codes, each of which switches a colour on or
all colours off (`Palette.pieces`). Without its codes it is the bare text (`Palette.erase`).

Codes begin with an escape character, and no code is the beginning of another
(`Palette.switchAt?_code`). So a printable line (`Line.Printable`) is read as it was built: each
coloured span as its code, its text and the reset, and each plain span as its text
(`Line.pieces_render`). Therefore without the codes every such line is the bare one, and its codes
alternate (`Line.decorates_render`). The same holds of a whole text of such lines
(`Line.decorates_document`).
-/

namespace IntervalAutomata

/-! ## Definitions -/

/-- What a code does. -/
inductive Switch where
  /-- Switches a colour on. -/
  | on (hue : Hue)
  /-- Switches all colours off. -/
  | off
deriving DecidableEq

/-- All switches. -/
def Switch.all : List Switch := [.on .blue, .on .green, .on .red, .on .dim, .off]

/-- A colour is switched on and then off, and nothing else happens between. -/
inductive Switch.Alternating : List Switch → Prop where
  /-- No colour at all. -/
  | nil : Alternating []
  /-- One colour, and then others. -/
  | cons (hue : Hue) {switches : List Switch} (rest : Alternating switches) :
    Alternating (.on hue :: .off :: switches)

/-- A piece of a coloured text. -/
inductive Piece where
  /-- A code. -/
  | code (switch : Switch)
  /-- A character that belongs to no code. -/
  | char (c : Char)
deriving DecidableEq

/-- The switch of a piece that is a code. -/
def Piece.switch? : Piece → Option Switch
  | code switch => some switch
  | char _ => none

/-- The character of a piece that is none. -/
def Piece.char? : Piece → Option Char
  | code _ => none
  | char c => some c

namespace Palette

/-- The characters of a switch's code. -/
def codeOf (palette : Palette) : Switch → List Char
  | .on hue => (palette.code hue).toList
  | .off => palette.reset.toList

/-- The switch with whose code a text begins. -/
def switchAt? (palette : Palette) (cs : List Char) : Option Switch :=
  Switch.all.find? fun switch =>
    !(palette.codeOf switch).isEmpty && (palette.codeOf switch).isPrefixOf cs

/-- The pieces of a text, of which the first `skip` characters are the rest of a code. -/
def piecesFrom (palette : Palette) : (skip : Nat) → List Char → List Piece
  | _, [] => []
  | skip + 1, _ :: cs => piecesFrom palette skip cs
  | 0, c :: cs =>
    match palette.switchAt? (c :: cs) with
    | some switch => .code switch :: piecesFrom palette ((palette.codeOf switch).length - 1) cs
    | none => .char c :: piecesFrom palette 0 cs

/-- The pieces of a text: wherever a code begins it is read as such. -/
def pieces (palette : Palette) (cs : List Char) : List Piece :=
  piecesFrom palette 0 cs

/-- A text without the codes of a palette. -/
def erase (palette : Palette) (text : String) : String :=
  String.ofList ((palette.pieces text.toList).filterMap Piece.char?)

/-- The switches in a text, in order. -/
def switchesIn (palette : Palette) (text : String) : List Switch :=
  (palette.pieces text.toList).filterMap Piece.switch?

end Palette

/-- A line is a bare line with colours: without the codes nothing else remains, and every colour is
switched off before the next one is switched on and before the line ends. -/
structure Decorates (line bare : String) : Prop where
  /-- What remains is the bare line. -/
  erase_eq : Palette.ansi.erase line = bare
  /-- Colours and resets alternate, a colour first and a reset last. -/
  alternating : Switch.Alternating (Palette.ansi.switchesIn line)

/-- A text of lines is a bare text with colours, and no colour leaks from one line into another. -/
structure DecoratesText (text bare : String) : Prop where
  /-- What remains is the bare text. -/
  erase_eq : Palette.ansi.erase text = bare
  /-- In every line colours and resets alternate, a colour first and a reset last. -/
  alternating : ∃ lines, Text.IsLines text lines ∧
    ∀ line ∈ lines, Switch.Alternating (Palette.ansi.switchesIn line)

/-! ## Reading codes -/

namespace Palette

variable {c : Char} {cs rest : List Char}

/-- The rest of a code is passed over. -/
theorem piecesFrom_append (palette : Palette) (cs rest : List Char) :
    piecesFrom palette cs.length (cs ++ rest) = palette.pieces rest := by
  induction cs with
  | nil => rfl
  | cons c cs ih =>
      rw [List.length_cons, List.cons_append, piecesFrom, ih]

/-- The empty text has no pieces. -/
@[simp] theorem pieces_nil (palette : Palette) : palette.pieces [] = [] := rfl

/-- A character at which no code begins is a piece by itself. -/
theorem pieces_cons_of_none {palette : Palette} (h : palette.switchAt? (c :: cs) = none) :
    palette.pieces (c :: cs) = .char c :: palette.pieces cs := by
  rw [pieces, piecesFrom, h]
  rfl

/-- Every code begins with an escape character. -/
theorem exists_codeOf_eq (switch : Switch) : ∃ tail, ansi.codeOf switch = '\x1b' :: tail := by
  cases switch with
  | off => exact ⟨_, rfl⟩
  | on hue => cases hue <;> exact ⟨_, rfl⟩

/-- No code is the beginning of another. -/
theorem switchAt?_code (switch : Switch) (rest : List Char) :
    ansi.switchAt? (ansi.codeOf switch ++ rest) = some switch := by
  cases switch with
  | off => rfl
  | on hue => cases hue <;> rfl

/-- No code begins with anything but the escape character. -/
theorem switchAt?_of_ne (h : c ≠ '\x1b') (cs : List Char) : ansi.switchAt? (c :: cs) = none := by
  rw [switchAt?, List.find?_eq_none]
  intro switch _
  obtain ⟨tail, htail⟩ := exists_codeOf_eq switch
  simp [htail, h.symm]

/-- A code is read as what it does. -/
theorem pieces_code_append (switch : Switch) (rest : List Char) :
    ansi.pieces (ansi.codeOf switch ++ rest) = .code switch :: ansi.pieces rest := by
  obtain ⟨tail, htail⟩ := exists_codeOf_eq switch
  have hat := switchAt?_code switch rest
  rw [htail, List.cons_append] at hat ⊢
  rw [pieces, piecesFrom, hat]
  dsimp only
  rw [htail, List.length_cons, Nat.add_sub_cancel, piecesFrom_append]

/-- Whatever holds no escape character is read as it stands. -/
theorem pieces_append (h : '\x1b' ∉ cs) (rest : List Char) :
    ansi.pieces (cs ++ rest) = cs.map .char ++ ansi.pieces rest := by
  induction cs with
  | nil => rfl
  | cons c cs ih =>
      rw [List.mem_cons, not_or] at h
      rw [List.cons_append, pieces_cons_of_none (switchAt?_of_ne (Ne.symm h.1) _), ih h.2,
        List.map_cons, List.cons_append]

end Palette

/-! ## Printable lines -/

/-- The pieces that a span is printed as. -/
def Span.pieces : Span → List Piece
  | .plain text => text.toList.map .char
  | .painted hue text => .code (.on hue) :: (text.toList.map .char ++ [.code .off])

namespace Line

variable {line : Line} {lines : List Line}

/-- A coloured span is its text between two codes. -/
theorem toList_render_painted (palette : Palette) (hue : Hue) (text : String) :
    ((Span.painted hue text).render palette).toList =
      palette.codeOf (.on hue) ++ (text.toList ++ palette.codeOf .off) := by
  simp [Span.render_painted, Palette.codeOf]

/-- A span is read as it was built. -/
theorem pieces_render_span {span : Span} (h : Text.Printable span.text) (rest : List Char) :
    Palette.ansi.pieces ((span.render .ansi).toList ++ rest) =
      span.pieces ++ Palette.ansi.pieces rest := by
  cases span with
  | plain text => exact Palette.pieces_append h.escape_not_mem rest
  | painted hue text =>
      have htext : '\x1b' ∉ text.toList := h.escape_not_mem
      rw [toList_render_painted, List.append_assoc, List.append_assoc,
        Palette.pieces_code_append, Palette.pieces_append htext, Palette.pieces_code_append,
        Span.pieces, List.cons_append, List.append_assoc]
      rfl

/-- **A line is read as it was built**, whatever follows it. -/
theorem pieces_render (h : line.Printable) (rest : List Char) :
    Palette.ansi.pieces ((line.render .ansi).toList ++ rest) =
      line.flatMap Span.pieces ++ Palette.ansi.pieces rest := by
  induction line with
  | nil => rfl
  | cons span line ih =>
      obtain ⟨hspan, hline⟩ := List.forall_mem_cons.mp h
      rw [render_cons, String.toList_append, List.append_assoc, pieces_render_span hspan,
        ih hline, List.flatMap_cons, List.append_assoc]

/-- Characters that are taken as pieces are given back as they were. -/
theorem filterMap_char?_map (cs : List Char) :
    (cs.map Piece.char).filterMap Piece.char? = cs := by
  rw [List.filterMap_map]
  exact List.filterMap_some

/-- Among pieces that are characters there is no switch. -/
theorem filterMap_switch?_map (cs : List Char) :
    (cs.map Piece.char).filterMap Piece.switch? = [] := by
  rw [List.filterMap_map, List.filterMap_eq_nil_iff]
  exact fun _ _ => rfl

/-- The characters of a line, without its codes, are those of the bare line. -/
theorem filterMap_char?_pieces (line : Line) :
    (line.flatMap Span.pieces).filterMap Piece.char? = (line.render .plain).toList := by
  induction line with
  | nil => rfl
  | cons span line ih =>
      rw [List.flatMap_cons, List.filterMap_append, ih, render_cons, String.toList_append]
      congr 1
      cases span with
      | plain text => exact filterMap_char?_map text.toList
      | painted hue text =>
          rw [Span.pieces, List.filterMap_cons_none rfl, List.filterMap_append,
            filterMap_char?_map, Span.render, Palette.code_plain, Palette.paint_plain]
          exact List.append_nil _

/-- The codes of a line alternate, since every coloured span ends with the reset. -/
theorem alternating_pieces (line : Line) :
    Switch.Alternating ((line.flatMap Span.pieces).filterMap Piece.switch?) := by
  induction line with
  | nil => exact .nil
  | cons span line ih =>
      rw [List.flatMap_cons, List.filterMap_append]
      cases span with
      | plain text =>
          rw [Span.pieces, filterMap_switch?_map, List.nil_append]
          exact ih
      | painted hue text =>
          rw [Span.pieces, List.filterMap_cons, List.filterMap_append, filterMap_switch?_map]
          exact .cons hue ih

/-- A printable line is read to its end. -/
theorem pieces_toList_render (h : line.Printable) :
    Palette.ansi.pieces (line.render .ansi).toList = line.flatMap Span.pieces := by
  have hread := pieces_render h []
  rwa [List.append_nil, Palette.pieces_nil, List.append_nil] at hread

/-- **Colour is decoration in every printable line.** -/
theorem decorates_render (h : line.Printable) :
    Decorates (line.render .ansi) (line.render .plain) where
  erase_eq := by
    rw [Palette.erase, pieces_toList_render h, filterMap_char?_pieces, String.ofList_toList]
  alternating := by
    rw [Palette.switchesIn, pieces_toList_render h]
    exact alternating_pieces line

/-! ## Printable documents -/

/-- A printed document is made of its printed lines. -/
theorem isLines_document (h : ∀ line ∈ lines, line.Printable) :
    Text.IsLines (document .ansi lines) (lines.map (render .ansi)) where
  eq_join := by
    rw [document_eq_join, List.map_map]
    rfl
  feed_not_mem := List.forall_mem_map.mpr fun line hline => feed_not_mem_render (h line hline) true

/-- A text of printable lines is read line by line. -/
theorem pieces_document (h : ∀ line ∈ lines, line.Printable) :
    Palette.ansi.pieces (document .ansi lines).toList =
      lines.flatMap fun line => line.flatMap Span.pieces ++ [.char '\n'] := by
  induction lines with
  | nil => rfl
  | cons line lines ih =>
      obtain ⟨hline, hlines⟩ := List.forall_mem_cons.mp h
      rw [document, String.toList_append, String.toList_append, List.append_assoc,
        pieces_render hline, List.flatMap_cons, ← ih hlines, List.append_assoc]
      rfl

/-- The characters of a text, without its codes, are those of the bare text. -/
theorem filterMap_char?_document (lines : List Line) :
    (lines.flatMap fun line => line.flatMap Span.pieces ++ [.char '\n']).filterMap Piece.char? =
      (document .plain lines).toList := by
  induction lines with
  | nil => rfl
  | cons line lines ih =>
      rw [List.flatMap_cons, List.filterMap_append, List.filterMap_append,
        filterMap_char?_pieces, ih, document, String.toList_append, String.toList_append]
      rfl

/-- **Colour is decoration in every text of printable lines.** -/
theorem decorates_document (h : ∀ line ∈ lines, line.Printable) :
    DecoratesText (document .ansi lines) (document .plain lines) where
  erase_eq := by
    rw [Palette.erase, pieces_document h, filterMap_char?_document, String.ofList_toList]
  alternating := by
    refine ⟨_, isLines_document h, List.forall_mem_map.mpr fun line hline => ?_⟩
    exact (decorates_render (h line hline)).alternating

end Line

end IntervalAutomata
