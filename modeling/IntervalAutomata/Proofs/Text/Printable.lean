import IntervalAutomata.Encoding
import IntervalAutomata.Proofs.Text.Numerals

/-!
# Printable texts

A text is printable if it holds no control character (`Text.Printable`), so that neither a line feed
nor a colour can stand in it. Numbers, ranges, bounds and names are printable
(`Numeral.printable_hex` and its neighbours), and so is a line whose spans are
(`Line.Printable`): however it is coloured, it remains one line (`Line.feed_not_mem_render`).
-/

namespace IntervalAutomata

/-! ## Texts -/

namespace Text

/-- A text without control characters. -/
def Printable (text : String) : Prop :=
  text.toList.all (fun c => decide (' ' ≤ c)) = true

/-- Whether a text is printable is decided character by character. -/
instance (text : String) : Decidable (Printable text) :=
  inferInstanceAs (Decidable (_ = true))

variable {text text' : String}

/-- A text is printable if none of its characters comes before the blank. -/
theorem printable_iff : Printable text ↔ ∀ c ∈ text.toList, ' ' ≤ c := by
  simp only [Printable, List.all_eq_true, decide_eq_true_eq]

/-- A printable text holds no escape character. -/
theorem Printable.escape_not_mem (h : Printable text) : '\x1b' ∉ text.toList :=
  fun hmem => absurd (printable_iff.mp h _ hmem) (by decide)

/-- A printable text holds no line feed. -/
theorem Printable.feed_not_mem (h : Printable text) : '\n' ∉ text.toList :=
  fun hmem => absurd (printable_iff.mp h _ hmem) (by decide)

/-- Two texts in a row are printable if both are. -/
@[simp] theorem printable_append :
    Printable (text ++ text') ↔ Printable text ∧ Printable text' := by
  simp only [Printable, String.toList_append, List.all_append, Bool.and_eq_true]

end Text

namespace Numeral

variable {base : Nat} {c : Char}

/-- A digit of any base is no control character. -/
theorem le_of_isSome_digit? (h : (digit? base c).isSome = true) : ' ' ≤ c := by
  obtain ⟨d, hd⟩ := Option.isSome_iff_exists.mp h
  rw [digit?, Option.filter_eq_some_iff] at hd
  have hweight := hd.1
  unfold weight? at hweight
  split at hweight
  · rename_i hnumeral
    exact Char.le_trans (by decide) hnumeral.1
  · split at hweight
    · rename_i hsmall
      exact Char.le_trans (by decide) hsmall.1
    · split at hweight
      · rename_i hcapital
        exact Char.le_trans (by decide) hcapital.1
      · cases hweight

/-- The digits of a number are printable. -/
theorem printable_toDigits (hbase : 1 < base) (hbase' : base ≤ 16) (n : Nat) :
    Text.Printable (String.ofList (Nat.toDigits base n)) := by
  rw [Text.printable_iff, String.toList_ofList]
  intro c hc
  exact le_of_isSome_digit? (isSome_digit?_of_mem_toDigits hbase hbase' hc)

/-- Numbers in hexadecimal are printable. -/
@[simp] theorem printable_hex (n : Nat) : Text.Printable (hex n) :=
  Text.printable_append.mpr ⟨by decide, printable_toDigits (by decide) (by decide) n⟩

/-- Numbers in decimal are printable. -/
@[simp] theorem printable_decimal (n : Nat) : Text.Printable (decimal n) :=
  printable_toDigits (by decide) (by decide) n

/-- Bytes in hexadecimal are printable. -/
@[simp] theorem printable_byteHex (n : Nat) : Text.Printable (byteHex n) := by
  rw [Text.printable_iff]
  intro c hc
  exact le_of_isSome_digit? (isSome_digit?_of_mem_byteHex hc)

end Numeral

/-- Ranges of bytes are printable. -/
@[simp] theorem ByteRange.printable_text (range : ByteRange) : Text.Printable range.text := by
  rw [text]
  split <;> simp +decide

/-- Bounds are printable. -/
@[simp] theorem Interval.printable_boundsText (low high : Nat) :
    Text.Printable (boundsText low high) := by
  simp +decide [boundsText]

/-- The names of encodings are printable. -/
@[simp] theorem Encoding.printable_name (encoding : Encoding) : Text.Printable encoding.name := by
  cases encoding <;> decide

/-! ## Lines -/

/-- The text of a span. -/
def Span.text : Span → String
  | .plain text => text
  | .painted _ text => text

/-- The text of a plain span is all that it is. -/
@[simp] theorem Span.text_plain (text : String) : (Span.plain text).text = text := rfl

/-- The text of a coloured span is the span without its colour. -/
@[simp] theorem Span.text_painted (hue : Hue) (text : String) :
    (Span.painted hue text).text = text := rfl

namespace Line

/-- A line whose spans have no control characters. -/
def Printable (line : Line) : Prop :=
  ∀ span ∈ line, Text.Printable span.text

variable {line : Line}

/-- The empty line is printable. -/
@[simp] theorem printable_nil : Printable [] := by
  simp [Printable]

/-- A line is printable if its first span and the others are. -/
@[simp] theorem printable_cons {span : Span} :
    Printable (span :: line) ↔ Text.Printable span.text ∧ line.Printable :=
  List.forall_mem_cons

/-- The mark of acceptance is printable. -/
@[simp] theorem printable_acceptMark : Text.Printable acceptMark.text := by
  decide

/-- Setting a line in adds blanks. -/
@[simp] theorem printable_atDepth {depth : Nat} :
    (atDepth depth line).Printable ↔ line.Printable := by
  have hmargin : Text.Printable (margin depth) := by
    induction depth with
    | zero => decide
    | succ depth ih => exact Text.printable_append.mpr ⟨by decide, ih⟩
  rw [atDepth, printable_cons]
  exact and_iff_right hmargin

/-- No code holds a line feed, and so no printable line does. -/
theorem feed_not_mem_render (h : line.Printable) (coloured : Bool) :
    '\n' ∉ (line.render (.ofChoice coloured)).toList := by
  have hcode : ∀ hue, '\n' ∉ ((Palette.ofChoice coloured).code hue).toList := by
    intro hue
    cases coloured <;> cases hue <;> decide
  have hreset : '\n' ∉ (Palette.ofChoice coloured).reset.toList := by
    cases coloured <;> decide
  induction line with
  | nil => simp
  | cons span line ih =>
      obtain ⟨hspan, hline⟩ := List.forall_mem_cons.mp h
      have htext := hspan.feed_not_mem
      rw [render_cons, String.toList_append, List.mem_append, not_or]
      refine ⟨?_, ih hline⟩
      cases span with
      | plain text => exact htext
      | painted hue text =>
          rw [Span.render, Palette.paint, String.toList_append, String.toList_append]
          simp only [List.mem_append, not_or]
          exact ⟨⟨hcode hue, htext⟩, hreset⟩

end Line

end IntervalAutomata
