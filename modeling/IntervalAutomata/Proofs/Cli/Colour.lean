import IntervalAutomata.Cli.Report
import IntervalAutomata.Proofs.Automaton.Outline
import IntervalAutomata.Proofs.Text.Colour

/-!
# Colour is decoration

Whatever is printed in colour says the same without: outlines, the reports of compilations and of
walks, and verdicts. All of it is printed as lines of spans that are fixed before a palette is
chosen (`Cli.MatchRequest.exists_outcome_eq`), so it is enough that no span holds a control
character. The numbers, ranges and names that the lines are made of hold none
(`Numeral.printable_hex` and its neighbours), and so no line does, whatever it reports
(`CompileEvent.printable_line`, `WalkEvent.printable_line`).

The main statement (`Cli.decorates_printed`) puts together all that is printed in colour.
-/

namespace IntervalAutomata

/-! ## What lines are made of -/

/-- The names of layouts are printable. -/
@[simp] theorem Layout.printable_name (layout : Layout) : Text.Printable layout.name := by
  cases layout <;> decide

/-- Bytes in hexadecimal are printable. -/
@[simp] theorem printable_bytesText (bytes : List UInt8) : Text.Printable (bytesText bytes) := by
  rw [bytesText]
  induction bytes with
  | nil => decide
  | cons byte bytes ih =>
      cases bytes with
      | nil => simp
      | cons next bytes =>
          rw [List.map_cons] at ih ⊢
          rw [List.map_cons, String.intercalate_cons_cons]
          simp +decide [ih]

/-! ## Lines -/

/-- Whatever a compilation reports. -/
theorem CompileEvent.printable_line (event : CompileEvent) : event.line.Printable := by
  cases event with
  | enter depth low high accepting => cases accepting <;> simp +decide [line, boundsSpan]
  | laidOut depth layout => simp +decide [line]
  | edge depth range childLow childHigh => simp +decide [line, boundsSpan]
  | leaf depth range => simp +decide [line]
  | reuse depth low high => simp +decide [line, boundsSpan]

/-- Whatever a walk reports. -/
theorem WalkEvent.printable_line (event : WalkEvent) : event.line.Printable := by
  cases event with
  | encoded value bytes => simp +decide [line]
  | unencodable value width => simp +decide [line]
  | step position byte range => simp +decide [line]
  | stuck position byte => simp +decide [line]
  | ended position accepting => cases accepting <;> simp +decide [line]

namespace Cli

/-- Verdicts are printable. -/
theorem printable_verdictLine (value : UInt64) (verdict : Bool) :
    (verdictLine value verdict).Printable := by
  cases verdict <;> simp +decide [verdictLine]

/-- The complaint on bounds that are out of order is printable. -/
theorem printable_message (e : InvalidRange) : Text.Printable ("error: " ++ e.message) := by
  have hlow : Text.Printable ("invalid range: low " ++ Numeral.hex e.low.toNat) :=
    Text.printable_append.mpr ⟨by decide, Numeral.printable_hex _⟩
  have hhigh : Text.Printable
      ("invalid range: low " ++ Numeral.hex e.low.toNat ++ " is greater than high ") :=
    Text.printable_append.mpr ⟨hlow, by decide⟩
  exact Text.printable_append.mpr
    ⟨by decide, Text.printable_append.mpr ⟨hhigh, Numeral.printable_hex _⟩⟩

/-! ## Requests -/

/-- **What a request prints is fixed before it is coloured**: the lines on both streams, all of them
printable, and the exit status. -/
theorem MatchRequest.exists_outcome_eq (request : MatchRequest) :
    ∃ out err exitCode, (∀ line ∈ out, line.Printable) ∧ (∀ line ∈ err, line.Printable) ∧
      ∀ palette, request.outcome palette =
        ⟨Line.document palette out, Line.document palette err, exitCode⟩ := by
  unfold outcome verdicts traced
  cases hcompile : (Session.start request.options).compile request.low request.high with
  | mk compiled session =>
    cases compiled with
    | error e =>
        refine ⟨[], [[.plain ("error: " ++ e.message)]], 1, by simp, ?_, ?_⟩
        · rw [List.forall_mem_singleton, Line.printable_cons]
          exact ⟨printable_message e, Line.printable_nil⟩
        · intro palette
          cases request.trace <;>
            simp [Outcome.ofText, Outcome.failure, Line.document, Span.render]
    | ok automaton =>
        cases request.trace with
        | false =>
            refine ⟨_, [], 0, ?_, by simp, fun palette => rfl⟩
            exact List.forall_mem_map.mpr fun value _ => printable_verdictLine value _
        | true =>
            refine ⟨_, _, 0, ?_, ?_, fun palette => rfl⟩
            · exact List.forall_mem_map.mpr fun _ _ => printable_verdictLine _ _
            · rw [List.forall_mem_append]
              refine ⟨List.forall_mem_map.mpr fun event _ => event.printable_line, ?_⟩
              intro line hline
              obtain ⟨walk, -, hline⟩ := List.mem_flatMap.mp hline
              obtain ⟨event, -, rfl⟩ := List.mem_map.mp hline
              exact event.printable_line

/-- **Colour is decoration in all that is printed.** Without the codes, the outline of any
automaton, every line that reports on a compilation or a walk and every verdict are what is printed
without colours, and so is all that a request to test values prints; and in each line the colours
alternate with resets, so that none leaks or nests. -/
theorem decorates_printed :
    (∀ automaton : Automaton,
      DecoratesText (automaton.outlineText .ansi) (automaton.outlineText .plain)) ∧
    (∀ event : CompileEvent, Decorates (event.line.render .ansi) (event.line.render .plain)) ∧
    (∀ event : WalkEvent, Decorates (event.line.render .ansi) (event.line.render .plain)) ∧
    (∀ value verdict, Decorates ((verdictLine value verdict).render .ansi)
      ((verdictLine value verdict).render .plain)) ∧
    ∀ request : MatchRequest,
      DecoratesText (request.outcome .ansi).stdout (request.outcome .plain).stdout ∧
      DecoratesText (request.outcome .ansi).stderr (request.outcome .plain).stderr ∧
      (request.outcome .ansi).exitCode = (request.outcome .plain).exitCode := by
  refine ⟨fun automaton => ?_, fun event => ?_, fun event => ?_, fun value verdict => ?_,
    fun request => ?_⟩
  · exact Line.decorates_document automaton.printable_outline
  · exact Line.decorates_render event.printable_line
  · exact Line.decorates_render event.printable_line
  · exact Line.decorates_render (printable_verdictLine value verdict)
  · obtain ⟨out, err, exitCode, hout, herr, heq⟩ := request.exists_outcome_eq
    rw [heq, heq]
    exact ⟨Line.decorates_document hout, Line.decorates_document herr, rfl⟩

/-- A verdict is switched to its colour and back. -/
example :
    Palette.ansi.switchesIn ((verdictLine 65 true).render .ansi) = [.on .green, .off] := by
  decide

end Cli

end IntervalAutomata
