import IntervalAutomata.Cli.Report
import IntervalAutomata.Proofs.Compile.Recognition
import IntervalAutomata.Proofs.Text.Lines

/-!
# The verdicts that are printed

A request to test values compiles its bounds and prints a verdict on each value. It does so in one
of two ways, with reports or without. This file says what is printed in words that mention neither
automata nor reports: a line for each value, with the value and whether it lies between the bounds
(`verdictsText`).

* **Bounds in order** are compiled to an automaton that tells the values between them from all
  others (`exists_compiled_of_le`). Both ways print its answers (`MatchRequest.verdicts_of_le`,
  `MatchRequest.exists_traced_of_le`), since a report does not change a verdict.
* **Bounds out of order** are refused before anything is printed (`MatchRequest.outcome_of_lt`).

The main statement (`MatchRequest.outcome_eq_verdictsText`) puts this together for all requests with
the same bounds and values.
-/

namespace IntervalAutomata

namespace Cli

/-! ## Verdicts in words -/

/-- The line on a value: the value in hexadecimal, and whether it is inside. -/
def verdictText (palette : Palette) (value : UInt64) (inside : Bool) : String :=
  Numeral.hex value.toNat ++ " " ++
    if inside then palette.paint palette.green "match" else palette.paint palette.red "no match"

/-- One line for each value, in order, on whether it lies between two bounds. -/
def verdictsText (palette : Palette) (low high : UInt64) (values : List UInt64) : String :=
  String.join (values.map fun value =>
    verdictText palette value (decide (low ≤ value ∧ value ≤ high)) ++ "\n")

/-- Without colours the line has the bare words. -/
theorem verdictText_plain (value : UInt64) (inside : Bool) :
    verdictText .plain value inside =
      Numeral.hex value.toNat ++ " " ++ if inside then "match" else "no match" := by
  cases inside <;> simp [verdictText, Palette.plain, Palette.paint]

/-- Without colours a verdict is the value and a word. -/
theorem verdictsText_plain (low high : UInt64) (values : List UInt64) :
    verdictsText .plain low high values =
      String.join (values.map fun value => Numeral.hex value.toNat ++ " " ++
        (if low ≤ value ∧ value ≤ high then "match" else "no match") ++ "\n") := by
  unfold verdictsText
  simp only [verdictText_plain, decide_eq_true_eq]

/-- The line of a verdict is printed as its text. -/
theorem render_verdictLine (palette : Palette) (value : UInt64) (verdict : Bool) :
    (verdictLine value verdict).render palette = verdictText palette value verdict := by
  cases verdict <;> simp [verdictLine, verdictText, Span.render, Palette.code]

/-- Printing the right verdict on each value gives the text. -/
theorem document_verdictLine {palette : Palette} {low high : UInt64} {verdict : UInt64 → Bool}
    (h : ∀ value, verdict value = decide (low ≤ value ∧ value ≤ high)) (values : List UInt64) :
    Line.document palette (values.map fun value => verdictLine value (verdict value)) =
      verdictsText palette low high values := by
  rw [Line.document_eq_join, verdictsText, List.map_map]
  congr 1
  apply List.map_congr_left
  intro value _
  rw [Function.comp_apply, render_verdictLine, h value]

/-! ## Bounds in order -/

/-- A new session compiles bounds in order to an automaton for the values between them. -/
theorem exists_compiled_of_le (options : CompileOptions) {low high : UInt64} (h : low ≤ high) :
    ∃ automaton session, (Session.start options).compile low high = (.ok automaton, session) ∧
      ∀ value, automaton.accepts value = decide (low ≤ value ∧ value ≤ high) := by
  obtain ⟨interval, hlow, hhigh, hcompile⟩ := Session.compile_start_of_le options h
  refine ⟨_, _, Prod.ext hcompile rfl, ?_⟩
  intro value
  rw [Bool.eq_iff_iff, decide_eq_true_iff, Automaton.accepts_compile_iff_mem, Interval.mem_iff,
    hlow, hhigh, UInt64.le_iff_toNat_le, UInt64.le_iff_toNat_le]

namespace MatchRequest

variable (request : MatchRequest)

/-- The verdicts without reports. -/
theorem verdicts_of_le (h : request.low ≤ request.high) (palette : Palette) :
    request.verdicts palette =
      .ok (verdictsText palette request.low request.high request.values) := by
  obtain ⟨automaton, session, hcompile, haccepts⟩ := exists_compiled_of_le request.options h
  unfold verdicts
  rw [hcompile]
  dsimp only
  rw [document_verdictLine haccepts]

/-- The verdicts with reports, which go elsewhere. -/
theorem exists_traced_of_le (h : request.low ≤ request.high) (palette : Palette) :
    ∃ reports, request.traced palette =
      .ok ⟨verdictsText palette request.low request.high request.values, reports, 0⟩ := by
  obtain ⟨automaton, session, hcompile, haccepts⟩ := exists_compiled_of_le request.options h
  have hverdict : ∀ value, (automaton.walk value).verdict =
      decide (request.low ≤ value ∧ value ≤ request.high) := by
    intro value
    rw [Automaton.verdict_walk, haccepts value]
  unfold traced
  rw [hcompile]
  simp only [Except.ok.injEq, Outcome.mk.injEq, and_true]
  refine ⟨_, ?_, rfl⟩
  rw [List.map_map]
  exact document_verdictLine hverdict request.values

/-- With or without reports the verdicts are printed, and the run succeeds. -/
theorem outcome_of_le (h : request.low ≤ request.high) (palette : Palette) :
    (request.outcome palette).stdout =
        verdictsText palette request.low request.high request.values ∧
      (request.outcome palette).exitCode = 0 := by
  unfold outcome
  cases request.trace with
  | false =>
      rw [if_neg Bool.false_ne_true, verdicts_of_le request h]
      exact ⟨rfl, rfl⟩
  | true =>
      obtain ⟨reports, htraced⟩ := exists_traced_of_le request h palette
      rw [if_pos rfl, htraced]
      exact ⟨rfl, rfl⟩

/-! ## Bounds out of order -/

/-- The outcome of a run that fails with the complaint about two bounds. -/
theorem failure_invalidRange (low high : UInt64) :
    Outcome.failure (InvalidRange.message ⟨low, high⟩) =
      { stdout := ""
        stderr := "error: invalid range: low " ++ Numeral.hex low.toNat ++
          " is greater than high " ++ Numeral.hex high.toNat ++ "\n"
        exitCode := 1 } := by
  have hopening : "error: " ++ "invalid range: low " = "error: invalid range: low " := rfl
  unfold Outcome.failure InvalidRange.message
  rw [← String.append_assoc, ← String.append_assoc, ← String.append_assoc, hopening]

/-- With or without reports the run fails with the complaint about the bounds alone. -/
theorem outcome_of_lt (h : request.high < request.low) (palette : Palette) :
    request.outcome palette =
      .failure (InvalidRange.message ⟨request.low, request.high⟩) := by
  have hcompile : (Session.start request.options).compile request.low request.high =
      (.error ⟨request.low, request.high⟩, Session.start request.options) := by
    simp only [Session.compile, Interval.ofBounds_of_lt h]
  unfold outcome traced verdicts
  rw [hcompile]
  cases request.trace <;> rfl

/-! ## All requests -/

/-- **The verdicts that are printed.** For bounds in order every request, with any options and with
or without reports, prints the same text: a line for each value, in order, on whether it lies
between the bounds. For bounds out of order it prints the complaint about them and nothing else, and
fails. Without colours the lines have the bare words. -/
theorem outcome_eq_verdictsText (low high : UInt64) (values : List UInt64) (palette : Palette) :
    (low ≤ high → ∀ options trace colour,
      verdicts ⟨low, high, values, options, trace, colour⟩ palette =
          .ok (verdictsText palette low high values) ∧
        (outcome ⟨low, high, values, options, trace, colour⟩ palette).stdout =
          verdictsText palette low high values ∧
        (outcome ⟨low, high, values, options, trace, colour⟩ palette).exitCode = 0) ∧
    (high < low → ∀ options trace colour,
      outcome ⟨low, high, values, options, trace, colour⟩ palette =
        { stdout := ""
          stderr := "error: invalid range: low " ++ Numeral.hex low.toNat ++
            " is greater than high " ++ Numeral.hex high.toNat ++ "\n"
          exitCode := 1 }) ∧
    verdictsText .plain low high values =
      String.join (values.map fun value => Numeral.hex value.toNat ++ " " ++
        (if low ≤ value ∧ value ≤ high then "match" else "no match") ++ "\n") := by
  refine ⟨?_, ?_, verdictsText_plain low high values⟩
  · intro h options trace colour
    let request : MatchRequest := ⟨low, high, values, options, trace, colour⟩
    exact ⟨verdicts_of_le request h palette, outcome_of_le request h palette⟩
  · intro h options trace colour
    let request : MatchRequest := ⟨low, high, values, options, trace, colour⟩
    exact (outcome_of_lt request h palette).trans (failure_invalidRange low high)

/-- A request with reports on values below, in and above its bounds, the last of them too wide for
the padded encoding; and one with its bounds out of order. -/
theorem outcome_eq_verdictsText_wide :
    ((1 : UInt64) ≤ 0xffff ∧
      (outcome ⟨1, 0xffff, [0, 1, 0x10000], ⟨.padded, true⟩, true, .never⟩ .plain).stdout =
        "0x0 no match\n0x1 match\n0x10000 no match\n") ∧
    (4 : UInt64) < 5 ∧
      outcome ⟨5, 4, [4], ⟨.minimal, false⟩, true, .never⟩ .plain =
        ⟨"", "error: invalid range: low 0x5 is greater than high 0x4\n", 1⟩ := by
  obtain ⟨hinside, -, -⟩ := outcome_eq_verdictsText 1 0xffff [0, 1, 0x10000] .plain
  obtain ⟨-, hrefused, -⟩ := outcome_eq_verdictsText 5 4 [4] .plain
  obtain ⟨-, hstdout, -⟩ := hinside (by decide) ⟨.padded, true⟩ true .never
  refine ⟨⟨by decide, ?_⟩, by decide, ?_⟩
  · rw [hstdout]
    decide
  · rw [hrefused (by decide)]
    decide

end MatchRequest

end Cli

end IntervalAutomata
