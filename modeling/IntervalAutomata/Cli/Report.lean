import IntervalAutomata.Automaton.Dot
import IntervalAutomata.Automaton.Outline
import IntervalAutomata.Automaton.Walk
import IntervalAutomata.Cli.Request
import IntervalAutomata.Compile.Session
import IntervalAutomata.Interval.Difference
import IntervalAutomata.Json.StandIn.Reader

/-!
# Reports

What each request prints. A request either succeeds, and then everything it prints is known, or
fails with a complaint before anything is printed (`Outcome`).

Testing values has two ways: one that only decides (`MatchRequest.verdicts`), and one that reports
how the automaton was compiled and walked (`MatchRequest.traced`). They print the same verdicts.

A list is printed as JSON by the library that the program is run with (`Json.standIn`).
-/

namespace IntervalAutomata.Cli

/-- What a run prints, and its exit status. -/
structure Outcome where
  /-- What goes to the standard output. -/
  stdout : String
  /-- What goes to the standard error. -/
  stderr : String
  /-- The exit status. -/
  exitCode : Nat
deriving DecidableEq

/-- The outcome of a run that fails with a complaint. -/
def Outcome.failure (message : String) : Outcome :=
  ⟨"", "error: " ++ message ++ "\n", 1⟩

/-! ## Showing an automaton -/

/-- The automaton in the form that is asked for. -/
def DumpRequest.shown (request : DumpRequest) (palette : Palette) : Except InvalidRange String :=
  match ((Session.start request.options).compile request.low request.high).1 with
  | .error e => .error e
  | .ok automaton =>
    match request.format with
    | .text => .ok (automaton.outlineText palette)
    | .dot => .ok automaton.dotText

/-! ## Testing values -/

/-- The printed line of a verdict. -/
def verdictLine (value : UInt64) (verdict : Bool) : Line :=
  [.plain (Numeral.hex value.toNat ++ " "),
    if verdict then .painted .green "match" else .painted .red "no match"]

/-- The verdicts on all values, one a line. -/
def MatchRequest.verdicts (request : MatchRequest) (palette : Palette) :
    Except InvalidRange String :=
  match ((Session.start request.options).compile request.low request.high).1 with
  | .error e => .error e
  | .ok automaton =>
    .ok (Line.document palette
      (request.values.map fun value => verdictLine value (automaton.accepts value)))

/-- The verdicts on all values with the reports of the compilation and of every walk. -/
def MatchRequest.traced (request : MatchRequest) (palette : Palette) :
    Except InvalidRange Outcome :=
  match (Session.start request.options).compile request.low request.high with
  | (.error e, _) => .error e
  | (.ok automaton, session) =>
    let walks := request.values.map fun value => (value, automaton.walk value)
    .ok {
      stdout := Line.document palette
        (walks.map fun (value, walk) => verdictLine value walk.verdict)
      stderr := Line.document palette
        (session.trace.map CompileEvent.line
          ++ walks.flatMap fun (_, walk) => walk.events.map WalkEvent.line)
      exitCode := 0 }

/-! ## Reducing a list -/

/-- Why a list cannot be reduced. -/
inductive ReduceError where
  /-- No preset has this name. -/
  | unknownPreset (name : String)
  /-- There are no intervals to reduce. -/
  | noBase
deriving DecidableEq

/-- The complaint in words. -/
def ReduceError.message : ReduceError → String
  | .unknownPreset name => "unknown preset '" ++ name ++ "'"
  | .noBase => "no base intervals (use --base or --preset)"

/-- The intervals that a request starts from and those that it takes out: the preset's own come
first. -/
def ReduceRequest.collected (request : ReduceRequest) :
    Except ReduceError (List Interval × List Interval) :=
  match request.preset with
  | none => .ok (request.base, request.exclude)
  | some name =>
    match Preset.find? name with
    | none => .error (.unknownPreset name)
    | some preset => .ok (preset.base ++ request.base, preset.exclusions ++ request.exclude)

/-- The intervals that remain. -/
def ReduceRequest.remaining (request : ReduceRequest) : Except ReduceError (List Interval) :=
  match request.collected with
  | .error e => .error e
  | .ok (base, exclusions) =>
    if base = [] then .error .noBase else .ok (Interval.subtractAll base exclusions)

/-- The intervals that remain, in the form that is asked for. -/
def ReduceRequest.shown (request : ReduceRequest) : Except ReduceError String :=
  request.remaining.map request.format.render

/-! ## Outcomes -/

/-- The outcome of printing a text, or of the complaint that stands in its place. -/
def Outcome.ofText {ε : Type} (message : ε → String) : Except ε String → Outcome
  | .ok text => ⟨text, "", 0⟩
  | .error e => .failure (message e)

/-- The outcome of testing values. -/
def MatchRequest.outcome (request : MatchRequest) (palette : Palette) : Outcome :=
  if request.trace then
    match request.traced palette with
    | .ok outcome => outcome
    | .error e => .failure e.message
  else
    .ofText InvalidRange.message (request.verdicts palette)

/-- The outcome of a request, given whether the output goes to a terminal. -/
def Request.outcome (terminal : Bool) : Request → Outcome
  | .dump request =>
    .ofText InvalidRange.message
      (request.shown (.ofChoice (request.colour.resolve terminal)))
  | .probe request => request.outcome (.ofChoice (request.colour.resolve terminal))
  | .reduce request => .ofText ReduceError.message request.shown

end IntervalAutomata.Cli
