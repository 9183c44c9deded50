import IntervalAutomata.Cli.Reader
import IntervalAutomata.Compile.Build

/-!
# Requests

What a command line asks for, once its values have been read: a record for each command, in which
arguments that were not given have their defaults.
-/

namespace IntervalAutomata.Cli

/-- Show the automaton of an interval. -/
structure DumpRequest where
  /-- The lower bound. -/
  low : UInt64
  /-- The upper bound. -/
  high : UInt64
  /-- How the interval is compiled. -/
  options : CompileOptions
  /-- How the automaton is shown. -/
  format : DumpFormat
  /-- When the output is coloured. -/
  colour : ColourChoice

/-- Test values against an interval. -/
structure MatchRequest where
  /-- The lower bound. -/
  low : UInt64
  /-- The upper bound. -/
  high : UInt64
  /-- The values in order. -/
  values : List UInt64
  /-- How the interval is compiled. -/
  options : CompileOptions
  /-- Whether reports are printed. -/
  trace : Bool
  /-- When the output is coloured. -/
  colour : ColourChoice

/-- Take intervals out of others. -/
structure ReduceRequest where
  /-- The intervals to reduce, after those of the preset. -/
  base : List Interval
  /-- The intervals to take out, after those of the preset. -/
  exclude : List Interval
  /-- The name of the preset to start from. -/
  preset : Option String
  /-- How the outcome is printed. -/
  format : ListFormat

/-- A request of any command. -/
inductive Request where
  /-- Show an automaton. -/
  | dump (request : DumpRequest)
  /-- Test values. -/
  | probe (request : MatchRequest)
  /-- Reduce a list. -/
  | reduce (request : ReduceRequest)

namespace Bindings

/-- What the word given for an argument selects among some choices; the first if none is given. -/
def choose {α : Type} (bindings : Bindings) (argument : Argument) (name : α → String)
    (choices : List α) (fallback : α) : α :=
  match bindings.words argument.id with
  | [] => fallback
  | word :: _ => (choices.find? (name · = word)).getD fallback

/-- How an interval is compiled. -/
def options (bindings : Bindings) : CompileOptions where
  encoding := bindings.choose encodingArgument Encoding.name encodings .minimal
  memoize := bindings.has memoizeArgument.id

/-- When output is coloured. -/
def colour (bindings : Bindings) : ColourChoice :=
  bindings.choose colourArgument ColourChoice.name colourChoices .auto

/-- The first number given for an argument; a number that is required is always given. -/
def number (bindings : Bindings) (argument : Argument) : UInt64 :=
  (bindings.numbers argument.id).headD 0

/-- The request to show an automaton. -/
def dumpRequest (bindings : Bindings) : DumpRequest where
  low := bindings.number lowArgument
  high := bindings.number highArgument
  options := bindings.options
  format := bindings.choose dumpFormatArgument DumpFormat.name dumpFormats .text
  colour := bindings.colour

/-- The request to test values. -/
def matchRequest (bindings : Bindings) : MatchRequest where
  low := bindings.number lowArgument
  high := bindings.number highArgument
  values := bindings.numbers valuesArgument.id
  options := bindings.options
  trace := bindings.has traceArgument.id
  colour := bindings.colour

/-- The request to reduce a list. -/
def reduceRequest (bindings : Bindings) : ReduceRequest where
  base := bindings.intervals baseArgument.id
  exclude := bindings.intervals excludeArgument.id
  preset := (bindings.words presetArgument.id).head?
  format := bindings.choose listFormatArgument ListFormat.name listFormats .hex

end Bindings

/-- The request of a command with the values of its arguments. -/
def Request.ofBindings (command : Command) (bindings : Bindings) : Request :=
  if command.name = dumpCommand.name then .dump bindings.dumpRequest
  else if command.name = matchCommand.name then .probe bindings.matchRequest
  else .reduce bindings.reduceRequest

/-- The request of a command line. -/
def Request.ofWords (words : List String) : Except UsageError Request :=
  (readCommandLine words).map fun (command, bindings) => Request.ofBindings command bindings

end IntervalAutomata.Cli
