import IntervalAutomata.Encoding
import IntervalAutomata.Interval.Listing
import IntervalAutomata.Preset

/-!
# The grammar of the command line

The three commands with their arguments, as data: the reader of command lines and the description of
commands go by these definitions alone. Some of them serve the description only: what a command says
of itself on being asked for help (`Command.afterHelp`, `programName`) and of its arguments
(`Argument.help`, `Argument.valueNames`, `Argument.choices`, `Argument.default?`).

What an argument is, and how it is described, follows a library for command lines that is not part
of this one. The definitions stand in for as much of it as the program uses, and no statement about
requests and their outcomes rests on them.
-/

namespace IntervalAutomata.Cli

/-! ## Definitions -/

/-- What the value of an argument must be. -/
inductive ValueForm where
  /-- A number below `2 ^ 64`. -/
  | number
  /-- An interval. -/
  | interval
  /-- One of some words. -/
  | choice (words : List String)
deriving DecidableEq

/-- How an argument is given. -/
inductive Shape where
  /-- By its place among the words; the last place may take all that remain. -/
  | positional (valueName : String) (form : ValueForm) (several : Bool)
  /-- By a name before its value. -/
  | option (short : Option Char) (long valueName : String) (form : ValueForm)
      (default : Option String) (repeatable : Bool)
  /-- By its name alone. -/
  | flag (long : String)
deriving DecidableEq

/-- An argument of a command. -/
structure Argument where
  /-- What the argument's values are kept under. -/
  id : String
  /-- What the argument is for, as its description says. -/
  help : String
  /-- How it is given. -/
  shape : Shape
deriving DecidableEq

/-- A command. -/
structure Command where
  /-- The word that selects the command. -/
  name : String
  /-- What the command does. -/
  about : String
  /-- What follows the command's help: a part of the description, which nothing else reads. -/
  afterHelp : String
  /-- The arguments in order. -/
  arguments : List Argument

namespace Argument

/-- The name of a single character. -/
def short? (argument : Argument) : Option Char :=
  match argument.shape with
  | .option short .. => short
  | _ => none

/-- The name of several characters. -/
def long? (argument : Argument) : Option String :=
  match argument.shape with
  | .positional .. => none
  | .option _ long .. => some long
  | .flag long => some long

/-- Whether the argument is given by its place. -/
def isPositional (argument : Argument) : Bool :=
  match argument.shape with
  | .positional .. => true
  | _ => false

/-- The names of the argument's values, as its description shows them. -/
def valueNames (argument : Argument) : List String :=
  match argument.shape with
  | .positional valueName .. => [valueName]
  | .option _ _ valueName .. => [valueName]
  | .flag _ => []

/-- The value that stands when the argument is not given, as its description shows it; requests have
the defaults in themselves. -/
def default? (argument : Argument) : Option String :=
  match argument.shape with
  | .option _ _ _ _ default _ => default
  | _ => none

/-- The words among which the argument chooses, as its description shows them. -/
def choices (argument : Argument) : List String :=
  match argument.shape with
  | .positional _ (.choice words) _ => words
  | .option _ _ _ (.choice words) _ _ => words
  | _ => []

/-- The argument as complaints name it. -/
def label (argument : Argument) : String :=
  match argument.shape with
  | .positional valueName _ several => "<" ++ valueName ++ ">" ++ (if several then "..." else "")
  | .option _ long valueName .. => "--" ++ long ++ " <" ++ valueName ++ ">"
  | .flag long => "--" ++ long

end Argument

namespace Command

/-- The positional argument at a place, the first place being 0. -/
def positional? (command : Command) (place : Nat) : Option Argument :=
  (command.arguments.filter Argument.isPositional)[place]?

/-- The argument with a long name. -/
def byLong? (command : Command) (name : String) : Option Argument :=
  command.arguments.find? (·.long? = some name)

/-- The argument with a short name. -/
def byShort? (command : Command) (name : Char) : Option Argument :=
  command.arguments.find? (·.short? = some name)

end Command

/-! ## Choices -/

/-- When output is coloured. -/
inductive ColourChoice where
  /-- Only on a terminal. -/
  | auto
  /-- Wherever it goes. -/
  | always
  /-- Nowhere. -/
  | never
deriving DecidableEq

/-- The word for a choice of colour. -/
def ColourChoice.name : ColourChoice → String
  | .auto => "auto"
  | .always => "always"
  | .never => "never"

/-- Whether a choice colours the output, given whether that goes to a terminal. -/
def ColourChoice.resolve (terminal : Bool) : ColourChoice → Bool
  | .auto => terminal
  | .always => true
  | .never => false

/-- How an automaton is shown. -/
inductive DumpFormat where
  /-- As an outline. -/
  | text
  /-- As a graph in DOT. -/
  | dot
deriving DecidableEq

/-- The word for a form of showing automata. -/
def DumpFormat.name : DumpFormat → String
  | .text => "text"
  | .dot => "dot"

/-- The encodings, the default first. -/
def encodings : List Encoding := [.minimal, .padded]

/-- The choices of colour, the default first. -/
def colourChoices : List ColourChoice := [.auto, .always, .never]

/-- The forms of showing automata, the default first. -/
def dumpFormats : List DumpFormat := [.text, .dot]

/-- The forms of printing lists, the default first. -/
def listFormats : List ListFormat := [.hex, .chain, .json]

/-! ## Arguments -/

/-- The lower bound of the interval. -/
def lowArgument : Argument where
  id := "low"
  help := "Lower bound, inclusive (decimal or 0x hex)"
  shape := .positional "LOW" .number false

/-- The upper bound of the interval. -/
def highArgument : Argument where
  id := "high"
  help := "Upper bound, inclusive (decimal or 0x hex)"
  shape := .positional "HIGH" .number false

/-- The values that are tested. -/
def valuesArgument : Argument where
  id := "values"
  help := "Values to test against the interval"
  shape := .positional "VALUE" .number true

/-- The encoding of values. -/
def encodingArgument : Argument where
  id := "encoding"
  help := "Value encoding: minimal little-endian or zero-padded to the width of HIGH"
  shape := .option (some 'e') "encoding" "ENCODING" (.choice (encodings.map Encoding.name))
    (some "minimal") false

/-- Whether nodes are shared. -/
def memoizeArgument : Argument where
  id := "memoize"
  help := "Share identical subtrees between edges"
  shape := .flag "memoize"

/-- The form in which an automaton is shown. -/
def dumpFormatArgument : Argument where
  id := "format"
  help := "Output format"
  shape := .option none "format" "FORMAT" (.choice (dumpFormats.map DumpFormat.name))
    (some "text") false

/-- Whether reports are printed. -/
def traceArgument : Argument where
  id := "trace"
  help := "Print compile and match traces to stderr"
  shape := .flag "trace"

/-- When output is coloured. -/
def colourArgument : Argument where
  id := "color"
  help := "Colorize output"
  shape := .option none "color" "WHEN" (.choice (colourChoices.map ColourChoice.name))
    (some "auto") false

/-- The intervals to reduce. -/
def baseArgument : Argument where
  id := "base"
  help := "Interval to include (LOW-HIGH, LOW..=HIGH or VALUE)"
  shape := .option (some 'b') "base" "INTERVAL" .interval none true

/-- The intervals to take out. -/
def excludeArgument : Argument where
  id := "exclude"
  help := "Interval to subtract (LOW-HIGH, LOW..=HIGH or VALUE)"
  shape := .option (some 'x') "exclude" "INTERVAL" .interval none true

/-- The preset to start from. -/
def presetArgument : Argument where
  id := "preset"
  help := "Start from a built-in base and exclusion set"
  shape := .option none "preset" "NAME" (.choice Preset.names) none false

/-- The form in which a list of intervals is printed. -/
def listFormatArgument : Argument where
  id := "format"
  help := "Output format"
  shape := .option none "format" "FORMAT" (.choice (listFormats.map ListFormat.name))
    (some "hex") false

/-! ## Commands -/

/-- The word that names the program, as its description shows it. -/
def programName : String := "bytespan"

/-- What the program does. -/
def programAbout : String := "Compile integer intervals into byte-range automata"

/-- Shows the automaton of an interval. -/
def dumpCommand : Command where
  name := "dump"
  about := "Show the automaton for an interval"
  afterHelp := "EXAMPLES:\n" ++
    "  bytespan dump 0 0x1ff                     # indented edge list\n" ++
    "  bytespan dump 1 0xdeadbeef --memoize      # shared subtrees\n" ++
    "  bytespan dump 0 0x100 -e padded           # fixed-width encoding\n" ++
    "  bytespan dump 0 0xffff --format dot | dot -Tsvg > automaton.svg"
  arguments := [lowArgument, highArgument, encodingArgument, memoizeArgument, dumpFormatArgument,
    colourArgument]

/-- Tests values against the automaton of an interval. -/
def matchCommand : Command where
  name := "match"
  about := "Test values against the automaton for an interval"
  afterHelp := "EXAMPLES:\n" ++
    "  bytespan match 1 0xdeadbeef 0 1 0xdeadbeef  # one verdict per value\n" ++
    "  bytespan match 0 0x1ff 0x100 --trace        # show compile and walk"
  arguments := [lowArgument, highArgument, valuesArgument, encodingArgument, memoizeArgument,
    traceArgument, colourArgument]

/-- Takes intervals out of a list of intervals. -/
def reduceCommand : Command where
  name := "reduce"
  about := "Subtract exclusion intervals from a base set"
  afterHelp := "EXAMPLES:\n" ++
    "  bytespan reduce -b 0x20-0xd7ff -x 0x7f-0x84       # two fragments\n" ++
    "  bytespan reduce --preset xml-char --format rust   # lexer table"
  arguments := [baseArgument, excludeArgument, presetArgument, listFormatArgument]

/-- All commands. -/
def commands : List Command := [dumpCommand, matchCommand, reduceCommand]

/-- The command that a word selects. -/
def command? (word : String) : Option Command :=
  commands.find? (·.name = word)

/-- The word that asks for help, as a command. -/
def helpWord : String := "help"

end IntervalAutomata.Cli
