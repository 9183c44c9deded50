import IntervalAutomata.Cli.Grammar
import IntervalAutomata.Interval.Reading

/-!
# Reading command lines

Words are taken from left to right (`Reader.take`), and the first fault decides. Values are not read
at once: a positional word or the value of an option stays pending until the next word that the
grammar knows, or until the words end (`Reader.settle`). A word that the grammar does not know is
therefore reported before the value pending at that point, and a value attached to its option is
read immediately.

After the word `--` every word is positional.

The reader stands in for a library for command lines that is not part of this one, and follows its
rules as far as documentation and runs show them. What a command line is read as is a request, and
statements about the program are statements about requests (`MatchRequest.outcome`); none of them
rests on the reader.
-/

namespace IntervalAutomata.Cli

/-- Why a command line is refused, or that it asks for help. -/
inductive UsageError where
  /-- There is nothing to do. -/
  | nothingGiven
  /-- Help is asked for. -/
  | help
  /-- The first word, or the word after `help`, is no command. -/
  | unknownCommand (word : String)
  /-- A required positional argument is missing. -/
  | missingArgument (argument : Argument)
  /-- A word that no argument takes. -/
  | unknownArgument (word : String)
  /-- A word that is not among an option's choices, or an option without its value. -/
  | invalidChoice (argument : Argument) (value : String)
  /-- A value that is no number or no interval. -/
  | invalidValue (argument : Argument) (value : String) (cause : ReadError)
  /-- An argument that may be given once was given twice. -/
  | repeated (argument : Argument)
  /-- A value was attached to an argument that takes none. -/
  | unwantedValue (name : String)
deriving DecidableEq

/-- The exit status that goes with an outcome of reading. -/
def UsageError.exitCode : UsageError → Nat
  | .help => 0
  | _ => 2

/-- The complaint in words. -/
def UsageError.message : UsageError → String
  | .nothingGiven => "no command given"
  | .help => "help"
  | .unknownCommand word => "unrecognized subcommand '" ++ word ++ "'"
  | .missingArgument argument => "missing argument " ++ argument.label
  | .unknownArgument word => "unexpected argument '" ++ word ++ "'"
  | .invalidChoice argument value => "invalid value '" ++ value ++ "' for " ++ argument.label
  | .invalidValue argument value cause =>
    "invalid value '" ++ value ++ "' for " ++ argument.label ++ ": " ++ cause.message
  | .repeated argument => argument.label ++ " cannot be used multiple times"
  | .unwantedValue name => "unexpected value for --" ++ name

/-! ## Words -/

/-- A word of the command line by its looks. -/
inductive Word where
  /-- Two dashes alone. -/
  | separator
  /-- Two dashes and a name, perhaps with a value after an equals sign. -/
  | long (name : String) (value : Option String)
  /-- One dash and a letter, perhaps with a value behind it. -/
  | short (name : Char) (value : Option String)
  /-- Anything else, a single dash included. -/
  | plain
deriving DecidableEq

namespace Word

/-- The name of a long word, and its value if an equals sign follows the name. -/
def splitEquals : List Char → List Char × Option (List Char)
  | [] => ([], none)
  | c :: cs =>
    if c = '=' then ([], some cs)
    else
      let parts := splitEquals cs
      (c :: parts.1, parts.2)

/-- The value behind a letter: none if nothing follows, and an equals sign before it is dropped. -/
def attached? : List Char → Option (List Char)
  | [] => none
  | c :: cs => if c = '=' then some cs else some (c :: cs)

/-- Tells a word by its looks. -/
def ofText (text : String) : Word :=
  match text.toList with
  | ['-', '-'] => .separator
  | '-' :: '-' :: cs =>
    .long (String.ofList (splitEquals cs).1) ((splitEquals cs).2.map String.ofList)
  | '-' :: c :: cs => .short c ((attached? cs).map String.ofList)
  | _ => .plain

end Word

/-! ## Values -/

/-- A value of an argument. -/
inductive Value where
  /-- A number. -/
  | number (n : UInt64)
  /-- An interval. -/
  | interval (i : Interval)
  /-- One of an argument's words. -/
  | word (text : String)
  /-- The presence of a flag. -/
  | present
deriving DecidableEq

/-- Values of arguments by the arguments' ids, in the order in which they were read. -/
abbrev Bindings := List (String × Value)

namespace Bindings

/-- Whether an argument has a value. -/
def has (bindings : Bindings) (id : String) : Bool :=
  bindings.any (·.1 = id)

/-- The numbers given for an argument. -/
def numbers (bindings : Bindings) (id : String) : List UInt64 :=
  bindings.filterMap fun binding =>
    match binding with
    | (name, .number n) => if name = id then some n else none
    | _ => none

/-- The intervals given for an argument. -/
def intervals (bindings : Bindings) (id : String) : List Interval :=
  bindings.filterMap fun binding =>
    match binding with
    | (name, .interval i) => if name = id then some i else none
    | _ => none

/-- The words given for an argument. -/
def words (bindings : Bindings) (id : String) : List String :=
  bindings.filterMap fun binding =>
    match binding with
    | (name, .word text) => if name = id then some text else none
    | _ => none

end Bindings

/-- Reads one value of an argument. -/
def readValue (argument : Argument) (form : ValueForm) (text : String) :
    Except UsageError Value :=
  match form with
  | .number =>
    match readNumber text with
    | .ok n => .ok (.number n)
    | .error e => .error (.invalidValue argument text e)
  | .interval =>
    match Interval.ofText text with
    | .ok i => .ok (.interval i)
    | .error e => .error (.invalidValue argument text e)
  | .choice words =>
    if text ∈ words then .ok (.word text) else .error (.invalidChoice argument text)

/-- Reads values of one argument in order. -/
def readValues (argument : Argument) (form : ValueForm) :
    List String → Except UsageError Bindings
  | [] => .ok []
  | text :: texts =>
    match readValue argument form text with
    | .error e => .error e
    | .ok value => (readValues argument form texts).map ((argument.id, value) :: ·)

/-! ## The reader -/

/-- What has been read so far. -/
structure Reader where
  /-- The values read. -/
  bindings : Bindings
  /-- An argument that has been begun, with the texts given for it. -/
  pending : Option (Argument × List String)
  /-- The place of the next positional argument. -/
  place : Nat
  /-- Whether every further word is positional. -/
  trailing : Bool

namespace Reader

/-- The reader before the first word. -/
def start : Reader := ⟨[], none, 0, false⟩

/-- Gives an argument its values. An option must have a value, and an argument that is not
repeatable must have none yet. -/
def bind (reader : Reader) (argument : Argument) (texts : List String) :
    Except UsageError Reader :=
  match argument.shape with
  | .positional _ form _ =>
    (readValues argument form texts).map fun more =>
      { reader with bindings := reader.bindings ++ more }
  | .option _ _ _ form _ repeatable =>
    if texts = [] then .error (.invalidChoice argument "")
    else if ¬ repeatable ∧ reader.bindings.has argument.id then .error (.repeated argument)
    else
      (readValues argument form texts).map fun more =>
        { reader with bindings := reader.bindings ++ more }
  | .flag _ =>
    if reader.bindings.has argument.id then .error (.repeated argument)
    else .ok { reader with bindings := reader.bindings ++ [(argument.id, .present)] }

/-- Reads what is pending. -/
def settle (reader : Reader) : Except UsageError Reader :=
  match reader.pending with
  | none => .ok reader
  | some (argument, texts) => bind { reader with pending := none } argument texts

/-- The option that has been named but not yet given its value. -/
def awaiting? (reader : Reader) : Option Argument :=
  match reader.pending with
  | some (argument, []) => some argument
  | _ => none

/-- Takes an argument named by a word, perhaps with a value attached. -/
def takeNamed (reader : Reader) (argument : Argument) (name : String) (value : Option String) :
    Except UsageError Reader :=
  match argument.shape, value with
  | .option .., some text =>
    match reader.settle with
    | .error e => .error e
    | .ok reader => reader.bind argument [text]
  | .flag _, none =>
    match reader.settle with
    | .error e => .error e
    | .ok reader => reader.bind argument []
  | .flag _, some _ => .error (.unwantedValue name)
  | _, _ => reader.settle.map fun reader => { reader with pending := some (argument, []) }

/-- Takes a request for help, which is granted once what is pending has been read. -/
def takeHelp (reader : Reader) (value : Option String) : Except UsageError Reader :=
  match value with
  | some _ => .error (.unwantedValue "help")
  | none =>
    match reader.settle with
    | .error e => .error e
    | .ok _ => .error .help

/-- Takes a word by its place. -/
def takePositional (command : Command) (reader : Reader) (text : String) :
    Except UsageError Reader :=
  match command.positional? reader.place with
  | none => .error (.unknownArgument text)
  | some argument =>
    match argument.shape, reader.pending with
    | .positional _ _ true, some (other, texts) =>
      if other = argument then
        .ok { reader with pending := some (argument, texts ++ [text]) }
      else
        reader.settle.map fun reader => { reader with pending := some (argument, [text]) }
    | .positional _ _ true, none => .ok { reader with pending := some (argument, [text]) }
    | _, _ =>
      reader.settle.map fun reader =>
        { reader with pending := some (argument, [text]), place := reader.place + 1 }

/-- Takes one word. -/
def take (command : Command) (reader : Reader) (text : String) : Except UsageError Reader :=
  if reader.trailing then
    takePositional command reader text
  else
    match Word.ofText text with
    | .separator => .ok { reader with trailing := true }
    | .long name value =>
      if name = "help" then reader.takeHelp value
      else
        match command.byLong? name with
        | none => .error (.unknownArgument text)
        | some argument => reader.takeNamed argument name value
    | .short name value =>
      if name = 'h' then reader.takeHelp none
      else
        match command.byShort? name with
        | none => .error (.unknownArgument text)
        | some argument => reader.takeNamed argument (String.singleton name) value
    | .plain =>
      match reader.awaiting? with
      | some argument => .ok { reader with pending := some (argument, [text]) }
      | none => takePositional command reader text

/-- Takes words in order. -/
def takeAll (command : Command) (reader : Reader) : List String → Except UsageError Reader
  | [] => .ok reader
  | text :: texts =>
    match reader.take command text with
    | .error e => .error e
    | .ok reader => takeAll command reader texts

end Reader

/-- Reads the words after a command: all that is given must be valid, and every positional argument
must be given. -/
def readArguments (command : Command) (words : List String) : Except UsageError Bindings :=
  match Reader.start.takeAll command words with
  | .error e => .error e
  | .ok reader =>
    match reader.settle with
    | .error e => .error e
    | .ok reader =>
      match command.arguments.find? fun a => a.isPositional && !reader.bindings.has a.id with
      | some argument => .error (.missingArgument argument)
      | none => .ok reader.bindings

/-! ## The first word -/

/-- Whether a word selects a command, help included. -/
def isCommandWord (word : String) : Bool :=
  word = helpWord || (command? word).isSome

/-- What a command line that begins with the word `--` is refused for. -/
def refuseTrailing : List String → UsageError
  | [] => .nothingGiven
  | word :: _ => if isCommandWord word then .unknownArgument word else .unknownCommand word

/-- What the words after `help` lead to: help on the program or on one command. -/
def answerHelp : List String → UsageError
  | [] => .help
  | word :: words =>
    if isCommandWord word then
      match words with
      | [] => .help
      | extra :: _ => .unknownCommand extra
    else .unknownCommand word

/-- What a first word that is no command is refused for. -/
def refuseFirst (word : String) : UsageError :=
  match Word.ofText word with
  | .separator => .nothingGiven
  | .long name value =>
    if name = "help" then
      match value with
      | none => .help
      | some _ => .unwantedValue name
    else .unknownArgument word
  | .short name _ => if name = 'h' then .help else .unknownArgument word
  | .plain => .unknownCommand word

/-- Reads a command line: the command, and the values of its arguments. -/
def readCommandLine : List String → Except UsageError (Command × Bindings)
  | [] => .error .nothingGiven
  | word :: words =>
    match command? word with
    | some command => (readArguments command words).map fun bindings => (command, bindings)
    | none =>
      if word = helpWord then .error (answerHelp words)
      else if word = "--" then .error (refuseTrailing words)
      else .error (refuseFirst word)

end IntervalAutomata.Cli
