import IntervalAutomata.Json.StandIn.Token

/-!
# The stand-in for the JSON library

A program that reads and writes JSON has to be run with some library for it. This one
(`Json.standIn`) stands in for the library that is meant and that is not at hand: it accepts and
refuses the same texts, with the same kinds of errors, as far as documentation and runs show. No
statement on intervals in JSON rests on these definitions. They are one library for which what is
documented holds (`Json.Library.Laws`), which shows that it can hold.

A record is read one token at a time (`Reader.step`), so that the first fault from left to right
decides. An object may name the fields in any order and may have other members, whose values are
skipped (`Skip`); an array has the values in the order of the fields. The conversion is called when
the object or array is closed, before anything that follows is looked at.
-/

namespace IntervalAutomata.Json

namespace StandIn

/-! ## Skipping a value -/

/-- A container of values. -/
inductive Container where
  /-- Named values between braces. -/
  | object
  /-- Values between brackets. -/
  | array
deriving DecidableEq

/-- What must come next inside a value that is skipped. -/
inductive SkipPhase where
  /-- A value. -/
  | value
  /-- A value, or the end of an array just begun. -/
  | firstItem
  /-- A name, or the end of an object just begun. -/
  | firstName
  /-- A name. -/
  | name
  /-- A colon. -/
  | colon
  /-- A comma, or the end of the innermost container. -/
  | separator
deriving DecidableEq

/-- A value of which a part has been skipped. -/
structure Skip where
  /-- The containers that are still open, the innermost first. -/
  nesting : List Container
  /-- What must come next. -/
  phase : SkipPhase
deriving DecidableEq

namespace Skip

/-- The state before a value. -/
def start : Skip := ⟨[], .value⟩

/-- The state after a complete value inside the given containers; outside of all, nothing is left to
skip. -/
def finish : List Container → Option Skip
  | [] => none
  | container :: nesting => some ⟨container :: nesting, .separator⟩

/-- Takes the token that begins a value. -/
def begin (nesting : List Container) : Token → Except Fault (Option Skip)
  | .beginObject => .ok (some ⟨.object :: nesting, .firstName⟩)
  | .beginArray => .ok (some ⟨.array :: nesting, .firstItem⟩)
  | .text _ skipped => skipped.map fun _ => finish nesting
  | .number _ skipped => skipped.map fun _ => finish nesting
  | .word read => read.map fun _ => finish nesting
  | _ => .error .malformed

/-- Takes one token; `none` says that the value is complete. -/
def step (skip : Skip) (token : Token) : Except Fault (Option Skip) :=
  match skip.phase, token with
  | .value, token => begin skip.nesting token
  | .firstItem, .endArray => .ok (finish skip.nesting.tail)
  | .firstItem, token => begin skip.nesting token
  | .firstName, .endObject => .ok (finish skip.nesting.tail)
  | .firstName, .text _ skipped => skipped.map fun _ => some ⟨skip.nesting, .colon⟩
  | .name, .text _ skipped => skipped.map fun _ => some ⟨skip.nesting, .colon⟩
  | .colon, .colon => .ok (some ⟨skip.nesting, .value⟩)
  | .separator, .comma =>
    match skip.nesting with
    | .array :: _ => .ok (some ⟨skip.nesting, .value⟩)
    | _ => .ok (some ⟨skip.nesting, .name⟩)
  | .separator, .endArray =>
    match skip.nesting with
    | .array :: nesting => .ok (finish nesting)
    | _ => .error .malformed
  | .separator, .endObject =>
    match skip.nesting with
    | .object :: nesting => .ok (finish nesting)
    | _ => .error .malformed
  | _, _ => .error .malformed

end Skip

/-! ## Reading a record -/

/-- The fault of a token where a value of another form is wanted: a fault of its own, if it has one
or if it begins no value, and otherwise its form. -/
def unwanted : Token → Fault
  | .beginObject => .mismatched
  | .beginArray => .mismatched
  | .text (.error e) _ => e
  | .text (.ok _) _ => .mismatched
  | .number (.error e) _ => e
  | .number (.ok _) _ => .mismatched
  | .word (.error e) => e
  | .word (.ok _) => .mismatched
  | _ => .malformed

/-- The 64-bit number that a token denotes. -/
def number : Token → Except Fault UInt64
  | .number (.ok (some n)) _ => .ok (.ofNat n)
  | token => .error (unwanted token)

/-- What must come next while a record is read. -/
inductive Phase where
  /-- The record itself. -/
  | record
  /-- The name of the first member, or the end of the object. -/
  | firstName
  /-- A comma, or the end of the object. -/
  | separator
  /-- The name of a further member. -/
  | name
  /-- The colon after a name. -/
  | colon (name : String)
  /-- The value of a member. -/
  | value (name : String)
  /-- More of a value that is skipped. -/
  | skip (skip : Skip)
  /-- The value of the first field, as an item of an array. -/
  | firstItem
  /-- The comma between two items. -/
  | itemSeparator
  /-- The value of a further field, as an item of an array. -/
  | item
  /-- The end of the array. -/
  | endArray
  /-- Nothing: the record is complete. -/
  | done
deriving DecidableEq

/-- A reader of a record, between two tokens. -/
structure Reader where
  /-- The fields read so far. -/
  known : Members
  /-- What must come next. -/
  phase : Phase
deriving DecidableEq

namespace Reader

/-- The reader before the first token. -/
def start : Reader := ⟨[], .record⟩

/-- Whether a field has been read. -/
def knows (reader : Reader) (name : String) : Bool :=
  (reader.known.map Prod.fst).contains name

/-- Ends the record when its object closes: every field must have been read. -/
def close (names : List String) (reader : Reader) : Except Fault Reader :=
  if names.all reader.knows then .ok { reader with phase := .done } else .error .mismatched

/-- Takes the name of a member; a field must not be named twice. -/
def takeName (names : List String) (reader : Reader) (content : Except Fault (List Char)) :
    Except Fault Reader :=
  match content with
  | .error e => .error e
  | .ok cs =>
    let name := String.ofList cs
    if names.contains name && reader.knows name then .error .mismatched
    else .ok { reader with phase := .colon name }

/-- Takes the number of a field. -/
def takeNumber (reader : Reader) (name : String) (token : Token) (next : Phase) :
    Except Fault Reader :=
  match number token with
  | .ok n => .ok { known := reader.known ++ [(name, n)], phase := next }
  | .error e => .error e

/-- Takes a token of a value that is skipped. -/
def takeSkipped (reader : Reader) (skip : Skip) (token : Token) : Except Fault Reader :=
  match skip.step token with
  | .ok (some skip) => .ok { reader with phase := .skip skip }
  | .ok none => .ok { reader with phase := .separator }
  | .error e => .error e

/-- Takes the value of a member: the number of a field, or a value to be skipped. -/
def takeValue (names : List String) (reader : Reader) (name : String) (token : Token) :
    Except Fault Reader :=
  if names.contains name then reader.takeNumber name token .separator
  else reader.takeSkipped .start token

/-- Takes an item of an array, which is the value of the next field. -/
def takeItem (names : List String) (reader : Reader) (token : Token) : Except Fault Reader :=
  match names.drop reader.known.length with
  | [] => .error .malformed
  | [name] => reader.takeNumber name token .endArray
  | name :: _ => reader.takeNumber name token .itemSeparator

/-- Takes one token. -/
def step (names : List String) (reader : Reader) (token : Token) : Except Fault Reader :=
  match reader.phase, token with
  | .record, .beginObject => .ok { reader with phase := .firstName }
  | .record, .beginArray =>
    .ok { reader with phase := if names = [] then .endArray else .firstItem }
  | .record, token => .error (unwanted token)
  | .firstName, .endObject => reader.close names
  | .firstName, .text content _ => reader.takeName names content
  | .separator, .comma => .ok { reader with phase := .name }
  | .separator, .endObject => reader.close names
  | .name, .text content _ => reader.takeName names content
  | .colon name, .colon => .ok { reader with phase := .value name }
  | .value name, token => reader.takeValue names name token
  | .skip skip, token => reader.takeSkipped skip token
  | .firstItem, .endArray => .error .mismatched
  | .firstItem, token => reader.takeItem names token
  | .itemSeparator, .comma => .ok { reader with phase := .item }
  | .itemSeparator, .endArray => .error .mismatched
  | .item, .endArray => .error .malformed
  | .item, token => reader.takeItem names token
  | .endArray, .endArray => .ok { reader with phase := .done }
  | _, _ => .error .malformed

/-- Takes tokens until the record is complete, and answers with it and with the tokens left. -/
def run (names : List String) (reader : Reader) : List Token → Except Fault (Members × List Token)
  | [] => if reader.phase = .done then .ok (reader.known, []) else .error .truncated
  | token :: tokens =>
    if reader.phase = .done then .ok (reader.known, token :: tokens)
    else
      match reader.step names token with
      | .ok reader => reader.run names tokens
      | .error e => .error e

end Reader

/-- Reads a record from tokens and converts it. What follows is looked at once that has
succeeded. -/
def readTokens {ε α : Type} (names : List String) (convert : (String → UInt64) → Except ε α)
    (tokens : List Token) : Except Fault (Except ε α) :=
  match Reader.start.run names tokens with
  | .error e => .error e
  | .ok (members, rest) =>
    match convert (valueOf members), rest with
    | .ok _, _ :: _ => .error .malformed
    | outcome, _ => .ok outcome

end StandIn

/-- The library that the program is run with. It writes names without escapes. -/
instance standIn : Library where
  write := objectText
  writeList records := "[" ++ ",".intercalate (records.map objectText) ++ "]"
  read names convert text := StandIn.readTokens names convert (StandIn.tokens text.toList)

end IntervalAutomata.Json
