import IntervalAutomata.Json.Text

/-!
# The JSON library

Intervals are written to JSON and read from it by a library that is no part of this one. It is a
parameter here (`Library`): everything that reads or writes JSON is defined for any such library,
and a theorem about it takes what is documented of the library as its hypothesis (`Library.Laws`).

A record is described to the library by the names of its fields, all of which hold 64-bit numbers.
One that must satisfy a condition is read with a conversion, which makes it of the numbers read or
refuses them; the library calls the conversion and passes its outcome on.
-/

namespace IntervalAutomata.Json

/-- The kinds of errors that the library tells apart when it refuses a text. -/
inductive Fault where
  /-- The text ends too early. -/
  | truncated
  /-- The text is no JSON. -/
  | malformed
  /-- The text is JSON but not of the expected form. -/
  | mismatched
deriving DecidableEq

/-- A library that writes records as JSON texts and reads them back. -/
class Library where
  /-- The text of a record. -/
  write (members : Members) : String
  /-- The text of a list of records. -/
  writeList (records : List Members) : String
  /-- The outcome of the conversion of the record that a text holds, if the text holds one. -/
  read {ε α : Type} (names : List String) (convert : (String → UInt64) → Except ε α)
    (text : String) : Except Fault (Except ε α)

/-- What is documented of the library, for names that are told apart and need no escapes. -/
structure Library.Laws [Library] : Prop where
  /-- A record is written as an object with its members in order and without white space. -/
  write_eq {members : Members} (hnames : WellNamed (members.map Prod.fst)) :
    write members = objectText members
  /-- From an object, every field takes the number of the member of its name. -/
  read_object {ε α : Type} {convert : (String → UInt64) → Except ε α} {members : Members}
    (hnames : WellNamed (members.map Prod.fst)) :
    read (members.map Prod.fst) convert (objectText members) = .ok (convert (valueOf members))
  /-- The members of an object may come in any order. -/
  read_perm {ε α : Type} {convert : (String → UInt64) → Except ε α} {members others : Members}
    (hnames : WellNamed (members.map Prod.fst)) (hperm : others.Perm members) :
    read (members.map Prod.fst) convert (objectText others) =
      read (members.map Prod.fst) convert (objectText members)
  /-- White space between the lexemes of an object makes no difference. -/
  read_spaced {ε α : Type} {names : List String} {convert : (String → UInt64) → Except ε α}
    {members : Members} {text : String} (hnames : WellNamed (members.map Prod.fst))
    (hspaced : Spaced (objectLexemes members) text) :
    read names convert text = read names convert (objectText members)
  /-- An array of numbers is read as the object whose members they are, in the order of fields. -/
  read_array {ε α : Type} {convert : (String → UInt64) → Except ε α} {members : Members}
    {text : String} (hnames : WellNamed (members.map Prod.fst))
    (hspaced : Spaced (arrayLexemes (members.map Prod.snd)) text) :
    read (members.map Prod.fst) convert text =
      read (members.map Prod.fst) convert (objectText members)
  /-- Nothing is read, and nothing is refused by a conversion, but what one was called with. -/
  read_converted {ε α : Type} {names : List String} {convert : (String → UInt64) → Except ε α}
    {text : String} {outcome : Except ε α} (hread : read names convert text = .ok outcome) :
    ∃ values, convert values = outcome

end IntervalAutomata.Json
