import IntervalAutomata.Interval.Basic
import IntervalAutomata.Text.Blank

/-!
# Reading numbers and intervals

The text forms that users write. A number is decimal or, after `0x`, hexadecimal; blanks around it
and underscores anywhere in it are ignored (`readNumber`). An interval is `LOW..=HIGH`, `LOW-HIGH`
or a single number (`Interval.ofText`): the text is split at the first `..=` or, if it has none, at
the first `-`, and its parts are read from left to right.
-/

namespace IntervalAutomata

/-- Why a text is no number or no interval. -/
inductive ReadError where
  /-- Nothing is left of a number once blanks and underscores are removed. -/
  | empty
  /-- The text is no number below `2 ^ 64`; it is kept as it was given. -/
  | invalidNumber (text : String)
  /-- Both bounds are numbers, but out of order. -/
  | invalidRange (cause : InvalidRange)
deriving DecidableEq

/-- The refusal in words. -/
def ReadError.message : ReadError → String
  | .empty => "empty number"
  | .invalidNumber text => "invalid number '" ++ text ++ "'"
  | .invalidRange cause => cause.message

namespace Reading

/-! ## Numbers -/

/-- What counts of a number's text: no blanks at the ends and no underscores. -/
def essential (cs : List Char) : List Char :=
  (Text.trimBlank cs).filter (· ≠ '_')

/-- The base of a number and its text after the sign of the base. -/
def base : List Char → Nat × List Char
  | '0' :: 'x' :: cs => (16, cs)
  | '0' :: 'X' :: cs => (16, cs)
  | cs => (10, cs)

/-- A text without the one plus sign that it may start with. -/
def dropPlus : List Char → List Char
  | '+' :: cs => cs
  | cs => cs

/-- The number below `2 ^ 64` that a text without blanks and underscores denotes. -/
def number? (cs : List Char) : Option Nat :=
  (Numeral.valueOf? (base cs).1 (dropPlus (base cs).2)).filter (· < UInt64.size)

/-! ## Splitting -/

/-- The parts of a text before and after the first place where a separator stands. -/
def splitFirst? (separator : List Char) : List Char → Option (List Char × List Char)
  | [] => if separator = [] then some ([], []) else none
  | c :: cs =>
    if separator.isPrefixOf (c :: cs) then some ([], (c :: cs).drop separator.length)
    else (splitFirst? separator cs).map fun parts => (c :: parts.1, parts.2)

/-- The two parts of an interval's text, if it has a separator. -/
def splitBounds? (cs : List Char) : Option (List Char × List Char) :=
  match splitFirst? ['.', '.', '='] cs with
  | some parts => some parts
  | none => splitFirst? ['-'] cs

end Reading

/-- Reads a number: decimal, or hexadecimal after `0x` or `0X`, with at most one plus sign before
the digits. -/
def readNumber (text : String) : Except ReadError UInt64 :=
  let cs := Reading.essential text.toList
  if cs = [] then
    .error .empty
  else
    match Reading.number? cs with
    | some n => .ok (UInt64.ofNat n)
    | none => .error (.invalidNumber text)

/-- Reads an interval: `LOW..=HIGH`, `LOW-HIGH` or one number for both bounds. -/
def Interval.ofText (text : String) : Except ReadError Interval :=
  match Reading.splitBounds? text.toList with
  | none => (readNumber text).map Interval.single
  | some (lowText, highText) =>
    match readNumber (String.ofList lowText) with
    | .error e => .error e
    | .ok low =>
      match readNumber (String.ofList highText) with
      | .error e => .error e
      | .ok high => (Interval.ofBounds low high).mapError .invalidRange

end IntervalAutomata
