import IntervalAutomata.Interval.Json

/-!
# Lists of intervals as text

The three forms in which a list of intervals is printed (`ListFormat`). The plain form writes one
interval a line and can be read back by `Interval.ofText`; the chained form wraps the same lines
into a call on an iterator of code points; the third is JSON, as the library writes it.
-/

namespace IntervalAutomata

/-- A form of printed lists. -/
inductive ListFormat where
  /-- One range of hexadecimal numbers a line. -/
  | hex
  /-- The same ranges as links of a chained iterator over characters. -/
  | chain
  /-- A JSON array. -/
  | json
deriving DecidableEq

/-- The word that selects a form. -/
def ListFormat.name : ListFormat → String
  | .hex => "hex"
  | .chain => "rust"
  | .json => "json"

namespace Interval

/-- An interval as a range of hexadecimal numbers, `0x000020..=0x00D7FF`. -/
def rangeText (i : Interval) : String :=
  Numeral.wideHex i.low ++ "..=" ++ Numeral.wideHex i.high

/-- An interval as a link of a chained iterator. -/
def chainText (i : Interval) : String :=
  ".chain((" ++ i.rangeText ++ ").filter_map(from_u32))"

end Interval

/-- Texts, each ended by a line feed. -/
def endLines (lines : List String) : String :=
  String.join (lines.map (· ++ "\n"))

/-- A list of intervals as text. -/
def ListFormat.render [Json.Library] (format : ListFormat) (intervals : List Interval) : String :=
  match format with
  | .hex => endLines (intervals.map Interval.rangeText)
  | .chain => endLines (intervals.map Interval.chainText)
  | .json => endLines [Json.Library.writeList (intervals.map Interval.members)]

end IntervalAutomata
