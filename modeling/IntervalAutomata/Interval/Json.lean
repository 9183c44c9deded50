import IntervalAutomata.Interval.Basic
import IntervalAutomata.Json.Library

/-!
# Intervals in JSON

An interval is written as a record of its two bounds (`Interval.toJson`). It is read as a record of
two bounds in any order (`RawInterval`), which is then checked like all bounds that come from
outside (`Interval.ofRaw`), so that no text gives an interval whose bounds are out of order. How
records are written and read is up to the library (`Json.Library`).
-/

namespace IntervalAutomata

/-- Why a JSON text is no interval. -/
inductive JsonError where
  /-- The text is no JSON, or JSON of another form. -/
  | fault (fault : Json.Fault)
  /-- The bounds are out of order. -/
  | invalidRange (cause : InvalidRange)
deriving DecidableEq

/-- Two bounds as they are read, before their order is checked. -/
structure RawInterval where
  /-- The bound read as the lower one. -/
  low : UInt64
  /-- The bound read as the upper one. -/
  high : UInt64

namespace RawInterval

/-- The names of the fields, in the order of the record. -/
def names : List String := ["low", "high"]

/-- The record whose fields have the given numbers. -/
def ofValues (values : String → UInt64) : RawInterval where
  low := values "low"
  high := values "high"

end RawInterval

namespace Interval

/-- The interval between bounds that were read, refused if they are out of order. -/
def ofRaw (raw : RawInterval) : Except InvalidRange Interval :=
  ofBounds raw.low raw.high

/-- An interval as a record of its bounds. -/
def members (i : Interval) : Json.Members :=
  [("low", .ofNat i.low), ("high", .ofNat i.high)]

variable [Json.Library]

/-- The JSON form of an interval. -/
def toJson (i : Interval) : String :=
  Json.Library.write i.members

/-- Reads an interval from its JSON form. -/
def ofJson (text : String) : Except JsonError Interval :=
  match Json.Library.read RawInterval.names (fun values => ofRaw (.ofValues values)) text with
  | .ok (.ok i) => .ok i
  | .ok (.error e) => .error (.invalidRange e)
  | .error fault => .error (.fault fault)

end Interval

end IntervalAutomata
