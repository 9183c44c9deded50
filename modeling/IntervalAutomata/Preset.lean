import IntervalAutomata.Interval.Basic

/-!
# Presets

Named sets of intervals with the exclusions that belong to them, from which a reduction can start.
-/

namespace IntervalAutomata

/-- A named set of intervals and what is excluded from it. -/
structure Preset where
  /-- The name under which the set is selected. -/
  name : String
  /-- The intervals. -/
  base : List Interval
  /-- The intervals whose values are taken out. -/
  exclusions : List Interval

namespace Preset

/-- The two last code points of a plane, which are no characters. -/
def planeEnd (plane : Fin 17) : Interval where
  low := 0x10000 * plane.val + 0xFFFE
  high := 0x10000 * plane.val + 0xFFFF

/-- The characters that XML 1.0 allows, without those it advises against. -/
def xmlChar : Preset where
  name := "xml-char"
  base := [
    { low := 0x9, high := 0x9 }, { low := 0xA, high := 0xA }, { low := 0xD, high := 0xD },
    { low := 0x20, high := 0xD7FF }, { low := 0xE000, high := 0xFFFD },
    { low := 0x10000, high := 0x10FFFF }]
  exclusions :=
    [{ low := 0x7F, high := 0x84 }, { low := 0x86, high := 0x9F },
        { low := 0xFDD0, high := 0xFDEF }]
      ++ ([1, 2, 3, 4, 5, 6, 7, 8, 9, 10, 11, 12, 13, 14, 15, 16].map planeEnd)

/-- All presets. -/
def all : List Preset := [xmlChar]

/-- The names of all presets. -/
def names : List String := all.map name

/-- The preset with a name. -/
def find? (name : String) : Option Preset :=
  all.find? (·.name = name)

end Preset

end IntervalAutomata
