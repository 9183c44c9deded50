import IntervalAutomata.Interval.Json
import IntervalAutomata.Proofs.Json.StandIn

/-!
# Intervals read from JSON

What is read from the JSON texts of two bounds, and what can be read from any text at all, by any
library that is as documented (`Json.Library.Laws`). The texts of two bounds are objects with the
bounds in either order and arrays of the two, with any white space (`Json.IsJson`); the JSON form of
an interval is one of them (`Interval.isJson_toJson`), and each is read as the interval between the
bounds or refused for their order (`Interval.ofJson_of_ofBounds`, `Interval.ofJson_of_lt`). Whatever
else is accepted has been checked as well (`Interval.exists_raw_of_ofJson`). The main statement is
`Interval.ofJson_outcome`.
-/

namespace IntervalAutomata

namespace Json

/-- The lexemes of two bounds in JSON. -/
inductive BoundsLexemes (low high : Nat) : List String → Prop
  /-- An object with the lower bound first. -/
  | object : BoundsLexemes low high
      ["\x7b", "\"low\"", ":", Numeral.decimal low, ",", "\"high\"", ":", Numeral.decimal high,
        "\x7d"]
  /-- An object with the upper bound first. -/
  | swapped : BoundsLexemes low high
      ["\x7b", "\"high\"", ":", Numeral.decimal high, ",", "\"low\"", ":", Numeral.decimal low,
        "\x7d"]
  /-- An array. -/
  | array : BoundsLexemes low high ["[", Numeral.decimal low, ",", Numeral.decimal high, "]"]

/-- A JSON text of two bounds, with any white space. -/
def IsJson (low high : Nat) (text : String) : Prop :=
  ∃ lexemes, BoundsLexemes low high lexemes ∧ Spaced lexemes text

end Json

/-- The names of the bounds are distinct and need no escapes. -/
theorem RawInterval.wellNamed_names : Json.WellNamed names where
  plain := by simp [names, Json.isPlain]
  distinct := by simp [names]

namespace Interval

open Json

/-- The bounds of an interval fit in 64 bits. -/
theorem toNat_ofNat_bounds (i : Interval) :
    (UInt64.ofNat i.low).toNat = i.low ∧ (UInt64.ofNat i.high).toNat = i.high :=
  ⟨UInt64.toNat_ofNat_of_lt (Nat.lt_of_le_of_lt i.low_le_high i.high_lt),
    UInt64.toNat_ofNat_of_lt i.high_lt⟩

section Library

variable [Json.Library] {text : String} {low high : UInt64}

/-! ## Texts of bounds -/

/-- The JSON form of an interval is a text of its bounds. -/
theorem isJson_toJson (laws : Library.Laws) (i : Interval) : IsJson i.low i.high i.toJson := by
  obtain ⟨hlow, hhigh⟩ := i.toNat_ofNat_bounds
  have hwritten : i.toJson = objectText i.members := laws.write_eq RawInterval.wellNamed_names
  have hlexemes : BoundsLexemes i.low i.high (objectLexemes i.members) := by
    have hobject : BoundsLexemes (UInt64.ofNat i.low).toNat (UInt64.ofNat i.high).toNat
        (objectLexemes i.members) := .object
    rwa [hlow, hhigh] at hobject
  rw [hwritten]
  exact ⟨_, hlexemes, spaced_join _⟩

/-- The record that a text of two bounds holds is the record of these bounds. -/
theorem read_of_isJson (laws : Library.Laws) (h : IsJson low.toNat high.toNat text) :
    Library.read RawInterval.names (fun values => ofRaw (.ofValues values)) text =
      .ok (ofBounds low high) := by
  have hnames := RawInterval.wellNamed_names
  have hlowFirst : WellNamed ([("low", low), ("high", high)].map Prod.fst) := hnames
  have hobject : Library.read RawInterval.names (fun values => ofRaw (.ofValues values))
      (objectText [("low", low), ("high", high)]) = .ok (ofBounds low high) :=
    laws.read_object hlowFirst
  -- The same text with the members exchanged is brought back to this one by `read_perm`.
  have hswapped : WellNamed ([("high", high), ("low", low)].map Prod.fst) :=
    ⟨fun name hname => hnames.plain name (by simp_all [RawInterval.names, or_comm]), by simp⟩
  have hswap : [("high", high), ("low", low)].Perm [("low", low), ("high", high)] := .swap ..
  obtain ⟨lexemes, hlexemes, hspaced⟩ := h
  cases hlexemes with
  | object => rw [laws.read_spaced hlowFirst hspaced, hobject]
  | swapped =>
      rw [laws.read_spaced hswapped hspaced]
      exact (laws.read_perm hlowFirst hswap).trans hobject
  | array => exact (laws.read_array hlowFirst hspaced).trans hobject

/-- A text of two bounds is read as the interval between them. -/
theorem ofJson_of_ofBounds (laws : Library.Laws) (h : IsJson low.toNat high.toNat text)
    {i : Interval} (hbounds : ofBounds low high = .ok i) : ofJson text = .ok i := by
  rw [ofJson, read_of_isJson laws h, hbounds]

/-- A text of two bounds that are out of order is refused with these bounds. -/
theorem ofJson_of_lt (laws : Library.Laws) (h : IsJson low.toNat high.toNat text)
    (hlt : high < low) : ofJson text = .error (.invalidRange ⟨low, high⟩) := by
  rw [ofJson, read_of_isJson laws h, ofBounds_of_lt hlt]

/-- A text of two bounds is read as an interval exactly if they are in order. -/
theorem exists_ofJson_eq_ok_iff (laws : Library.Laws) (h : IsJson low.toNat high.toNat text) :
    (∃ i, ofJson text = .ok i) ↔ low ≤ high := by
  constructor
  · rintro ⟨i, hread⟩
    refine UInt64.not_lt.mp fun hlt => ?_
    rw [ofJson_of_lt laws h hlt] at hread
    cases hread
  · intro hle
    exact ⟨_, ofJson_of_ofBounds laws h (dif_pos hle)⟩

/-- A text of two bounds is refused with them exactly if they are out of order. -/
theorem ofJson_eq_invalidRange_iff (laws : Library.Laws) (h : IsJson low.toNat high.toNat text) :
    ofJson text = .error (.invalidRange ⟨low, high⟩) ↔ high < low := by
  constructor
  · intro hread
    refine UInt64.not_le.mp fun hle => ?_
    rw [ofJson_of_ofBounds laws h (dif_pos hle)] at hread
    cases hread
  · exact ofJson_of_lt laws h

/-- Every text of the bounds of an interval is read as the interval. -/
theorem ofJson_eq_ok_of_isJson (laws : Library.Laws) {i : Interval}
    (h : IsJson i.low i.high text) : ofJson text = .ok i := by
  obtain ⟨hlow, hhigh⟩ := i.toNat_ofNat_bounds
  have hbounds : ofBounds (.ofNat i.low) (.ofNat i.high) = .ok i :=
    ofBounds_eq_ok_iff.mpr ⟨hlow.symm, hhigh.symm⟩
  rw [← hlow, ← hhigh] at h
  exact ofJson_of_ofBounds laws h hbounds

/-! ## Any text -/

/-- Whatever is accepted has passed the check of its bounds. -/
theorem exists_raw_of_ofJson (laws : Library.Laws) {i : Interval} (h : ofJson text = .ok i) :
    ∃ raw : RawInterval, raw.low ≤ raw.high ∧ i.low = raw.low.toNat ∧ i.high = raw.high.toNat := by
  unfold ofJson at h
  split at h
  · rename_i i' hread
    cases h
    obtain ⟨values, hvalues⟩ := laws.read_converted hread
    obtain ⟨hlow, hhigh⟩ := ofBounds_eq_ok_iff.mp hvalues
    refine ⟨.ofValues values, ?_, hlow, hhigh⟩
    rw [UInt64.le_iff_toNat_le, ← hlow, ← hhigh]
    exact i.low_le_high
  · cases h
  · cases h

/-- Bounds that are refused for their order are out of order. -/
theorem lt_of_ofJson_eq_invalidRange (laws : Library.Laws) {e : InvalidRange}
    (h : ofJson text = .error (.invalidRange e)) : e.high < e.low := by
  unfold ofJson at h
  split at h
  · cases h
  · rename_i e' hread
    cases h
    obtain ⟨values, hvalues⟩ := laws.read_converted hread
    rw [ofRaw, ofBounds] at hvalues
    split at hvalues
    · cases hvalues
    · rename_i hnot
      cases hvalues
      exact UInt64.not_le.mp hnot
  · cases h

/-- **Intervals and JSON.** With any library that is as documented, the JSON form of an interval is
a text of its bounds and reads back as the interval, and so does every other text of these bounds,
with the members in either order and any white space. A text of any two bounds is read as an
interval exactly if they are in order, and is refused with these bounds exactly if they are not. And
whatever the text, an interval that is read from it comes of bounds that were checked to be in
order, and bounds for which it is refused are not. -/
theorem ofJson_outcome (laws : Library.Laws) :
    (∀ i : Interval, IsJson i.low i.high i.toJson ∧ ofJson i.toJson = .ok i) ∧
    (∀ (i : Interval) (text : String), IsJson i.low i.high text → ofJson text = .ok i) ∧
    (∀ (low high : UInt64) (text : String), IsJson low.toNat high.toNat text →
      ((∃ i, ofJson text = .ok i) ↔ low ≤ high) ∧
      (ofJson text = .error (.invalidRange ⟨low, high⟩) ↔ high < low)) ∧
    (∀ (text : String) (i : Interval), ofJson text = .ok i → i.low ≤ i.high ∧
      ∃ raw : RawInterval, raw.low ≤ raw.high ∧ i.low = raw.low.toNat ∧ i.high = raw.high.toNat) ∧
    ∀ (text : String) (e : InvalidRange), ofJson text = .error (.invalidRange e) →
      e.high < e.low := by
  refine ⟨?_, fun i text => ofJson_eq_ok_of_isJson laws, ?_, ?_,
    fun text e => lt_of_ofJson_eq_invalidRange laws⟩
  · intro i
    have hjson := isJson_toJson laws i
    exact ⟨hjson, ofJson_eq_ok_of_isJson laws hjson⟩
  · intro low high text hjson
    exact ⟨exists_ofJson_eq_ok_iff laws hjson, ofJson_eq_invalidRange_iff laws hjson⟩
  · intro text i hread
    exact ⟨i.low_le_high, exists_raw_of_ofJson laws hread⟩

end Library

/-- With the stand-in for the library: an object with the upper bound first and white space between
its lexemes, and one with bounds that are out of order. -/
theorem ofJson_outcome_spaced :
    @ofJson standIn " \x7b\"high\" :2,\n\"low\":1 \x7d" = .ok ⟨1, 2, by decide, by decide⟩ ∧
      @ofJson standIn "\x7b\"low\":3,\"high\":2\x7d" = .error (.invalidRange ⟨3, 2⟩) := by
  have hend : Spaced ["\x7d"] " \x7d" :=
    @Spaced.cons " " "\x7d" "" [] (by decide) (.nil (by decide))
  have hlow : Spaced ["\"low\"", ":", Numeral.decimal 1, "\x7d"] "\n\"low\":1 \x7d" :=
    @Spaced.cons "\n" "\"low\"" ":1 \x7d" _ (by decide)
      (@Spaced.cons "" ":" "1 \x7d" _ (by decide)
        (@Spaced.cons "" "1" " \x7d" _ (by decide) hend))
  have hhigh : Spaced ["\"high\"", ":", Numeral.decimal 2, ",", "\"low\"", ":",
      Numeral.decimal 1, "\x7d"] "\"high\" :2,\n\"low\":1 \x7d" :=
    @Spaced.cons "" "\"high\"" " :2,\n\"low\":1 \x7d" _ (by decide)
      (@Spaced.cons " " ":" "2,\n\"low\":1 \x7d" _ (by decide)
        (@Spaced.cons "" "2" ",\n\"low\":1 \x7d" _ (by decide)
          (@Spaced.cons "" "," "\n\"low\":1 \x7d" _ (by decide) hlow)))
  have hspaced : Spaced ["\x7b", "\"high\"", ":", Numeral.decimal 2, ",", "\"low\"", ":",
      Numeral.decimal 1, "\x7d"] " \x7b\"high\" :2,\n\"low\":1 \x7d" :=
    @Spaced.cons " " "\x7b" "\"high\" :2,\n\"low\":1 \x7d" _ (by decide) hhigh
  have hjoined : IsJson 3 2 "\x7b\"low\":3,\"high\":2\x7d" := ⟨_, .object, spaced_join _⟩
  constructor
  · exact (@ofJson_outcome standIn standIn_laws).2.1 ⟨1, 2, by decide, by decide⟩ _
      ⟨_, .swapped, hspaced⟩
  · exact ((@ofJson_outcome standIn standIn_laws).2.2.1 3 2 _ hjoined).2.mpr (by decide)

end Interval

end IntervalAutomata
