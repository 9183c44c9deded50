import IntervalAutomata.Numeral

/-!
# Records as JSON texts

What a record of 64-bit numbers looks like in JSON: an object of its members, each a quoted name, a
colon and a decimal (`objectLexemes`), or an array of the values alone (`arrayLexemes`). A text is
written as a row of lexemes with any white space before, between and after them (`Spaced`); the text
with none is `objectText`.
-/

namespace IntervalAutomata.Json

/-- A record as a row of members, each of them a name with a number. -/
abbrev Members := List (String × UInt64)

/-- The numbers of a record by their names; a name that it does not have stands for zero. -/
def valueOf (members : Members) (name : String) : UInt64 :=
  (members.lookup name).getD 0

/-- The order of members does not matter, as long as their names are distinct. -/
theorem valueOf_eq_of_perm {members others : Members} (hperm : others.Perm members)
    (hdistinct : (members.map Prod.fst).Nodup) : valueOf others = valueOf members := by
  funext name
  unfold valueOf
  congr 1
  induction hperm with
  | nil => rfl
  | cons member hperm ih =>
      rw [List.map_cons, List.nodup_cons] at hdistinct
      rw [List.lookup_cons, List.lookup_cons, ih hdistinct.2]
  | swap first second members =>
      obtain ⟨a, m⟩ := first
      obtain ⟨b, n⟩ := second
      have hne : a ≠ b := by
        rintro rfl
        simp at hdistinct
      rw [List.lookup_cons, List.lookup_cons, List.lookup_cons, List.lookup_cons]
      cases ha : name == a <;> cases hb : name == b <;> try rfl
      exact absurd ((beq_iff_eq.mp ha).symm.trans (beq_iff_eq.mp hb)) hne
  | trans hleft hright ihLeft ihRight =>
      rw [ihLeft ((hright.map Prod.fst).nodup_iff.mpr hdistinct), ihRight hdistinct]

/-! ## White space -/

/-- Whether a character may stand between lexemes. -/
def isSpace (c : Char) : Bool :=
  c == ' ' || c == '\n' || c == '\t' || c == '\r'

/-- A text of lexemes, with JSON white space before, between and after them. -/
inductive Spaced : List String → String → Prop
  /-- Nothing but white space. -/
  | nil {blanks : String} (hblanks : blanks.toList.all isSpace = true) : Spaced [] blanks
  /-- One lexeme, and then others. -/
  | cons {blanks lexeme rest : String} {lexemes : List String}
    (hblanks : blanks.toList.all isSpace = true) (hrest : Spaced lexemes rest) :
    Spaced (lexeme :: lexemes) (blanks ++ lexeme ++ rest)

/-- Lexemes may follow each other with no white space at all. -/
theorem spaced_join (lexemes : List String) : Spaced lexemes (String.join lexemes) := by
  have hblank : "".toList.all isSpace = true := by decide
  induction lexemes with
  | nil => exact .nil hblank
  | cons lexeme lexemes ih =>
      rw [String.join_cons, ← String.empty_append (s := lexeme)]
      exact .cons hblank ih

/-! ## Names -/

/-- Whether a character stands for itself inside quotes. -/
def isPlain (c : Char) : Bool :=
  c != '"' && c != '\\' && 0x20 ≤ c.toNat

/-- Names that are told apart and are written without escapes. -/
structure WellNamed (names : List String) : Prop where
  /-- Every character of a name stands for itself. -/
  plain : ∀ name ∈ names, name.toList.all isPlain = true
  /-- No name occurs twice. -/
  distinct : names.Nodup

/-- A name in quotes. -/
def quoted (name : String) : String :=
  "\"" ++ name ++ "\""

/-! ## Lexemes -/

/-- The lexemes of a member: its name, a colon and its number in decimal. -/
def memberLexemes (member : String × UInt64) : List String :=
  [quoted member.1, ":", Numeral.decimal member.2.toNat]

/-- The lexemes of an object. -/
def objectLexemes (members : Members) : List String :=
  "\x7b" :: ([","].intercalate (members.map memberLexemes) ++ ["\x7d"])

/-- The lexemes of an array of numbers. -/
def arrayLexemes (values : List UInt64) : List String :=
  "[" :: ([","].intercalate (values.map fun value => [Numeral.decimal value.toNat]) ++ ["]"])

/-- An object without white space. -/
def objectText (members : Members) : String :=
  String.join (objectLexemes members)

/-- The text without white space is one of the texts of its lexemes. -/
theorem spaced_objectText (members : Members) :
    Spaced (objectLexemes members) (objectText members) :=
  spaced_join _

end IntervalAutomata.Json
