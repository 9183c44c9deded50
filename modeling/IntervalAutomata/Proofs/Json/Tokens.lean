import IntervalAutomata.Json.StandIn.Token
import IntervalAutomata.Proofs.Json.Numbers

/-!
# Lexemes, read by the stand-in for the JSON library

Marks, names in quotes and decimals stand for one token each (`Lexed`), and a text that is written
as a row of such lexemes has these tokens whatever the white space (`Lexed.tokens_eq`). Nothing else
is looked at to find the end of a lexeme, except for a decimal, which a digit, a point or a letter
for the exponent would continue; here a mark follows it.
-/

namespace IntervalAutomata.Json.StandIn

/-! ## Definitions -/

/-- The token of a natural number. -/
def Token.natural (n : Nat) : Token :=
  .number (.ok (some n)) (.ok ())

/-- The token of a name. -/
def Token.name (name : String) : Token :=
  .text (.ok name.toList) (.ok ())

/-- Lexemes with the tokens that they stand for. A decimal is followed by a mark. -/
inductive Lexed : List String → List Token → Prop
  /-- No lexeme. -/
  | nil : Lexed [] []
  /-- A mark. -/
  | mark {c : Char} {mark : Token} {lexemes : List String} {tokens : List Token}
    (hmark : mark? c = some mark) (rest : Lexed lexemes tokens) :
    Lexed (String.ofList [c] :: lexemes) (mark :: tokens)
  /-- A name in quotes. -/
  | name {name : String} {lexemes : List String} {tokens : List Token}
    (hname : name.toList.all isPlain = true) (rest : Lexed lexemes tokens) :
    Lexed (quoted name :: lexemes) (.name name :: tokens)
  /-- A decimal and the mark after it. -/
  | decimal {n : Nat} {c : Char} {mark : Token} {lexemes : List String} {tokens : List Token}
    (hn : n < UInt64.size) (hmark : mark? c = some mark) (rest : Lexed lexemes tokens) :
    Lexed (Numeral.decimal n :: String.ofList [c] :: lexemes) (.natural n :: mark :: tokens)

variable {n : Nat} {c : Char} {mark : Token} {blanks name cs rest : List Char}

/-! ## One lexeme -/

/-- White space is passed over. -/
theorem tokens_blanks_append (hblanks : blanks.all isSpace = true) (cs : List Char) :
    tokens (blanks ++ cs) = tokens cs := by
  induction blanks with
  | nil => rfl
  | cons c blanks ih =>
      rw [List.all_cons, Bool.and_eq_true] at hblanks
      rw [List.cons_append, tokens, if_pos hblanks.1, ih hblanks.2]

/-- There are six marks. -/
theorem mem_of_mark? (h : mark? c = some mark) : c ∈ ['\x7b', '\x7d', '[', ']', ':', ','] := by
  unfold mark? at h
  split at h <;> simp at h ⊢

/-- A mark is a token by itself. -/
theorem tokens_mark (h : mark? c = some mark) (rest : List Char) :
    tokens (c :: rest) = mark :: tokens rest := by
  have hspace : isSpace c = false := by
    unfold mark? at h
    split at h <;> first | rfl | cases h
  rw [tokens, hspace, h]
  rfl

/-- A name is read to its closing quote. -/
theorem scanText_append (hname : name.all isPlain = true) (rest : List Char) :
    scanText (name ++ '"' :: rest) = ⟨name.map .char, .ok rest⟩ := by
  induction name with
  | nil =>
      unfold scanText
      exact if_pos rfl
  | cons c name ih =>
      simp only [List.all_cons, isPlain, Bool.and_eq_true, bne_iff_ne, decide_eq_true_eq] at hname
      obtain ⟨⟨⟨hquote, hescape⟩, hcontrol⟩, hrest⟩ := hname
      unfold scanText
      rw [List.cons_append]
      dsimp only
      rw [if_neg hquote, if_neg hescape, if_neg (by omega), ih hrest]
      rfl

/-- Characters that stand for themselves are decoded as themselves. -/
theorem decodeUnits_map_char (rest : List Char) (name : List Char) :
    decodeUnits (.ok rest) (name.map .char) = .ok name := by
  induction name with
  | nil => rfl
  | cons c name ih =>
      rw [List.map_cons, decodeUnits, ih]
      rfl

/-- A quote begins a text, and the tokens go on after its end. -/
theorem tokens_text (h : (scanText cs).rest = .ok rest) :
    tokens ('"' :: cs) = (scanText cs).token :: tokens rest := by
  have hmark : mark? '"' = none := rfl
  rw [tokens, if_neg (by decide), hmark]
  dsimp only
  rw [if_pos rfl, h]

/-- A name in quotes is one token. -/
theorem tokens_quoted {name : String} (hname : name.toList.all isPlain = true)
    (rest : List Char) : tokens ((quoted name).toList ++ rest) = .name name :: tokens rest := by
  have hscan := scanText_append hname rest
  have htoken : (scanText (name.toList ++ '"' :: rest)).token = .name name := by
    rw [TextScan.token, TextScan.content, hscan, decodeUnits_map_char]
    rfl
  have hrest : (scanText (name.toList ++ '"' :: rest)).rest = .ok rest := by rw [hscan]
  have hquoted : (quoted name).toList ++ rest = '"' :: (name.toList ++ '"' :: rest) := by
    simp [quoted]
  rw [hquoted]
  exact (tokens_text hrest).trans (by rw [htoken])

/-- A digit begins a number, and the tokens go on after its end. -/
theorem tokens_number {number : Numeric} (hc : c.isDigit = true)
    (h : scanNumber (c :: cs) = .ok (number, rest)) :
    tokens (c :: cs) = numberToken (.ok (number, rest)) :: tokens rest := by
  have hne : ∀ c' : Char, c'.isDigit = false → c ≠ c' := by
    rintro c' hc' rfl
    rw [hc] at hc'
    cases hc'
  have hspace : isSpace c = false := by
    simp [isSpace, hne ' ' rfl, hne '\n' rfl, hne '\t' rfl, hne '\r' rfl]
  have hmark : mark? c = none := by
    cases hmark : mark? c with
    | none => rfl
    | some mark =>
        have hmem := mem_of_mark? hmark
        simp [hne '\x7b' rfl, hne '\x7d' rfl, hne '[' rfl, hne ']' rfl, hne ':' rfl,
          hne ',' rfl] at hmem
  rw [tokens, hspace, hmark]
  dsimp only
  rw [if_neg (by decide), if_neg (hne '"' rfl), if_pos (.inr hc), h]

/-- A number is taken up to what cannot be part of it. -/
theorem tokens_decimal (hn : n < UInt64.size) (hrest : EndsNumber rest) :
    tokens ((Numeral.decimal n).toList ++ rest) = .natural n :: tokens rest := by
  have hscan := scanNumber_toDigits (n := n) hrest
  have hdigits : Numeric.ofDigits (digitValues (Nat.toDigits 10 n)) < UInt64.size := by
    rwa [ofDigits_toDigits]
  rw [Numeral.decimal, String.toList_ofList]
  cases hcs : Nat.toDigits 10 n with
  | nil => exact absurd hcs Nat.toDigits_ne_nil
  | cons c cs =>
      have hc : c.isDigit = true :=
        Nat.isDigit_of_mem_toDigits (by decide) (by decide) (hcs ▸ List.mem_cons_self)
      rw [hcs, List.cons_append] at hscan
      rw [List.cons_append, tokens_number hc hscan, numberToken, ← hcs, exceeds_plain hdigits,
        natural?_plain hdigits, ofDigits_toDigits]
      rfl

/-! ## Rows of lexemes -/

/-- Neither white space nor a mark goes on with a number. -/
theorem endsNumber_of_mark (hblanks : blanks.all isSpace = true)
    (hmark : mark? c = some mark) (rest : List Char) : EndsNumber (blanks ++ c :: rest) := by
  intro first hfirst
  cases blanks with
  | nil =>
      obtain rfl : c = first := Option.some.inj hfirst
      have hmem := mem_of_mark? hmark
      simp only [List.mem_cons, List.not_mem_nil, or_false] at hmem
      rcases hmem with rfl | rfl | rfl | rfl | rfl | rfl <;> decide
  | cons blank blanks =>
      obtain rfl : blank = first := Option.some.inj hfirst
      simp only [List.all_cons, isSpace, Bool.and_eq_true, Bool.or_eq_true, beq_iff_eq] at hblanks
      rcases hblanks.1 with ((rfl | rfl) | rfl) | rfl <;> decide

/-- What is written as a row of lexemes has their tokens. -/
theorem Lexed.tokens_eq {lexemes : List String} {row : List Token} {text : String}
    (h : Lexed lexemes row) (hspaced : Spaced lexemes text) : tokens text.toList = row := by
  induction h generalizing text with
  | nil =>
      cases hspaced with
      | nil hblanks =>
          have hskip := tokens_blanks_append hblanks []
          rw [List.append_nil] at hskip
          rw [hskip, tokens]
  | mark hmark rest ih =>
      cases hspaced with
      | cons hblanks hrest =>
          rw [String.toList_append, String.toList_append, List.append_assoc,
            tokens_blanks_append hblanks, String.toList_ofList, List.singleton_append,
            tokens_mark hmark, ih hrest]
  | name hname rest ih =>
      cases hspaced with
      | cons hblanks hrest =>
          rw [String.toList_append, String.toList_append, List.append_assoc,
            tokens_blanks_append hblanks, tokens_quoted hname, ih hrest]
  | decimal hn hmark rest ih =>
      cases hspaced with
      | cons hblanks hrest =>
          cases hrest with
          | cons hbetween hrest =>
              have hend := endsNumber_of_mark hbetween hmark
              simp only [String.toList_append, String.toList_ofList, List.append_assoc,
                List.singleton_append]
              rw [tokens_blanks_append hblanks, tokens_decimal hn (hend _),
                tokens_blanks_append hbetween, tokens_mark hmark, ih hrest]

end IntervalAutomata.Json.StandIn
