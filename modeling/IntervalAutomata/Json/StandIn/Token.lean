import IntervalAutomata.Json.StandIn.Number

/-!
# Tokens of JSON texts, read by the stand-in

Part of the stand-in for the JSON library (`Json.standIn`): a JSON text as a row of tokens
(`tokens`). A token that turns out to be faulty is the last of its row: what follows it is never
looked at.

A faulty token does not refuse the text by itself, because where another token is required its mere
place is the fault. Texts and numbers carry two outcomes, one for a reader that wants their value
and one for a reader that skips over them: a text may hold an unpaired surrogate and a number may be
out of range as long as nobody asks for their value.
-/

namespace IntervalAutomata.Json.StandIn

/-! ## Quoted texts -/

/-- A piece of a quoted text. -/
inductive TextUnit where
  /-- A character, written as it is or by a short escape. -/
  | char (c : Char)
  /-- A 16-bit code unit, written by its four hexadecimal digits. -/
  | code (unit : Nat)

/-- The units of a quoted text up to its end or to a fault. -/
structure TextScan where
  /-- The units read. -/
  units : List TextUnit
  /-- What follows the closing quote, or why there is none. -/
  rest : Except Fault (List Char)

/-- A scan with a unit before all others. -/
def TextScan.after (unit : TextUnit) (scan : TextScan) : TextScan :=
  ⟨unit :: scan.units, scan.rest⟩

/-- The character that a short escape stands for. -/
def shortEscape? : Char → Option Char
  | '"' => some '"'
  | '\\' => some '\\'
  | '/' => some '/'
  | 'b' => some '\x08'
  | 'f' => some '\x0c'
  | 'n' => some '\n'
  | 'r' => some '\r'
  | 't' => some '\t'
  | _ => none

/-- What is wrong with fewer than four characters where four digits must stand: the text ends within
four bytes of UTF-8, or it holds something else. -/
def shortCode (cs : List Char) : Fault :=
  if (String.ofList cs).utf8ByteSize < 4 then .truncated else .malformed

/-- Scans a quoted text after its opening quote. -/
def scanText : List Char → TextScan
  | [] => ⟨[], .error .truncated⟩
  | c :: cs =>
    if c = '"' then ⟨[], .ok cs⟩
    else if c = '\\' then
      match cs with
      | [] => ⟨[], .error .truncated⟩
      | e :: cs =>
        if e = 'u' then
          match cs with
          | h₁ :: h₂ :: h₃ :: h₄ :: cs =>
            match Numeral.valueOf? 16 [h₁, h₂, h₃, h₄] with
            | some unit => (scanText cs).after (.code unit)
            | none => ⟨[], .error .malformed⟩
          | cs => ⟨[], .error (shortCode cs)⟩
        else
          match shortEscape? e with
          | some escaped => (scanText cs).after (.char escaped)
          | none => ⟨[], .error .malformed⟩
    else if c.toNat < 0x20 then ⟨[], .error .malformed⟩
    else (scanText cs).after (.char c)

/-- Whether a code unit is the first half of a surrogate pair. -/
def isLeading (unit : Nat) : Bool := 0xD800 ≤ unit && unit ≤ 0xDBFF

/-- Whether a code unit is the second half of a surrogate pair. -/
def isTrailing (unit : Nat) : Bool := 0xDC00 ≤ unit && unit ≤ 0xDFFF

/-- The code point of a surrogate pair. -/
def pairedCode (leading trailing : Nat) : Nat :=
  0x10000 + (leading - 0xD800) * 0x400 + (trailing - 0xDC00)

/-- The characters that units stand for, given how their text ends. Surrogates must come in
pairs. -/
def decodeUnits (rest : Except Fault (List Char)) : List TextUnit → Except Fault (List Char)
  | [] => rest.map fun _ => []
  | .char c :: units => (decodeUnits rest units).map (c :: ·)
  | .code unit :: units =>
    if isLeading unit then
      match units with
      | [] => rest.bind fun _ => .error .malformed
      | .char _ :: _ => .error .malformed
      | .code second :: units =>
        if isTrailing second then
          (decodeUnits rest units).map (Char.ofNat (pairedCode unit second) :: ·)
        else .error .malformed
    else if isTrailing unit then .error .malformed
    else (decodeUnits rest units).map (Char.ofNat unit :: ·)

/-- The characters of a scanned text. -/
def TextScan.content (scan : TextScan) : Except Fault (List Char) :=
  decodeUnits scan.rest scan.units

/-- A unit in front does not change how a text ends. -/
theorem TextScan.rest_after (unit : TextUnit) (scan : TextScan) :
    (scan.after unit).rest = scan.rest := rfl

/-- A text takes at least its closing quote. -/
theorem length_scanText {cs rest : List Char} (h : (scanText cs).rest = .ok rest) :
    rest.length < cs.length := by
  fun_induction scanText cs <;> simp_all [TextScan.rest_after] <;> omega

/-! ## Tokens -/

/-- A token of a JSON text. -/
inductive Token where
  /-- An opening brace. -/
  | beginObject
  /-- A closing brace. -/
  | endObject
  /-- An opening bracket. -/
  | beginArray
  /-- A closing bracket. -/
  | endArray
  /-- A colon. -/
  | colon
  /-- A comma. -/
  | comma
  /-- A quoted text: its characters, and whether it can be skipped. -/
  | text (content : Except Fault (List Char)) (skipped : Except Fault Unit)
  /-- A number: the natural number below `2 ^ 64` that it is, if any, and whether it can be
  skipped. -/
  | number (value : Except Fault (Option Nat)) (skipped : Except Fault Unit)
  /-- One of the three words of JSON. -/
  | word (read : Except Fault Unit)
  /-- A character that starts no token. -/
  | stray

/-- The token of a scanned text. -/
def TextScan.token (scan : TextScan) : Token :=
  .text scan.content (scan.rest.map fun _ => ())

/-- The token of a scanned number. Whoever skips a faulty number does not care where it ended. -/
def numberToken : Except Fault (Numeric × List Char) → Token
  | .error e => .number (.error e) (.error .malformed)
  | .ok (n, _) => .number (if n.exceeds then .error .malformed else .ok n.natural?) (.ok ())

/-- The rest of a text after the remaining letters of a word. -/
def scanWord : (letters : List Char) → List Char → Except Fault (List Char)
  | [], cs => .ok cs
  | _ :: _, [] => .error .truncated
  | letter :: letters, c :: cs => if c = letter then scanWord letters cs else .error .malformed

/-- The letters of a JSON word after its first. -/
def wordLetters? : Char → Option (List Char)
  | 'n' => some ['u', 'l', 'l']
  | 't' => some ['r', 'u', 'e']
  | 'f' => some ['a', 'l', 's', 'e']
  | _ => none

/-- The token that is a single character. -/
def mark? : Char → Option Token
  | '\x7b' => some .beginObject
  | '\x7d' => some .endObject
  | '[' => some .beginArray
  | ']' => some .endArray
  | ':' => some .colon
  | ',' => some .comma
  | _ => none

/-- A word adds nothing to the text that is left. -/
theorem length_scanWord {letters cs rest : List Char} (h : scanWord letters cs = .ok rest) :
    rest.length ≤ cs.length := by
  induction letters generalizing cs with
  | nil => cases h; exact Nat.le_refl _
  | cons letter letters ih =>
    cases cs with
    | nil => cases h
    | cons c cs =>
      simp only [scanWord] at h
      split at h
      · have := ih h
        simp only [List.length_cons]
        omega
      · cases h

/-- The tokens of a text, up to its end or to the first faulty token. -/
def tokens : List Char → List Token
  | [] => []
  | c :: cs =>
    if isSpace c then tokens cs
    else
      match mark? c with
      | some mark => mark :: tokens cs
      | none =>
        if c = '"' then
          (scanText cs).token ::
            match h : (scanText cs).rest with
            | .ok rest =>
              have := length_scanText h
              tokens rest
            | .error _ => []
        else if c = '-' ∨ c.isDigit then
          numberToken (scanNumber (c :: cs)) ::
            match h : scanNumber (c :: cs) with
            | .ok (_, rest) =>
              have := length_scanNumber h
              tokens rest
            | .error _ => []
        else
          match wordLetters? c with
          | some letters =>
            .word ((scanWord letters cs).map fun _ => ()) ::
              match h : scanWord letters cs with
              | .ok rest =>
                have := length_scanWord h
                tokens rest
              | .error _ => []
          | none => [.stray]
termination_by cs => cs.length
decreasing_by all_goals simp only [List.length_cons] at *; omega

end IntervalAutomata.Json.StandIn
