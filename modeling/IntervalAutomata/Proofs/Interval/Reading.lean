import IntervalAutomata.Proofs.Interval.Numbers

/-!
# The texts of intervals

The text of an interval is one number, or two with a separator between them (`BoundsText`). Reading
commits itself to one place where the text may be cut (`BoundsText.IsChosen`): the first `..=` or,
if there is none, the first `-`. That loses no reading (`BoundsText.Reads.isChosen`), since no
character of a separator can occur in the text of a number (`Reading.isNumberChar_of_mem`).

The main statement (`Interval.ofText_outcome`) says which texts are read as which intervals, that
the bounds stand at one place only, and with which error each other text is refused.
-/

namespace IntervalAutomata

/-! ## The first separator -/

namespace Reading

variable {separator cs before after : List Char}

/-- A separator stands at the beginning of a text or in the rest. -/
theorem cons_eq_append_iff {c : Char} :
    c :: cs = before ++ separator ++ after ↔
      (before = [] ∧ c :: cs = separator ++ after) ∨
        ∃ rest, before = c :: rest ∧ cs = rest ++ separator ++ after := by
  cases before with
  | nil => simp
  | cons b before => simp [eq_comm, and_assoc]

/-- A text that is not split has no separator. -/
theorem splitFirst?_eq_none (h : splitFirst? separator cs = none) (before after : List Char) :
    cs ≠ before ++ separator ++ after := by
  induction cs generalizing before with
  | nil =>
      rintro heq
      rw [splitFirst?] at h
      split at h
      · cases h
      · simp_all
  | cons c cs ih =>
      rw [splitFirst?] at h
      split at h
      · cases h
      · rename_i hprefix
        rw [List.isPrefixOf_iff_prefix] at hprefix
        rw [Ne, cons_eq_append_iff, not_or]
        constructor
        · rintro ⟨-, heq⟩
          exact hprefix ⟨after, heq.symm⟩
        · rintro ⟨rest, -, heq⟩
          exact ih (Option.map_eq_none_iff.mp h) rest heq

/-- A text is split at the first separator. -/
theorem splitFirst?_eq_some (h : splitFirst? separator cs = some (before, after)) :
    cs = before ++ separator ++ after ∧
      ∀ other rest, cs = other ++ separator ++ rest → before.length ≤ other.length := by
  induction cs generalizing before with
  | nil =>
      rw [splitFirst?] at h
      split at h
      · simp_all
      · cases h
  | cons c cs ih =>
      rw [splitFirst?] at h
      split at h
      · rename_i hprefix
        obtain ⟨rest, hrest⟩ := List.isPrefixOf_iff_prefix.mp hprefix
        obtain ⟨rfl, rfl⟩ := Prod.mk.inj (Option.some.inj h)
        rw [← hrest, List.drop_left]
        exact ⟨rfl, fun _ _ _ => Nat.zero_le _⟩
      · rename_i hprefix
        rw [List.isPrefixOf_iff_prefix] at hprefix
        obtain ⟨⟨first, last⟩, hsplit, hparts⟩ := Option.map_eq_some_iff.mp h
        obtain ⟨rfl, rfl⟩ := Prod.mk.inj hparts
        obtain ⟨heq, hfirst⟩ := ih hsplit
        refine ⟨congrArg (c :: ·) heq, ?_⟩
        intro other rest hother
        rcases cons_eq_append_iff.mp hother with ⟨-, hhere⟩ | ⟨later, rfl, hlater⟩
        · exact absurd ⟨rest, hhere.symm⟩ hprefix
        · exact Nat.succ_le_succ (hfirst later rest hlater)

/-! ## What numbers are made of -/

/-- The characters that the text of a number may have. -/
def IsNumberChar (c : Char) : Prop :=
  Text.isBlank c = true ∨ c = '_' ∨ c = 'x' ∨ c = 'X' ∨ c = '+' ∨
    (Numeral.digit? 16 c).isSome = true

/-- Whether a character occurs in numbers is decided by looking at it. -/
instance (c : Char) : Decidable (IsNumberChar c) :=
  inferInstanceAs (Decidable (_ ∨ _))

/-- A digit of a smaller base is a hexadecimal digit. -/
theorem isNumberChar_of_denotes {base n : Nat} {digits : List Char} {c : Char} (hbase : base ≤ 16)
    (h : Numeral.Denotes base digits n) (hc : c ∈ digits) : IsNumberChar c := by
  obtain ⟨d, hlt, hd⟩ := h.exists_isDigit hc
  have hsixteen : Numeral.digit? 16 c = some d :=
    (Numeral.digit?_eq_some_iff (by decide)).mpr ⟨by omega, hd⟩
  simp [IsNumberChar, hsixteen]

/-- A number is written with the characters of numbers. -/
theorem isNumberChar_of_mem_number {n : Nat} {c : Char} (h : IsNumber cs n) (hc : c ∈ cs) :
    IsNumberChar c := by
  obtain ⟨sign, plus, digits, rfl, hplus, hdigits⟩ := h
  have hchars : IsNumberChar '0' ∧ IsNumberChar 'x' ∧ IsNumberChar 'X' ∧ IsNumberChar '+' := by
    decide
  have hsigns : ∀ c ∈ sign, IsNumberChar c := by
    rcases hdigits with ⟨rfl, -⟩ | ⟨rfl | rfl, -⟩ <;> simp [hchars]
  have hpluses : ∀ c ∈ plus, IsNumberChar c := by
    rcases hplus with rfl | rfl <;> simp [hchars]
  rw [List.mem_append, List.mem_append] at hc
  rcases hc with (hc | hc) | hc
  · exact hsigns c hc
  · exact hpluses c hc
  · rcases hdigits with ⟨-, hdigits⟩ | ⟨-, hdigits⟩
    · exact isNumberChar_of_denotes (by decide) hdigits hc
    · exact isNumberChar_of_denotes (by decide) hdigits hc

/-- A text that is read as a number is made of certain characters. -/
theorem isNumberChar_of_mem {text : String} {n : UInt64} (h : readNumber text = .ok n) {c : Char}
    (hc : c ∈ text.toList) : IsNumberChar c := by
  rcases isBlank_or_mem_essential hc with hblank | hunderscore | hmem
  · exact Or.inl hblank
  · exact Or.inr (Or.inl hunderscore)
  · exact isNumberChar_of_mem_number (readNumber_eq_ok_iff.mp h) hmem

end Reading

/-! ## Where a text is cut -/

/-- A text in two parts with a separator between them. -/
structure BoundsText where
  /-- The part before the separator. -/
  low : String
  /-- The separator. -/
  separator : String
  /-- The part after the separator. -/
  high : String

namespace BoundsText

/-- The whole text. -/
def text (parts : BoundsText) : String :=
  parts.low ++ parts.separator ++ parts.high

/-- The separator is one that may stand between bounds. -/
def Separated (parts : BoundsText) : Prop :=
  parts.separator = "..=" ∨ parts.separator = "-"

/-- The text is cut at the first of all places where the separator stands. -/
def IsFirst (parts : BoundsText) : Prop :=
  ∀ other : BoundsText, other.text = parts.text → other.separator = parts.separator →
    parts.low.length ≤ other.low.length

/-- The text is cut at its first `..=` or, if it has none, at its first `-`. -/
def IsChosen (parts : BoundsText) : Prop :=
  parts.IsFirst ∧ (parts.separator = "..=" ∨
    parts.separator = "-" ∧ ∀ other : BoundsText, other.text = parts.text → other.separator ≠ "..=")

/-- The text is read as two numbers with a separator between them. -/
structure Reads (parts : BoundsText) (a b : UInt64) : Prop where
  /-- Something that may stand between bounds does. -/
  separated : parts.Separated
  /-- What stands before the separator is the lower bound. -/
  low_eq : readNumber parts.low = .ok a
  /-- What stands after the separator is the upper bound. -/
  high_eq : readNumber parts.high = .ok b

/-- The first thing that is wrong with the bounds: the lower one is not read, the upper one is not
read, or they are out of order. -/
inductive Refused (parts : BoundsText) : ReadError → Prop where
  /-- The lower bound is not read. -/
  | low {e : ReadError} (h : readNumber parts.low = .error e) : Refused parts e
  /-- The lower bound is read, the upper one is not. -/
  | high {e : ReadError} {a : UInt64} (hlow : readNumber parts.low = .ok a)
      (h : readNumber parts.high = .error e) : Refused parts e
  /-- Both bounds are read and are out of order. -/
  | range {a b : UInt64} (h : parts.Reads a b) (hlt : b < a) : Refused parts (.invalidRange ⟨a, b⟩)

variable {parts other : BoundsText} {a b : UInt64}

/-- The text of two bounds has the separator between them. -/
theorem toList_text (parts : BoundsText) :
    parts.text.toList = parts.low.toList ++ parts.separator.toList ++ parts.high.toList := by
  rw [text, String.toList_append, String.toList_append]

/-- One text is not cut in two ways at the first place of one separator. -/
theorem IsFirst.unique (h : parts.IsFirst) (h' : other.IsFirst) (htext : parts.text = other.text)
    (hseparator : parts.separator = other.separator) : parts = other := by
  have hlength : parts.low.length = other.low.length :=
    Nat.le_antisymm (h other htext.symm hseparator.symm) (h' parts htext hseparator)
  have hchars := congrArg String.toList htext
  rw [toList_text, toList_text, hseparator, List.append_assoc, List.append_assoc] at hchars
  rw [← String.length_toList, ← String.length_toList] at hlength
  obtain ⟨hlow, hrest⟩ := List.append_inj hchars hlength
  have hhigh := List.append_cancel_left hrest
  rw [String.toList_inj] at hlow hhigh
  cases parts
  cases other
  simp_all

/-- Reading commits itself to one place. -/
theorem IsChosen.unique (h : parts.IsChosen) (h' : other.IsChosen)
    (htext : parts.text = other.text) : parts = other := by
  obtain ⟨hfirst, hseparator⟩ := h
  obtain ⟨hfirst', hseparator'⟩ := h'
  refine hfirst.unique hfirst' htext ?_
  rcases hseparator with hdots | ⟨hdash, hnone⟩ <;>
    rcases hseparator' with hdots' | ⟨hdash', hnone'⟩
  · rw [hdots, hdots']
  · exact absurd hdots (hnone' parts htext)
  · exact absurd hdots' (hnone other htext.symm)
  · rw [hdash, hdash']

/-- A text is cut at something that may stand between bounds. -/
theorem IsChosen.separated (h : parts.IsChosen) : parts.Separated :=
  h.2.imp_right And.left

/-! ### Numbers hold no separator -/

/-- A row in which the first character of a separator does not occur ends before any other place of
the separator. -/
theorem length_le_of_not_mem {c : Char} {low high before after : List Char}
    (tail : List Char) (hc : c ∉ low)
    (h : low ++ c :: tail ++ high = before ++ c :: tail ++ after) :
    low.length ≤ before.length := by
  rw [List.append_assoc, List.append_assoc] at h
  rcases List.append_eq_append_iff.mp h with ⟨rest, rfl, -⟩ | ⟨rest, rfl, hrest⟩
  · rw [List.length_append]
    omega
  · cases rest with
    | nil => rw [List.append_nil]
    | cons r rest =>
        obtain ⟨rfl, -⟩ := List.cons_eq_cons.mp hrest
        simp at hc

/-- The bounds stand at the place to which reading commits itself. -/
theorem Reads.isChosen (h : parts.Reads a b) : parts.IsChosen := by
  have hseparated := h.separated
  have hlow : ∀ c ∈ parts.low.toList, Reading.IsNumberChar c := fun c hc =>
    Reading.isNumberChar_of_mem h.low_eq hc
  have hhigh : ∀ c ∈ parts.high.toList, Reading.IsNumberChar c := fun c hc =>
    Reading.isNumberChar_of_mem h.high_eq hc
  have hdot : '.' ∉ parts.low.toList := fun hmem => absurd (hlow _ hmem) (by decide)
  have hdash : '-' ∉ parts.low.toList := fun hmem => absurd (hlow _ hmem) (by decide)
  have hdot' : '.' ∉ parts.high.toList := fun hmem => absurd (hhigh _ hmem) (by decide)
  constructor
  -- the separator stands nowhere before: it would begin within the lower bound
  · intro other htext hseparator
    have hchars := congrArg String.toList htext.symm
    rw [toList_text, toList_text, hseparator] at hchars
    rw [← String.length_toList, ← String.length_toList]
    rcases hseparated with hdots | hsingle
    · rw [hdots] at hchars
      exact length_le_of_not_mem ['.', '='] hdot hchars
    · rw [hsingle] at hchars
      exact length_le_of_not_mem [] hdash hchars
  -- beside a dash `..=` stands nowhere: no bound has a dot
  · refine hseparated.imp_right fun hsingle => ⟨hsingle, ?_⟩
    intro other htext hdots
    have hmem : '.' ∈ other.text.toList := by
      rw [toList_text, hdots]
      simp
    rw [htext, toList_text, hsingle] at hmem
    simp [hdot, hdot'] at hmem

/-- A text that is read as one number is not cut. -/
theorem not_separated_of_readNumber {n : UInt64} (h : readNumber parts.text = .ok n) :
    ¬parts.Separated := by
  intro hseparated
  obtain ⟨c, hc, hnot⟩ : ∃ c, c ∈ parts.separator.toList ∧ ¬Reading.IsNumberChar c := by
    rcases hseparated with hdots | hsingle
    · exact ⟨'.', by rw [hdots]; decide, by decide⟩
    · exact ⟨'-', by rw [hsingle]; decide, by decide⟩
  apply hnot
  apply Reading.isNumberChar_of_mem h
  rw [toList_text]
  simp [hc]

/-! ### Cutting -/

/-- Splitting at a separator cuts at its first place. -/
theorem isFirst_of_splitFirst? {text : String} (separator : String) {low high : List Char}
    (h : Reading.splitFirst? separator.toList text.toList = some (low, high)) :
    (⟨String.ofList low, separator, String.ofList high⟩ : BoundsText).text = text ∧
      (⟨String.ofList low, separator, String.ofList high⟩ : BoundsText).IsFirst := by
  obtain ⟨heq, hfirst⟩ := Reading.splitFirst?_eq_some h
  have htext : (⟨String.ofList low, separator, String.ofList high⟩ : BoundsText).text = text := by
    rw [← String.toList_inj, toList_text, String.toList_ofList, String.toList_ofList, heq]
  refine ⟨htext, ?_⟩
  intro other hother hseparator
  rw [htext, ← String.toList_inj, toList_text, hseparator] at hother
  have hle := hfirst _ _ hother.symm
  rwa [String.length_toList, ← String.length_ofList] at hle

/-- A text that is not split at a separator has it nowhere. -/
theorem separator_ne_of_splitFirst? (separator : String)
    (h : Reading.splitFirst? separator.toList parts.text.toList = none) :
    parts.separator ≠ separator := by
  rintro rfl
  exact Reading.splitFirst?_eq_none h _ _ parts.toList_text

/-- What is cut into bounds is cut at the chosen place. -/
theorem isChosen_of_splitBounds? {text : String} {low high : List Char}
    (h : Reading.splitBounds? text.toList = some (low, high)) :
    ∃ parts : BoundsText, parts.text = text ∧ parts.IsChosen ∧
      parts.low = String.ofList low ∧ parts.high = String.ofList high := by
  rw [Reading.splitBounds?] at h
  split at h
  · rename_i found hdots
    obtain rfl := Option.some.inj h
    obtain ⟨htext, hfirst⟩ := isFirst_of_splitFirst? "..=" hdots
    exact ⟨_, htext, ⟨hfirst, Or.inl rfl⟩, rfl, rfl⟩
  · rename_i hnone
    obtain ⟨htext, hfirst⟩ := isFirst_of_splitFirst? "-" h
    refine ⟨_, htext, ⟨hfirst, Or.inr ⟨rfl, ?_⟩⟩, rfl, rfl⟩
    intro other hother
    rw [← htext, ← hother] at hnone
    exact separator_ne_of_splitFirst? "..=" hnone

/-- A text with a separator is cut. -/
theorem not_separated_of_splitBounds? (h : Reading.splitBounds? parts.text.toList = none) :
    ¬parts.Separated := by
  rw [Reading.splitBounds?] at h
  split at h
  · cases h
  · rename_i hnone
    rintro (hdots | hsingle)
    · exact separator_ne_of_splitFirst? "..=" hnone hdots
    · exact separator_ne_of_splitFirst? "-" h hsingle

/-- A text is cut at the chosen place, or it has no separator. -/
theorem exists_isChosen_or (text : String) :
    (∃ parts : BoundsText, parts.text = text ∧ parts.IsChosen) ∨
      ∀ parts : BoundsText, parts.text = text → ¬parts.Separated := by
  cases hsplit : Reading.splitBounds? text.toList with
  | some found =>
      obtain ⟨parts, htext, hchosen, -⟩ := isChosen_of_splitBounds? hsplit
      exact Or.inl ⟨parts, htext, hchosen⟩
  | none =>
      right
      rintro parts rfl
      exact not_separated_of_splitBounds? hsplit

end BoundsText

/-! ## The outcome of reading -/

namespace Interval

section outcome

variable {text : String} {parts : BoundsText} {i : Interval} {e : ReadError}

/-- A text without a separator is read as a number. -/
theorem ofText_of_forall_not_separated
    (h : ∀ parts : BoundsText, parts.text = text → ¬parts.Separated) :
    ofText text = (readNumber text).map single := by
  rw [ofText]
  split
  · rfl
  · rename_i low high hsplit
    obtain ⟨parts, htext, hchosen, -, -⟩ := BoundsText.isChosen_of_splitBounds? hsplit
    exact absurd hchosen.separated (h parts htext)

/-- A text without a separator is read as the interval of one number. -/
theorem ofText_eq_ok_iff_of_forall_not_separated
    (h : ∀ parts : BoundsText, parts.text = text → ¬parts.Separated) :
    ofText text = .ok i ↔ ∃ n, readNumber text = .ok n ∧ i = single n := by
  rw [ofText_of_forall_not_separated h]
  cases readNumber text with
  | error e => simp [Except.map]
  | ok n => simp [Except.map, eq_comm]

/-- A text without a separator is refused as a number is. -/
theorem ofText_eq_error_iff_of_forall_not_separated
    (h : ∀ parts : BoundsText, parts.text = text → ¬parts.Separated) :
    ofText text = .error e ↔ readNumber text = .error e := by
  rw [ofText_of_forall_not_separated h]
  cases readNumber text <;> simp [Except.map]

/-- Otherwise the two parts are read at the chosen place, from left to right. -/
theorem ofText_of_isChosen (h : parts.IsChosen) :
    ofText parts.text = match readNumber parts.low with
      | .error e => .error e
      | .ok low => match readNumber parts.high with
        | .error e => .error e
        | .ok high => (ofBounds low high).mapError .invalidRange := by
  rw [ofText]
  split
  · rename_i hsplit
    exact absurd h.separated (BoundsText.not_separated_of_splitBounds? hsplit)
  · rename_i low high hsplit
    obtain ⟨other, htext, hother, hlow, hhigh⟩ := BoundsText.isChosen_of_splitBounds? hsplit
    obtain rfl := hother.unique h htext
    obtain ⟨lowText, separator, highText⟩ := other
    obtain rfl : lowText = String.ofList low := hlow
    obtain rfl : highText = String.ofList high := hhigh
    rfl

/-- A text that is cut is read as the interval between the two numbers. -/
theorem ofText_eq_ok_iff_of_isChosen (h : parts.IsChosen) :
    ofText parts.text = .ok i ↔
      ∃ a b, parts.Reads a b ∧ i.low = a.toNat ∧ i.high = b.toNat := by
  rw [ofText_of_isChosen h]
  constructor
  · intro hok
    split at hok
    · cases hok
    · rename_i a ha
      split at hok
      · cases hok
      · rename_i b hb
        cases hbounds : ofBounds a b with
        | error _ =>
            rw [hbounds] at hok
            cases hok
        | ok j =>
            rw [hbounds] at hok
            obtain rfl := Except.ok.inj hok
            exact ⟨a, b, ⟨h.separated, ha, hb⟩, ofBounds_eq_ok_iff.mp hbounds⟩
  · rintro ⟨a, b, ⟨-, ha, hb⟩, hbounds⟩
    simp only [ha, hb, ofBounds_eq_ok_iff.mpr hbounds]
    rfl

/-- A text that is cut is refused for the first thing that is wrong with its bounds. -/
theorem ofText_eq_error_iff_of_isChosen (h : parts.IsChosen) :
    ofText parts.text = .error e ↔ parts.Refused e := by
  rw [ofText_of_isChosen h]
  constructor
  · intro herror
    split at herror
    · rename_i ha
      obtain rfl := Except.error.inj herror
      exact .low ha
    · rename_i a ha
      split at herror
      · rename_i hb
        obtain rfl := Except.error.inj herror
        exact .high ha hb
      · rename_i b hb
        by_cases hlt : b < a
        · rw [ofBounds_of_lt hlt] at herror
          obtain rfl := Except.error.inj herror
          exact .range ⟨h.separated, ha, hb⟩ hlt
        · rw [ofBounds, dif_pos (UInt64.not_lt.mp hlt)] at herror
          cases herror
  · intro hrefused
    cases hrefused with
    | low ha => simp only [ha]
    | high ha hb => simp only [ha, hb]
    | range hreads hlt =>
        simp only [hreads.low_eq, hreads.high_eq, ofBounds_of_lt hlt]
        rfl

/-- What is read as an interval is a number, or two numbers in order with a separator. -/
theorem ofText_eq_ok_iff :
    ofText text = .ok i ↔
      (∃ n, readNumber text = .ok n ∧ i = single n) ∨
        ∃ parts : BoundsText, parts.text = text ∧
          ∃ a b, parts.Reads a b ∧ a ≤ b ∧ i.low = a.toNat ∧ i.high = b.toNat := by
  rcases BoundsText.exists_isChosen_or text with ⟨parts, rfl, hchosen⟩ | hnone
  · rw [ofText_eq_ok_iff_of_isChosen hchosen]
    constructor
    · rintro ⟨a, b, hreads, hlow, hhigh⟩
      have hle : a ≤ b := by
        rw [UInt64.le_iff_toNat_le, ← hlow, ← hhigh]
        exact i.low_le_high
      exact Or.inr ⟨parts, rfl, a, b, hreads, hle, hlow, hhigh⟩
    · rintro (⟨n, hn, -⟩ | ⟨other, htext, a, b, hreads, -, hbounds⟩)
      · exact absurd hchosen.separated (BoundsText.not_separated_of_readNumber hn)
      · obtain rfl := hreads.isChosen.unique hchosen htext
        exact ⟨a, b, hreads, hbounds⟩
  · rw [ofText_eq_ok_iff_of_forall_not_separated hnone]
    refine ⟨Or.inl, ?_⟩
    rintro (hnumber | ⟨parts, htext, a, b, hreads, -⟩)
    · exact hnumber
    · exact absurd hreads.separated (hnone parts htext)

/-- What is refused is refused for the number that it is not, or for its bounds. -/
theorem ofText_eq_error_iff :
    ofText text = .error e ↔
      ((∀ parts : BoundsText, parts.text = text → ¬parts.Separated) ∧
        readNumber text = .error e) ∨
      ∃ parts : BoundsText, parts.text = text ∧ parts.IsChosen ∧ parts.Refused e := by
  rcases BoundsText.exists_isChosen_or text with ⟨parts, rfl, hchosen⟩ | hnone
  · rw [ofText_eq_error_iff_of_isChosen hchosen]
    constructor
    · exact fun hrefused => Or.inr ⟨parts, rfl, hchosen, hrefused⟩
    · rintro (⟨hnone, -⟩ | ⟨other, htext, hother, hrefused⟩)
      · exact absurd hchosen.separated (hnone parts rfl)
      · obtain rfl := hother.unique hchosen htext
        exact hrefused
  · rw [ofText_eq_error_iff_of_forall_not_separated hnone]
    constructor
    · exact fun hread => Or.inl ⟨hnone, hread⟩
    · rintro (⟨-, hread⟩ | ⟨parts, htext, hchosen, -⟩)
      · exact hread
      · exact absurd hchosen.separated (hnone parts htext)

end outcome

/-- **Every text of an interval is read, at the one place where its bounds stand.** A text is read
as an interval iff it is a number, which then is both bounds, or consists of two numbers in order
with `..=` or `-` between them; it consists of two numbers with a separator in one way at most.
Every other text is refused: for the error of a number if it has no separator, and otherwise for the
first thing that is wrong with the parts before and after its first `..=`, or its first `-` if it
has no `..=`. -/
theorem ofText_outcome (text : String) :
    (∀ i, ofText text = .ok i ↔
      (∃ n, readNumber text = .ok n ∧ i = single n) ∨
        ∃ parts : BoundsText, parts.text = text ∧
          ∃ a b, parts.Reads a b ∧ a ≤ b ∧ i.low = a.toNat ∧ i.high = b.toNat) ∧
      (∀ (parts other : BoundsText) (a b c d : UInt64), parts.text = text → other.text = text →
        parts.Reads a b → other.Reads c d → parts = other) ∧
      ∀ e, ofText text = .error e ↔
        ((∀ parts : BoundsText, parts.text = text → ¬parts.Separated) ∧
          readNumber text = .error e) ∨
        ∃ parts : BoundsText, parts.text = text ∧ parts.IsChosen ∧ parts.Refused e := by
  refine ⟨fun i => ofText_eq_ok_iff, ?_, fun e => ofText_eq_error_iff⟩
  intro parts other a b c d htext htext' hreads hreads'
  exact hreads.isChosen.unique hreads'.isChosen (htext.trans htext'.symm)

/-- Blanks around the parts, an underscore in a number and a plus sign do not stand in the way. -/
theorem ofText_outcome_spaced :
    ∃ parts other : BoundsText, parts = ⟨" 0x2_0", "..=", "+55295 "⟩ ∧
      parts.text = " 0x2_0..=+55295 " ∧ other.text = " 0x2_0..=+55295 " ∧
      parts.Reads 0x20 0xD7FF ∧ other.Reads 0x20 0xD7FF ∧ parts = other ∧
      ofText " 0x2_0..=+55295 " = .ok ⟨0x20, 0xD7FF, by decide, by decide⟩ := by
  have htext : (⟨" 0x2_0", "..=", "+55295 "⟩ : BoundsText).text = " 0x2_0..=+55295 " := by decide
  have hreads : (⟨" 0x2_0", "..=", "+55295 "⟩ : BoundsText).Reads 0x20 0xD7FF :=
    ⟨Or.inl rfl, by decide, by decide⟩
  obtain ⟨hok, hunique, -⟩ := ofText_outcome " 0x2_0..=+55295 "
  refine ⟨_, _, rfl, htext, htext, hreads, hreads, ?_, ?_⟩
  · exact hunique _ _ _ _ _ _ htext htext hreads hreads
  · exact (hok _).mpr (Or.inr ⟨_, htext, _, _, hreads, by decide, rfl, rfl⟩)

end Interval

end IntervalAutomata
