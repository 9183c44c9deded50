import IntervalAutomata.Interval.Reading
import IntervalAutomata.Proofs.Text.Numerals
import Mathlib.Data.List.DropRight
import Mathlib.Data.List.Forall2
import Mathlib.Data.Nat.Digits.Defs
import Mathlib.Tactic.Ring

/-!
# The texts of numbers

A number is read in three steps, each of which has a meaning of its own:

* **Trimming** removes the longest blank parts at both ends (`Text.Trims`, `Text.trims_iff`).
* **Underscores** are removed afterwards, so that a blank behind one stays
  (`Reading.isBlank_or_mem_essential`).
* **What is left** is a number if it is written as one (`Reading.IsNumber`): an optional sign of the
  base, at most one plus sign, and at least one digit of the base. Digits denote a number in
  positional notation (`Numeral.Denotes`), whatever their count.

The main statement (`readNumber_outcome`) says of every text which of the three outcomes it has.
-/

namespace IntervalAutomata

/-! ## Trimming -/

namespace Text

/-- What remains of a text when the blanks at its ends are removed: nothing but blanks is missing,
and neither end is blank any more. -/
structure Trims (cs kept : List Char) : Prop where
  /-- Only blanks are removed, and only at the ends. -/
  exists_ends : ∃ front back, cs = front ++ kept ++ back ∧
    (∀ c ∈ front, isBlank c = true) ∧ ∀ c ∈ back, isBlank c = true
  /-- What remains does not begin with a blank. -/
  isBlank_head : ∀ c ∈ kept.head?, isBlank c = false
  /-- What remains does not end with a blank. -/
  isBlank_last : ∀ c ∈ kept.getLast?, isBlank c = false

variable {cs kept : List Char}

/-- Blanks are dropped at the left end and then at the right end. -/
theorem trimBlank_eq_rdropWhile (cs : List Char) :
    trimBlank cs = (cs.dropWhile isBlank).rdropWhile isBlank := rfl

/-- What does not begin with a blank loses none at its beginning. -/
theorem dropWhile_of_head (h : ∀ c ∈ cs.head?, isBlank c = false) : cs.dropWhile isBlank = cs := by
  cases cs with
  | nil => rfl
  | cons c cs => rw [List.dropWhile_cons_of_neg (by simp [h c rfl])]

/-- What does not end with a blank loses none at its end, and what follows it is lost. -/
theorem rdropWhile_append {back : List Char} (h : ∀ c ∈ cs.getLast?, isBlank c = false)
    (hback : ∀ c ∈ back, isBlank c = true) : (cs ++ back).rdropWhile isBlank = cs := by
  rw [List.rdropWhile, List.reverse_append, List.dropWhile_append_of_pos (by simpa using hback),
    dropWhile_of_head (by simpa using h), List.reverse_reverse]

/-- Trimming removes the blanks at both ends and nothing else. -/
theorem trims_trimBlank (cs : List Char) : Trims cs (trimBlank cs) where
  exists_ends := by
    refine ⟨cs.takeWhile isBlank, (cs.dropWhile isBlank).rtakeWhile isBlank, ?_, ?_, ?_⟩
    · rw [trimBlank_eq_rdropWhile, List.append_assoc, List.rdropWhile_append_rtakeWhile,
        List.takeWhile_append_dropWhile]
    · exact fun c hc => List.mem_takeWhile_imp hc
    · exact fun c hc => List.mem_rtakeWhile_imp hc
  isBlank_head := by
    intro c hc
    have hfirst : c ∈ (cs.dropWhile isBlank).head? := by
      obtain ⟨rest, hrest⟩ := List.rdropWhile_prefix (p := isBlank) (l := cs.dropWhile isBlank)
      rw [← hrest, List.head?_append]
      exact Option.or_eq_some_iff.mpr (Or.inl hc)
    have hnot := List.head?_dropWhile_not isBlank cs
    rw [Option.mem_def.mp hfirst] at hnot
    exact hnot
  isBlank_last := by
    intro c hc
    obtain ⟨hne, hlast⟩ := List.mem_getLast?_eq_getLast hc
    rw [hlast]
    exact Bool.eq_false_iff.mpr (List.rdropWhile_last_not isBlank (cs.dropWhile isBlank) hne)

/-- **Trimming is what the library does**, and has no other result. -/
theorem trims_iff : Trims cs kept ↔ kept = trimBlank cs := by
  constructor
  · rintro ⟨⟨front, back, rfl, hfront, hback⟩, hhead, hlast⟩
    rw [trimBlank_eq_rdropWhile, List.append_assoc, List.dropWhile_append_of_pos hfront]
    cases kept with
    | nil =>
        rw [List.nil_append, List.dropWhile_eq_nil_iff.mpr hback]
        rfl
    | cons c kept =>
        have hfirst : ∀ x ∈ (c :: kept ++ back).head?, isBlank x = false := hhead
        rw [dropWhile_of_head hfirst, rdropWhile_append hlast hback]
  · rintro rfl
    exact trims_trimBlank cs

end Text

/-! ## Digits -/

namespace Numeral

variable {base value n : Nat} {c : Char} {cs : List Char}

/-- A character is the digit of a base with this value; letters may be small or capital. -/
def IsDigit (base : Nat) (c : Char) (d : Nat) : Prop :=
  d < base ∧ (c = Nat.digitChar d ∨ c = (Nat.digitChar d).toUpper)

/-- A row of digits, the most significant first, denotes a number in positional notation. -/
def Denotes (base : Nat) (digits : List Char) (n : Nat) : Prop :=
  digits ≠ [] ∧
    ∃ values, List.Forall₂ (IsDigit base) digits values ∧ n = Nat.ofDigits base values.reverse

/-- The characters that count for a hexadecimal digit, by their code points. -/
theorem toNat_of_weight? {d : Nat} (hd : d < 16) (h : weight? c = some d) :
    (d < 10 ∧ c.toNat = d + 48) ∨ (10 ≤ d ∧ (c.toNat = d + 87 ∨ c.toNat = d + 55)) := by
  have hle : ∀ a b : Char, a ≤ b ↔ a.toNat ≤ b.toNat := fun a b => UInt32.le_iff_toNat_le
  have h0 : '0'.toNat = 48 := rfl
  have h9 : '9'.toNat = 57 := rfl
  have ha : 'a'.toNat = 97 := rfl
  have hz : 'z'.toNat = 122 := rfl
  have hA : 'A'.toNat = 65 := rfl
  have hZ : 'Z'.toNat = 90 := rfl
  simp only [weight?, hle] at h
  split at h
  · obtain rfl := Option.some.inj h
    omega
  · split at h
    · obtain rfl := Option.some.inj h
      omega
    · split at h
      · obtain rfl := Option.some.inj h
        omega
      · cases h

/-- What a character counts for below sixteen. -/
theorem weight?_eq_some_iff {d : Nat} (hd : d < 16) :
    weight? c = some d ↔ c = Nat.digitChar d ∨ c = (Nat.digitChar d).toUpper := by
  constructor
  · intro h
    have hnumeral : ∀ d < 10, Char.ofNat (d + 48) = Nat.digitChar d := by decide
    have hsmall : ∀ d < 16, 10 ≤ d → Char.ofNat (d + 87) = Nat.digitChar d := by decide
    have hcapital : ∀ d < 16, 10 ≤ d → Char.ofNat (d + 55) = (Nat.digitChar d).toUpper := by
      decide
    rw [← Char.ofNat_toNat c]
    rcases toNat_of_weight? hd h with ⟨hlt, hc⟩ | ⟨hge, hc | hc⟩ <;> rw [hc]
    · exact Or.inl (hnumeral d hlt)
    · exact Or.inl (hsmall d hd hge)
    · exact Or.inr (hcapital d hd hge)
  · have hsmall : ∀ d < 16, weight? (Nat.digitChar d) = some d := by decide
    have hcapital : ∀ d < 16, weight? (Nat.digitChar d).toUpper = some d := by decide
    rintro (rfl | rfl)
    · exact hsmall d hd
    · exact hcapital d hd

/-- What is read as a digit is one. -/
theorem digit?_eq_some_iff (hbase : base ≤ 16) {d : Nat} :
    digit? base c = some d ↔ IsDigit base c d := by
  rw [digit?, Option.filter_eq_some_iff, decide_eq_true_eq, IsDigit, and_comm]
  exact and_congr_right fun hd => weight?_eq_some_iff (by omega)

/-- Reading on from a number read so far. -/
theorem extend?_eq_some_iff (hbase : base ≤ 16) :
    extend? base value cs = some n ↔ ∃ values, List.Forall₂ (IsDigit base) cs values ∧
      n = base ^ values.length * value + Nat.ofDigits base values.reverse := by
  induction cs generalizing value with
  | nil => simp [extend?, eq_comm]
  | cons c cs ih =>
      rw [extend?, Option.bind_eq_some_iff]
      have hstep : ∀ (d : Nat) (values : List Nat),
          base ^ (d :: values).length * value + Nat.ofDigits base (d :: values).reverse =
            base ^ values.length * (base * value + d) + Nat.ofDigits base values.reverse := by
        intro d values
        rw [List.reverse_cons, Nat.ofDigits_append, Nat.ofDigits_singleton, List.length_reverse,
          List.length_cons]
        ring
      constructor
      · rintro ⟨d, hd, hrest⟩
        obtain ⟨values, hvalues, hn⟩ := ih.mp hrest
        exact ⟨d :: values, .cons ((digit?_eq_some_iff hbase).mp hd) hvalues, by rw [hstep, hn]⟩
      · rintro ⟨values, hvalues, hn⟩
        cases hvalues with
        | @cons _ d _ values hd hvalues =>
            rw [hstep] at hn
            exact ⟨d, (digit?_eq_some_iff hbase).mpr hd, ih.mpr ⟨values, hvalues, hn⟩⟩

/-- **Reading is positional notation.** -/
theorem valueOf?_eq_some_iff (hbase : base ≤ 16) :
    valueOf? base cs = some n ↔ Denotes base cs n := by
  rw [valueOf?, Denotes]
  split
  · simp_all
  · rename_i hne
    rw [extend?_eq_some_iff hbase]
    simp only [Nat.mul_zero, Nat.zero_add, ne_eq, hne, not_false_eq_true, true_and]

/-- What denotes a number is made of digits. -/
theorem Denotes.exists_isDigit (h : Denotes base cs n) (hc : c ∈ cs) : ∃ d, IsDigit base c d := by
  obtain ⟨-, values, hvalues, -⟩ := h
  induction hvalues with
  | nil => cases hc
  | cons hd _ ih =>
      rcases List.mem_cons.mp hc with rfl | hc
      · exact ⟨_, hd⟩
      · exact ih hc

/-- What is no digit of the base does not occur. -/
theorem Denotes.not_mem (h : Denotes base cs n) (hbase : base ≤ 16) (hc : digit? base c = none) :
    c ∉ cs := by
  intro hmem
  obtain ⟨d, hd⟩ := h.exists_isDigit hmem
  rw [(digit?_eq_some_iff hbase).mpr hd] at hc
  cases hc

end Numeral

/-! ## Numbers -/

namespace Reading

variable {cs : List Char} {n : Nat} {c : Char}

/-- How a number is written: a sign of the base or none, a plus sign or none, and digits. -/
def IsNumber (cs : List Char) (n : Nat) : Prop :=
  ∃ sign plus digits, cs = sign ++ plus ++ digits ∧ (plus = [] ∨ plus = ['+']) ∧
    ((sign = [] ∧ Numeral.Denotes 10 digits n) ∨
      ((sign = ['0', 'x'] ∨ sign = ['0', 'X']) ∧ Numeral.Denotes 16 digits n))

/-! ### What counts of a text -/

/-- Nothing but blanks and underscores is lost. -/
theorem isBlank_or_mem_essential (h : c ∈ cs) :
    Text.isBlank c = true ∨ c = '_' ∨ c ∈ essential cs := by
  obtain ⟨front, back, hcs, hfront, hback⟩ := (Text.trims_trimBlank cs).exists_ends
  rw [hcs, List.mem_append, List.mem_append] at h
  rcases h with (h | h) | h
  · exact Or.inl (hfront c h)
  · by_cases hunderscore : c = '_'
    · exact Or.inr (Or.inl hunderscore)
    · exact Or.inr (Or.inr (List.mem_filter.mpr ⟨h, decide_eq_true hunderscore⟩))
  · exact Or.inl (hback c h)

/-- All of a text counts that has neither blanks nor underscores. -/
theorem essential_of_forall (h : ∀ c ∈ cs, Text.isBlank c = false ∧ c ≠ '_') :
    essential cs = cs := by
  have htrims : Text.Trims cs cs := by
    refine ⟨⟨[], [], by simp, by simp, by simp⟩, ?_, ?_⟩
    · exact fun c hc => (h c (List.mem_of_mem_head? hc)).1
    · exact fun c hc => (h c (List.mem_of_mem_getLast? hc)).1
  rw [essential, ← Text.trims_iff.mp htrims, List.filter_eq_self]
  exact fun c hc => decide_eq_true (h c hc).2

/-! ### Signs -/

/-- Where no sign of the base occurs, the base is ten. -/
theorem base_of_not_mem (h : 'x' ∉ cs) (h' : 'X' ∉ cs) : base cs = (10, cs) := by
  unfold base
  split
  · simp at h
  · simp at h'
  · rfl

/-- The sign of the base and what follows it. -/
theorem base_cases (cs : List Char) :
    (base cs).1 = 10 ∧ cs = (base cs).2 ∨
      (base cs).1 = 16 ∧ (cs = ['0', 'x'] ++ (base cs).2 ∨ cs = ['0', 'X'] ++ (base cs).2) := by
  unfold base
  split
  · exact Or.inr ⟨rfl, Or.inl rfl⟩
  · exact Or.inr ⟨rfl, Or.inr rfl⟩
  · exact Or.inl ⟨rfl, rfl⟩

/-- The plus sign and what follows it. -/
theorem dropPlus_cases (cs : List Char) :
    ∃ plus, (plus = [] ∨ plus = ['+']) ∧ cs = plus ++ dropPlus cs := by
  unfold dropPlus
  split
  · exact ⟨['+'], Or.inr rfl, rfl⟩
  · exact ⟨[], Or.inl rfl, rfl⟩

/-- A plus sign in front is dropped. -/
theorem dropPlus_append {plus digits : List Char} (hplus : plus = [] ∨ plus = ['+'])
    (hdigits : '+' ∉ digits) : dropPlus (plus ++ digits) = digits := by
  rcases hplus with rfl | rfl
  · rw [List.nil_append]
    unfold dropPlus
    split
    · simp at hdigits
    · rfl
  · rfl

/-- What is read is the sign of a base, a plus sign and digits. -/
theorem isNumber_of_valueOf?
    (h : Numeral.valueOf? (base cs).1 (dropPlus (base cs).2) = some n) : IsNumber cs n := by
  obtain ⟨plus, hplus, hrest⟩ := dropPlus_cases (base cs).2
  rcases base_cases cs with ⟨hten, hcs⟩ | ⟨hsixteen, hcs⟩
  · rw [hten, Numeral.valueOf?_eq_some_iff (by decide)] at h
    exact ⟨[], plus, _, hcs.trans hrest, hplus, Or.inl ⟨rfl, h⟩⟩
  · rw [hsixteen, Numeral.valueOf?_eq_some_iff (by decide)] at h
    rw [hrest, ← List.append_assoc, ← List.append_assoc] at hcs
    rcases hcs with hcs | hcs
    · exact ⟨_, plus, _, hcs, hplus, Or.inr ⟨Or.inl rfl, h⟩⟩
    · exact ⟨_, plus, _, hcs, hplus, Or.inr ⟨Or.inr rfl, h⟩⟩

/-- The signs are told from the digits, of which they are none. -/
theorem IsNumber.valueOf?_eq (h : IsNumber cs n) :
    Numeral.valueOf? (base cs).1 (dropPlus (base cs).2) = some n := by
  obtain ⟨sign, plus, digits, rfl, hplus, ⟨rfl, h⟩ | ⟨hsign, h⟩⟩ := h
  · have hx : 'x' ∉ digits := h.not_mem (by decide) (by decide)
    have hX : 'X' ∉ digits := h.not_mem (by decide) (by decide)
    have hdigits : '+' ∉ digits := h.not_mem (by decide) (by decide)
    have hbase : base (plus ++ digits) = (10, plus ++ digits) := by
      rcases hplus with rfl | rfl <;> exact base_of_not_mem (by simp [hx]) (by simp [hX])
    have hread : Numeral.valueOf? 10 digits = some n :=
      (Numeral.valueOf?_eq_some_iff (by decide)).mpr h
    rw [List.nil_append, hbase, dropPlus_append hplus hdigits]
    exact hread
  · have hdigits : '+' ∉ digits := h.not_mem (by decide) (by decide)
    have hbase : base (sign ++ plus ++ digits) = (16, plus ++ digits) := by
      rw [List.append_assoc]
      rcases hsign with rfl | rfl <;> rfl
    have hread : Numeral.valueOf? 16 digits = some n :=
      (Numeral.valueOf?_eq_some_iff (by decide)).mpr h
    rw [hbase, dropPlus_append hplus hdigits]
    exact hread

/-- **What is read as a number is written as one**, with a value below `2 ^ 64`. -/
theorem number?_eq_some_iff : number? cs = some n ↔ IsNumber cs n ∧ n < 2 ^ 64 := by
  have hsize : UInt64.size = 2 ^ 64 := rfl
  rw [number?, Option.filter_eq_some_iff, decide_eq_true_eq, hsize]
  exact and_congr_left fun _ => ⟨isNumber_of_valueOf?, IsNumber.valueOf?_eq⟩

/-- A number has a digit. -/
theorem IsNumber.ne_nil (h : IsNumber cs n) : cs ≠ [] := by
  obtain ⟨sign, plus, digits, rfl, -, ⟨-, hdigits, -⟩ | ⟨-, hdigits, -⟩⟩ := h <;>
    exact List.append_ne_nil_of_right_ne_nil _ hdigits

/-- Whatever is no number is refused. -/
theorem number?_eq_none_iff : number? cs = none ↔ ¬∃ n : UInt64, IsNumber cs n.toNat := by
  rw [Option.eq_none_iff_forall_ne_some, not_exists]
  constructor
  · intro h n hn
    exact h n.toNat (number?_eq_some_iff.mpr ⟨hn, n.toNat_lt⟩)
  · intro h n hn
    obtain ⟨hnumber, hlt⟩ := number?_eq_some_iff.mp hn
    apply h (UInt64.ofNat n)
    rwa [UInt64.toNat_ofNat_of_lt' hlt]

end Reading

/-! ## The outcome of reading -/

section outcome

variable {text : String}

/-- A text of which nothing counts is refused as empty. -/
theorem readNumber_of_nil (h : Reading.essential text.toList = []) :
    readNumber text = .error .empty := by
  rw [readNumber]
  exact if_pos h

/-- A text of which something counts is read as a number or shown in the refusal. -/
theorem readNumber_of_ne_nil (h : Reading.essential text.toList ≠ []) :
    readNumber text = match Reading.number? (Reading.essential text.toList) with
      | some n => .ok (UInt64.ofNat n)
      | none => .error (.invalidNumber text) := by
  rw [readNumber]
  exact if_neg h

/-- A text is refused as empty exactly if nothing of it counts. -/
theorem readNumber_eq_empty_iff :
    readNumber text = .error .empty ↔ Reading.essential text.toList = [] := by
  constructor
  · intro h
    by_contra hne
    rw [readNumber_of_ne_nil hne] at h
    split at h <;> cases h
  · exact readNumber_of_nil

/-- A text is read as a number exactly if what counts of it is written as that number. -/
theorem readNumber_eq_ok_iff {n : UInt64} :
    readNumber text = .ok n ↔ Reading.IsNumber (Reading.essential text.toList) n.toNat := by
  by_cases hnil : Reading.essential text.toList = []
  · rw [readNumber_of_nil hnil]
    exact iff_of_false (by simp) fun h => h.ne_nil hnil
  · rw [readNumber_of_ne_nil hnil]
    constructor
    · intro h
      split at h
      · rename_i m hm
        obtain rfl := Except.ok.inj h
        obtain ⟨hnumber, hlt⟩ := Reading.number?_eq_some_iff.mp hm
        rwa [UInt64.toNat_ofNat_of_lt' hlt]
      · cases h
    · intro h
      rw [Reading.number?_eq_some_iff.mpr ⟨h, n.toNat_lt⟩]
      simp

/-- A text is refused as no number exactly if something of it counts and is written as no number of
64 bits. -/
theorem readNumber_eq_invalidNumber_iff {shown : String} :
    readNumber text = .error (.invalidNumber shown) ↔
      shown = text ∧ Reading.essential text.toList ≠ [] ∧
        ¬∃ n : UInt64, Reading.IsNumber (Reading.essential text.toList) n.toNat := by
  by_cases hnil : Reading.essential text.toList = []
  · rw [readNumber_of_nil hnil]
    simp [hnil]
  · rw [readNumber_of_ne_nil hnil, ← Reading.number?_eq_none_iff]
    cases Reading.number? (Reading.essential text.toList) <;> simp [hnil, eq_comm]

end outcome

/-- **Every text has one of three outcomes.** Let `cs` be the text without the blanks at its ends
and then without underscores. If nothing is left the number is empty. Otherwise the text is read as
the number below `2 ^ 64` that is written there, and if there is none it is refused as it was
given. -/
theorem readNumber_outcome (text : String) :
    ∃ kept, (∀ other, Text.Trims text.toList other ↔ other = kept) ∧
      let cs := kept.filter (· ≠ '_')
      (readNumber text = .error .empty ↔ cs = []) ∧
      (∀ n, readNumber text = .ok n ↔ Reading.IsNumber cs n.toNat) ∧
      (∀ shown, readNumber text = .error (.invalidNumber shown) ↔
        shown = text ∧ cs ≠ [] ∧ ¬∃ n : UInt64, Reading.IsNumber cs n.toNat) := by
  refine ⟨Text.trimBlank text.toList, fun other => Text.trims_iff, ?_, ?_, ?_⟩
  · exact readNumber_eq_empty_iff
  · exact fun n => readNumber_eq_ok_iff
  · exact fun shown => readNumber_eq_invalidNumber_iff

/-- An underscore may split the sign of the base, and the plus sign follows it. -/
example : readNumber " 0_X+1f\u3000" = .ok 31 := by decide

/-- A blank behind an underscore is not at the end of the text, and is no digit. -/
example : readNumber "_ 1" = .error (.invalidNumber "_ 1") := by decide

end IntervalAutomata
