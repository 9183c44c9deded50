import IntervalAutomata.Json.StandIn.Reader
import IntervalAutomata.Proofs.Json.Tokens

/-!
# What is documented of the JSON library holds for its stand-in

The stand-in has every property that is documented of the library (`Json.standIn_laws`). It reads a
text through its tokens, which do not depend on white space (`tokens_of_spaced_object`,
`tokens_of_spaced_array`), and takes the tokens of an object or an array member by member
(`Reader.run_object`, `Reader.run_array`).

While an object is read, the fields known are the members that have been passed, and those still to
come have other names; this carries the induction on the members.
-/

namespace IntervalAutomata.Json

namespace StandIn

/-! ## Tokens of records -/

/-- The tokens of a member. -/
def memberTokens (member : String × UInt64) : List Token :=
  [.name member.1, .colon, .natural member.2.toNat]

/-- The tokens of an object. -/
def objectTokens (members : Members) : List Token :=
  .beginObject :: ([.comma].intercalate (members.map memberTokens) ++ [.endObject])

/-- The tokens of an array of numbers. -/
def arrayTokens (values : List UInt64) : List Token :=
  .beginArray :: ([.comma].intercalate (values.map fun value => [.natural value.toNat])
    ++ [.endArray])

variable {c : Char} {mark : Token} {lexemes : List String} {tokens rest : List Token}
  {members others known : Members} {member : String × UInt64} {names : List String}
  {text : String}

/-- Parts that are each taken up to the mark after them are so taken in a row, too. -/
theorem Lexed.intercalate {α : Type} {texts : α → List String} {parts : α → List Token}
    {as : List α} (hmark : mark? c = some mark) (hrest : Lexed lexemes tokens)
    (hpart : ∀ a ∈ as, ∀ {c mark lexemes tokens}, mark? c = some mark → Lexed lexemes tokens →
      Lexed (texts a ++ String.ofList [c] :: lexemes) (parts a ++ mark :: tokens)) :
    Lexed ([","].intercalate (as.map texts) ++ String.ofList [c] :: lexemes)
      ([.comma].intercalate (as.map parts) ++ mark :: tokens) := by
  induction as with
  | nil => exact .mark hmark hrest
  | cons a as ih =>
      have hfirst := @hpart a List.mem_cons_self
      have hothers := ih fun b hb => hpart b (List.mem_cons_of_mem _ hb)
      cases as with
      | nil =>
          rw [List.map_singleton, List.map_singleton, List.intercalate_singleton,
            List.intercalate_singleton]
          exact hfirst hmark hrest
      | cons b as =>
          have hcomma : mark? ',' = some .comma := rfl
          simp only [List.map_cons, List.intercalate_cons_cons, List.append_assoc] at hothers ⊢
          exact hfirst hcomma hothers

/-- An object with plain names has its tokens, whatever the white space. -/
theorem tokens_of_spaced_object (hnames : WellNamed (members.map Prod.fst))
    (hspaced : Spaced (objectLexemes members) text) :
    StandIn.tokens text.toList = objectTokens members := by
  refine Lexed.tokens_eq (.mark (c := '\x7b') rfl ?_) hspaced
  refine Lexed.intercalate (c := '\x7d') rfl .nil ?_
  intro member hmember c mark lexemes tokens hmark hrest
  have hplain := hnames.plain member.1 (List.mem_map_of_mem hmember)
  exact .name hplain (.mark (c := ':') rfl (.decimal member.2.toNat_lt_size hmark hrest))

/-- An array of numbers has its tokens, whatever the white space. -/
theorem tokens_of_spaced_array {values : List UInt64}
    (hspaced : Spaced (arrayLexemes values) text) :
    StandIn.tokens text.toList = arrayTokens values := by
  refine Lexed.tokens_eq (.mark (c := '[') rfl ?_) hspaced
  refine Lexed.intercalate (c := ']') rfl .nil ?_
  intro value hvalue c mark lexemes tokens hmark hrest
  exact .decimal value.toNat_lt_size hmark hrest

/-! ## Reading records -/

namespace Reader

variable {reader reader' : Reader} {token : Token} {phase : Phase}

/-- A token that is taken leads to the state after it. -/
theorem run_cons (hphase : reader.phase ≠ .done) (hstep : reader.step names token = .ok reader') :
    reader.run names (token :: tokens) = reader'.run names tokens := by
  rw [run, if_neg hphase, hstep]

/-- Nothing is taken after the record. -/
theorem run_done (known : Members) (tokens : List Token) :
    run names ⟨known, .done⟩ tokens = .ok (known, tokens) := by
  cases tokens <;> rw [run, if_pos rfl]

/-- The token of a number denotes it. -/
theorem number_natural (n : UInt64) : number (.natural n.toNat) = .ok n := by
  rw [Token.natural, number, UInt64.ofNat_toNat]

/-- The number of a field is added to what is known. -/
theorem takeNumber_natural (reader : Reader) (name : String) (n : UInt64) (next : Phase) :
    reader.takeNumber name (.natural n.toNat) next =
      .ok ⟨reader.known ++ [(name, n)], next⟩ := by
  rw [takeNumber, number_natural]

/-! ### Objects -/

/-- A member whose name is that of a field not yet known is taken as a whole. -/
theorem run_member (hphase : phase = .firstName ∨ phase = .name) (hname : member.1 ∈ names)
    (hnew : member.1 ∉ known.map Prod.fst) :
    run names ⟨known, phase⟩ (memberTokens member ++ rest) =
      run names ⟨known ++ [member], .separator⟩ rest := by
  have hknows : knows ⟨known, phase⟩ member.1 = false := by
    rw [knows, List.contains_eq_mem, decide_eq_false_iff_not]
    exact hnew
  have htaken : takeName names ⟨known, phase⟩ (.ok member.1.toList) =
      .ok ⟨known, .colon member.1⟩ := by
    simp only [takeName, String.ofList_toList, hknows, Bool.and_false]
    rfl
  have hstart : step names ⟨known, phase⟩ (.name member.1) = .ok ⟨known, .colon member.1⟩ := by
    rcases hphase with rfl | rfl <;> exact htaken
  have hvalue : step names ⟨known, .value member.1⟩ (.natural member.2.toNat) =
      .ok ⟨known ++ [member], .separator⟩ := by
    have hcontains : names.contains member.1 = true := by
      rwa [List.contains_eq_mem, decide_eq_true_eq]
    have htaken : takeValue names ⟨known, .value member.1⟩ member.1 (.natural member.2.toNat) =
        .ok ⟨known ++ [member], .separator⟩ := by
      rw [takeValue, if_pos hcontains, takeNumber_natural]
    exact htaken
  have hcolon : step names ⟨known, .colon member.1⟩ .colon = .ok ⟨known, .value member.1⟩ := rfl
  have hnotDone : phase ≠ .done := by rcases hphase with rfl | rfl <;> decide
  rw [memberTokens, List.cons_append, run_cons hnotDone hstart, List.cons_append,
    run_cons (by simp) hcolon, List.cons_append, run_cons (by simp) hvalue, List.nil_append]

/-- The members of an object are taken one after the other, the first of them in either of the
states in which a name may come. -/
theorem run_members (hphase : phase = .firstName ∨ phase = .name) (hmembers : members ≠ [])
    (hnames : ∀ name ∈ members.map Prod.fst, name ∈ names)
    (hdistinct : ((known ++ members).map Prod.fst).Nodup) :
    run names ⟨known, phase⟩ ([.comma].intercalate (members.map memberTokens) ++ rest) =
      run names ⟨known ++ members, .separator⟩ rest := by
  induction members generalizing known phase with
  | nil => exact absurd rfl hmembers
  | cons member members ih =>
      have hname : member.1 ∈ names := hnames _ List.mem_cons_self
      have hnew : member.1 ∉ known.map Prod.fst := by
        intro hmem
        rw [List.map_append, List.nodup_append] at hdistinct
        exact hdistinct.2.2 _ hmem _ List.mem_cons_self rfl
      cases members with
      | nil => exact run_member hphase hname hnew
      | cons next members =>
          have hrest := @ih (known ++ [member]) .name (.inr rfl) (List.cons_ne_nil _ _)
            (fun name hmem => hnames name (List.mem_cons_of_mem _ hmem)) (by simpa using hdistinct)
          have hcomma : step names ⟨known ++ [member], .separator⟩ .comma =
              .ok ⟨known ++ [member], .name⟩ := rfl
          rw [List.map_cons] at hrest
          rw [List.map_cons, List.map_cons, List.intercalate_cons_cons, List.append_assoc,
            List.append_assoc, run_member hphase hname hnew, List.singleton_append,
            run_cons (by simp) hcomma, hrest, List.append_assoc, List.singleton_append]

/-- An object may be closed once every field is known. -/
theorem run_endObject (hphase : phase = .firstName ∨ phase = .separator)
    (hknown : ∀ name ∈ names, name ∈ known.map Prod.fst) :
    run names ⟨known, phase⟩ [.endObject] = .ok (known, []) := by
  have hall : names.all (knows ⟨known, phase⟩) = true := by
    rw [List.all_eq_true]
    intro name hname
    rw [knows, List.contains_eq_mem, decide_eq_true_eq]
    exact hknown name hname
  have hclose : step names ⟨known, phase⟩ .endObject = .ok ⟨known, .done⟩ := by
    have hclosed : close names ⟨known, phase⟩ = .ok ⟨known, .done⟩ := if_pos hall
    rcases hphase with rfl | rfl <;> exact hclosed
  have hnotDone : phase ≠ .done := by rcases hphase with rfl | rfl <;> decide
  rw [run_cons hnotDone hclose, run_done]

/-- An object whose members are the fields, in any order, is read as it stands. -/
theorem run_object (hnames : (members.map Prod.fst).Perm names)
    (hdistinct : (members.map Prod.fst).Nodup) :
    start.run names (objectTokens members) = .ok (members, []) := by
  have hbegin : step names start .beginObject = .ok ⟨[], .firstName⟩ := rfl
  rw [objectTokens, run_cons (by decide) hbegin]
  cases members with
  | nil => exact run_endObject (.inl rfl) fun name hname => hnames.mem_iff.mpr hname
  | cons member members =>
      rw [run_members (.inl rfl) (List.cons_ne_nil _ _) (fun name => hnames.mem_iff.mp) hdistinct,
        List.nil_append]
      exact run_endObject (.inr rfl) fun name hname => hnames.mem_iff.mpr hname

/-! ### Arrays -/

/-- The items of an array are taken one after the other as the values of the fields that are not yet
known. -/
theorem run_items (hphase : phase = .firstItem ∨ phase = .item) (hmembers : members ≠ [])
    (hnames : names = (known ++ members).map Prod.fst) :
    run names ⟨known, phase⟩
        ([.comma].intercalate (members.map fun member => [.natural member.2.toNat]) ++ rest) =
      run names ⟨known ++ members, .endArray⟩ rest := by
  induction members generalizing known phase with
  | nil => exact absurd rfl hmembers
  | cons member members ih =>
      have hpending : names.drop known.length = (member :: members).map Prod.fst := by
        rw [hnames, List.map_append, List.drop_append_of_le_length (by simp), List.drop_eq_nil_of_le
          (by simp), List.nil_append]
      have hitem : step names ⟨known, phase⟩ (.natural member.2.toNat) =
          takeItem names ⟨known, phase⟩ (.natural member.2.toNat) := by
        rcases hphase with rfl | rfl <;> rfl
      have hnotDone : phase ≠ .done := by rcases hphase with rfl | rfl <;> decide
      cases members with
      | nil =>
          have hstep : step names ⟨known, phase⟩ (.natural member.2.toNat) =
              .ok ⟨known ++ [member], .endArray⟩ := by
            rw [hitem, takeItem, hpending]
            exact takeNumber_natural _ _ _ _
          rw [List.map_singleton, List.intercalate_singleton, List.singleton_append,
            run_cons hnotDone hstep]
      | cons next members =>
          have hstep : step names ⟨known, phase⟩ (.natural member.2.toNat) =
              .ok ⟨known ++ [member], .itemSeparator⟩ := by
            rw [hitem, takeItem, hpending]
            exact takeNumber_natural _ _ _ _
          have hcomma : step names ⟨known ++ [member], .itemSeparator⟩ .comma =
              .ok ⟨known ++ [member], .item⟩ := rfl
          have hrest := @ih (known ++ [member]) .item (.inr rfl) (List.cons_ne_nil _ _)
            (by simpa using hnames)
          rw [List.map_cons] at hrest
          rw [List.map_cons, List.map_cons, List.intercalate_cons_cons, List.append_assoc,
            List.append_assoc, List.singleton_append, run_cons hnotDone hstep,
            List.singleton_append, run_cons (by simp) hcomma, hrest, List.append_assoc,
            List.singleton_append]

/-- An array that has the values of the fields in their order is read as the record of these. -/
theorem run_array (members : Members) :
    start.run (members.map Prod.fst) (arrayTokens (members.map Prod.snd)) = .ok (members, []) := by
  cases members with
  | nil => rfl
  | cons member members =>
      have hbegin : step ((member :: members).map Prod.fst) start .beginArray =
          .ok ⟨[], .firstItem⟩ := rfl
      have hitems : run ((member :: members).map Prod.fst) ⟨[], .firstItem⟩
          ([.comma].intercalate ((member :: members).map fun member =>
            [.natural member.2.toNat]) ++ [.endArray]) =
          run ((member :: members).map Prod.fst) ⟨member :: members, .endArray⟩ [.endArray] :=
        run_items (.inl rfl) (List.cons_ne_nil _ _) rfl
      have hend : step ((member :: members).map Prod.fst) ⟨member :: members, .endArray⟩ .endArray =
          .ok ⟨member :: members, .done⟩ := rfl
      rw [arrayTokens, List.map_map, run_cons (by decide) hbegin]
      exact hitems.trans ((run_cons (by simp) hend).trans (run_done _ _))

end Reader

/-! ## Converting records -/

variable {ε α : Type} {convert : (String → UInt64) → Except ε α}

/-- A record that the tokens hold is converted. -/
theorem readTokens_of_run (hrun : Reader.start.run names tokens = .ok (members, [])) :
    readTokens names convert tokens = .ok (convert (valueOf members)) := by
  rw [readTokens, hrun]
  dsimp only
  cases convert (valueOf members) <;> rfl

/-- Whatever the tokens, what is answered is the outcome of the conversion. -/
theorem exists_convert_of_readTokens {outcome : Except ε α}
    (h : readTokens names convert tokens = .ok outcome) : ∃ values, convert values = outcome := by
  unfold readTokens at h
  split at h
  · cases h
  · rename_i members rest hrun
    refine ⟨valueOf members, ?_⟩
    split at h
    · cases h
    · exact Except.ok.inj h

/-- An object of the fields, in any order and with any white space, is read as the record of its
members. -/
theorem read_object (hnames : WellNamed (members.map Prod.fst))
    (hperm : (members.map Prod.fst).Perm names)
    (hspaced : Spaced (objectLexemes members) text) :
    standIn.read names convert text = .ok (convert (valueOf members)) := by
  have hrun := Reader.run_object hperm hnames.distinct
  rw [← tokens_of_spaced_object hnames hspaced] at hrun
  exact readTokens_of_run hrun

end StandIn

open StandIn

/-- **The stand-in is as the library is documented.** -/
theorem standIn_laws : @Library.Laws standIn where
  write_eq _ := rfl
  read_object hnames := StandIn.read_object hnames (.refl _) (spaced_objectText _)
  read_perm {ε α convert members others} hnames hperm := by
    have hothers : WellNamed (others.map Prod.fst) :=
      ⟨fun name hname => hnames.plain name ((hperm.map Prod.fst).mem_iff.mp hname),
        (hperm.map Prod.fst).nodup_iff.mpr hnames.distinct⟩
    rw [StandIn.read_object hothers (hperm.map Prod.fst) (spaced_objectText _),
      StandIn.read_object hnames (.refl _) (spaced_objectText _),
      valueOf_eq_of_perm hperm hnames.distinct]
  read_spaced {ε α names convert members text} hnames hspaced := by
    have htokens := tokens_of_spaced_object hnames hspaced
    have hplain := tokens_of_spaced_object hnames (spaced_objectText _)
    exact congrArg (readTokens names convert) (htokens.trans hplain.symm)
  read_array {ε α convert members text} hnames hspaced := by
    have hrun := Reader.run_array members
    rw [← tokens_of_spaced_array hspaced] at hrun
    rw [StandIn.read_object hnames (.refl _) (spaced_objectText _)]
    exact readTokens_of_run hrun
  read_converted hread := exists_convert_of_readTokens hread

end IntervalAutomata.Json
