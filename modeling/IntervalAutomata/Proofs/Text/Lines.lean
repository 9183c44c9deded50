import IntervalAutomata.Text.Line

/-!
# Where a text is cut

A row of characters that all have a property is told from what follows it, if that does not begin
with a character of the property (`Text.eq_of_append_eq`). So a text that is made of lines
determines them, as long as no line contains a line feed (`Text.join_lines_inj`,
`Text.IsLines.unique`, `Line.document_inj`).
-/

namespace IntervalAutomata

namespace Text

/-- What is joined of two rows, all of the first and not the beginning of the second having a
property, determines both. -/
theorem eq_of_append_eq {α : Type} {p : α → Prop} {xs ys rest rest' : List α}
    (hxs : ∀ x ∈ xs, p x) (hys : ∀ y ∈ ys, p y) (hrest : ∀ x ∈ rest.head?, ¬ p x)
    (hrest' : ∀ x ∈ rest'.head?, ¬ p x) (h : xs ++ rest = ys ++ rest') :
    xs = ys ∧ rest = rest' := by
  induction xs generalizing ys with
  | nil =>
      cases ys with
      | nil => exact ⟨rfl, h⟩
      | cons y ys =>
          rw [List.nil_append] at h
          rw [h] at hrest
          exact absurd (hys y List.mem_cons_self) (hrest y rfl)
  | cons x xs ih =>
      obtain ⟨hx, hxs⟩ := List.forall_mem_cons.mp hxs
      cases ys with
      | nil =>
          rw [List.nil_append] at h
          rw [← h] at hrest'
          exact absurd hx (hrest' x rfl)
      | cons y ys =>
          obtain ⟨hhead, htail⟩ := List.cons_eq_cons.mp h
          obtain ⟨htails, hrests⟩ := ih hxs (List.forall_mem_cons.mp hys).2 htail
          exact ⟨List.cons_eq_cons.mpr ⟨hhead, htails⟩, hrests⟩

/-- A text made of lines determines the lines. -/
theorem join_lines_inj {lines lines' : List String} (h : ∀ line ∈ lines, '\n' ∉ line.toList)
    (h' : ∀ line ∈ lines', '\n' ∉ line.toList)
    (heq : String.join (lines.map (· ++ "\n")) = String.join (lines'.map (· ++ "\n"))) :
    lines = lines' := by
  have hcons : ∀ (line : String) (rest : List String),
      (String.join ((line :: rest).map (· ++ "\n"))).toList =
        line.toList ++ '\n' :: (String.join (rest.map (· ++ "\n"))).toList := by
    intro line rest
    rw [List.map_cons, String.join_cons, String.toList_append, String.toList_append,
      List.append_assoc]
    rfl
  induction lines generalizing lines' with
  | nil =>
      cases lines' with
      | nil => rfl
      | cons line' lines' =>
          have hchars := congrArg String.toList heq
          rw [hcons, List.map_nil, String.join_nil] at hchars
          simp at hchars
  | cons line lines ih =>
      cases lines' with
      | nil =>
          have hchars := congrArg String.toList heq
          rw [hcons, List.map_nil, String.join_nil] at hchars
          simp at hchars
      | cons line' lines' =>
          obtain ⟨hline, hlines⟩ := List.forall_mem_cons.mp h
          obtain ⟨hline', hlines'⟩ := List.forall_mem_cons.mp h'
          have hchars := congrArg String.toList heq
          rw [hcons, hcons] at hchars
          obtain ⟨hfirst, hrest⟩ := eq_of_append_eq (p := (· ≠ '\n'))
            (fun c hc hfeed => hline (hfeed ▸ hc)) (fun c hc hfeed => hline' (hfeed ▸ hc))
            (by simp) (by simp) hchars
          obtain ⟨-, hrest⟩ := List.cons_eq_cons.mp hrest
          rw [String.toList_inj.mp hfirst, ih hlines hlines' (String.toList_inj.mp hrest)]

/-- A text is made of lines: each of them is ended by a line feed and contains no other. -/
structure IsLines (text : String) (lines : List String) : Prop where
  /-- Nothing but the line feeds stands between the lines. -/
  eq_join : text = String.join (lines.map (· ++ "\n"))
  /-- A line ends where its line feed stands. -/
  feed_not_mem : ∀ line ∈ lines, '\n' ∉ line.toList

/-- A text is made of lines in one way only. -/
theorem IsLines.unique {text : String} {lines lines' : List String} (h : IsLines text lines)
    (h' : IsLines text lines') : lines = lines' :=
  join_lines_inj h.feed_not_mem h'.feed_not_mem (h.eq_join.symm.trans h'.eq_join)

end Text

namespace Line

/-- A document is made of its lines, each of them ended by a line feed. -/
theorem document_eq_join (palette : Palette) (lines : List Line) :
    document palette lines =
      String.join (lines.map fun line => render palette line ++ "\n") := by
  induction lines with
  | nil => rfl
  | cons line lines ih => simp [document, ih]

/-- A document determines its lines as they are printed. -/
theorem document_inj {palette : Palette} {lines lines' : List Line}
    (h : ∀ line ∈ lines, '\n' ∉ (render palette line).toList)
    (h' : ∀ line ∈ lines', '\n' ∉ (render palette line).toList)
    (heq : document palette lines = document palette lines') :
    lines.map (render palette) = lines'.map (render palette) := by
  refine Text.join_lines_inj (List.forall_mem_map.mpr h) (List.forall_mem_map.mpr h') ?_
  rw [document_eq_join, document_eq_join] at heq
  rw [List.map_map, List.map_map]
  exact heq

end Line

end IntervalAutomata
