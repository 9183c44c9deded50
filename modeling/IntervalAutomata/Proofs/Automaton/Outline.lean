import IntervalAutomata.Proofs.Node.Renaming
import IntervalAutomata.Proofs.Text.Printable

/-!
# What an outline tells

An outline tells everything about an automaton but its width, its sharing and the root's accept flag
(`Automaton.outlineText_eq_iff`). The text is read back in three steps:

* **The lines.** All lines are printable and so contain no line feed, and the text determines its
  lines.
* **One line** determines its entry, that is the depth of the edge, its range, and whether its child
  accepts, with colours or without (`OutlineEntry.render_line_inj`). A margin ends where something
  else than a blank stands, and a range where its digits and points end.
* **The entries** determine the tree (`Node.entries_append_inj`). Below an edge stands all that is
  set in deeper than the edge. So the entries below a node end where the next entry is set in less,
  whatever follows there.
-/

namespace IntervalAutomata

/-! ## Entries -/

/-- What a line of an outline says of an edge. -/
structure OutlineEntry where
  /-- How deep the edge is set in. -/
  depth : Nat
  /-- The range of the edge. -/
  range : ByteRange
  /-- Whether the child accepts. -/
  accepting : Bool

/-- The line of an entry. -/
def OutlineEntry.line (entry : OutlineEntry) : Line :=
  Line.atDepth entry.depth
    (.painted .blue entry.range.text ::
      if entry.accepting then [.plain " ", Line.acceptMark] else [])

namespace Node

mutual

/-- The entries of all edges at and below a node whose edges are set in by `depth`. -/
def entries : Node → Nat → List OutlineEntry
  | mk _ _ edges, depth => entriesOf edges depth

/-- The entries of some edges and of all below them. -/
def entriesOf : List (Edge Node) → Nat → List OutlineEntry
  | [], _ => []
  | edge :: edges, depth =>
    ⟨depth, edge.range, edge.child.accepting⟩ ::
      (edge.child.entries (depth + 1) ++ entriesOf edges depth)

end

mutual

/-- The lines of an outline are those of its entries. -/
theorem outline_eq_map : (node : Node) → ∀ depth,
    node.outline depth = (node.entries depth).map OutlineEntry.line
  | mk i a es, depth => by
      rw [outline, entries]
      exact outlineOf_eq_map es depth

/-- The lines of an outline below edges are those of its entries. -/
theorem outlineOf_eq_map : (edges : List (Edge Node)) → ∀ depth,
    outlineOf edges depth = (entriesOf edges depth).map OutlineEntry.line
  | [], _ => rfl
  | edge :: edges, depth => by
      rw [outlineOf, entriesOf, List.map_cons, List.map_append, outline_eq_map edge.child,
        outlineOf_eq_map edges]
      rfl

end

/-- The entries of a node are those of its edges. -/
theorem entries_eq_entriesOf (node : Node) (depth : Nat) :
    node.entries depth = entriesOf node.edges depth := by
  cases node
  rw [entries, edges_mk]

/-! ## From entries to the tree -/

/-- Entries that follow those of some edges at a depth: they do not begin as deep. -/
def LeavesDepth (depth : Nat) (rest : List OutlineEntry) : Prop :=
  ∀ entry ∈ rest.head?, entry.depth < depth

/-- Where no entry follows, every depth is left. -/
theorem leavesDepth_nil (depth : Nat) : LeavesDepth depth [] := by
  intro entry hentry
  cases hentry

/-- What follows the entries below an edge is set in as the edge, or less. -/
theorem LeavesDepth.entriesOf_append {depth : Nat} {rest : List OutlineEntry}
    (h : LeavesDepth depth rest) (edges : List (Edge Node)) :
    LeavesDepth (depth + 1) (entriesOf edges depth ++ rest) := by
  intro entry hentry
  cases edges with
  | nil =>
      rw [entriesOf, List.nil_append] at hentry
      exact Nat.lt_succ_of_lt (h entry hentry)
  | cons edge edges =>
      rw [entriesOf] at hentry
      obtain rfl := Option.some.inj hentry
      exact Nat.lt_succ_self depth

/-- Nodes unfold to one tree iff they accept alike and have the same trees below their edges. -/
theorem unfolded_eq_iff {a b : Node} :
    a.unfolded = b.unfolded ↔
      a.accepting = b.accepting ∧ a.unfolded.edges = b.unfolded.edges := by
  cases a
  cases b
  simp only [unfolded, rename_mk, accepting_mk, edges_mk, mk.injEq, true_and]

/-- Rows of edges with the same entries have the same ranges and trees, if that holds of the
children of the first. -/
theorem entriesOf_append_inj {es fs : List (Edge Node)} {depth : Nat}
    {rest rest' : List OutlineEntry}
    (hchild : ∀ e ∈ es, ∀ (other : Node) (rest rest' : List OutlineEntry),
      LeavesDepth (depth + 1) rest → LeavesDepth (depth + 1) rest' →
      e.child.entries (depth + 1) ++ rest = other.entries (depth + 1) ++ rest' →
      e.child.unfolded.edges = other.unfolded.edges ∧ rest = rest')
    (hrest : LeavesDepth depth rest) (hrest' : LeavesDepth depth rest')
    (h : entriesOf es depth ++ rest = entriesOf fs depth ++ rest') :
    es.map (Edge.rename fun _ => 0) = fs.map (Edge.rename fun _ => 0) ∧ rest = rest' := by
  induction es generalizing fs with
  | nil =>
      cases fs with
      | nil => exact ⟨rfl, h⟩
      | cons f fs =>
          rw [entriesOf, entriesOf, List.nil_append] at h
          rw [h] at hrest
          exact absurd (hrest _ rfl) (Nat.lt_irrefl depth)
  | cons e es ih =>
      cases fs with
      | nil =>
          rw [entriesOf, entriesOf, List.nil_append] at h
          rw [← h] at hrest'
          exact absurd (hrest' _ rfl) (Nat.lt_irrefl depth)
      | cons f fs =>
          obtain ⟨he, hes⟩ := List.forall_mem_cons.mp hchild
          rw [entriesOf, entriesOf, List.cons_append, List.cons_append, List.append_assoc,
            List.append_assoc] at h
          obtain ⟨hentry, hbelow⟩ := List.cons_eq_cons.mp h
          rw [OutlineEntry.mk.injEq] at hentry
          obtain ⟨-, hrange, haccepting⟩ := hentry
          obtain ⟨hedges, hnext⟩ := he f.child _ _ (hrest.entriesOf_append es)
            (hrest'.entriesOf_append fs) hbelow
          obtain ⟨hrow, hlast⟩ := ih hes hnext
          have htree : e.child.unfolded = f.child.unfolded :=
            unfolded_eq_iff.mpr ⟨haccepting, hedges⟩
          refine ⟨?_, hlast⟩
          rw [List.map_cons, List.map_cons, hrow, Edge.rename, Edge.rename, hrange]
          exact congrArg (fun child => Edge.mk f.range child :: _) htree

/-- **The entries of a node determine what lies below it**, and are told from what follows. -/
theorem entries_append_inj {a b : Node} {depth : Nat} {rest rest' : List OutlineEntry}
    (hrest : LeavesDepth depth rest) (hrest' : LeavesDepth depth rest')
    (h : a.entries depth ++ rest = b.entries depth ++ rest') :
    a.unfolded.edges = b.unfolded.edges ∧ rest = rest' := by
  induction a using Node.induct generalizing b depth rest rest' with
  | step i accepting es ih =>
      rw [entries_eq_entriesOf, entries_eq_entriesOf, edges_mk] at h
      rw [unfolded, unfolded, edges_rename, edges_rename, edges_mk]
      refine entriesOf_append_inj ?_ hrest hrest' h
      intro e he other rest rest' hrest hrest' h
      exact ih e he hrest hrest' h

/-- Nodes with one tree below them have one outline. -/
theorem outline_eq_of_unfolded_edges_eq {a b : Node}
    (h : a.unfolded.edges = b.unfolded.edges) (depth : Nat) :
    a.outline depth = b.outline depth := by
  have hnode : ∀ node : Node, node.outline depth = outlineOf node.unfolded.edges depth := by
    intro node
    cases node
    rw [outline, unfolded, edges_rename, edges_mk, ← renameEdges_eq_map, outlineOf_rename]
  rw [hnode, hnode, h]

end Node

/-! ## From lines to entries -/

namespace OutlineEntry

/-- The margin is two blanks for each level. -/
theorem toList_margin (depth : Nat) :
    (Line.margin depth).toList = List.replicate (2 * depth) ' ' := by
  induction depth with
  | zero => rfl
  | succ depth ih =>
      rw [Line.margin, String.toList_append, ih, Nat.mul_succ, Nat.add_comm,
        ← List.replicate_append_replicate]
      rfl

/-- The end of an entry's line, after the text of the range. -/
def tail (palette : Palette) (accepting : Bool) : List Char :=
  palette.reset.toList ++
    if accepting then ' ' :: (palette.green.toList ++ 'A' :: 'c' :: 'c' :: palette.reset.toList)
    else []

/-- The line of an entry is its margin, its range in blue and the mark of acceptance. -/
theorem toList_render_line (palette : Palette) (entry : OutlineEntry) :
    (entry.line.render palette).toList = List.replicate (2 * entry.depth) ' ' ++
      (palette.blue.toList ++ (entry.range.text.toList ++ tail palette entry.accepting)) := by
  obtain ⟨depth, range, accepting⟩ := entry
  cases accepting <;>
    simp [line, Line.atDepth, Line.acceptMark, Span.render, Palette.paint, Palette.code, tail,
      toList_margin]

/-- Neither a colour nor a range begins with a blank. -/
theorem ne_blank_of_mem_head? (coloured : Bool) (range : ByteRange) (rest : List Char) :
    ∀ c ∈ ((Palette.ofChoice coloured).blue.toList ++ (range.text.toList ++ rest)).head?,
      c ≠ ' ' := by
  intro c hc
  cases coloured with
  | true =>
      obtain rfl := Option.some.inj hc
      decide
  | false =>
      obtain ⟨first, others, htext⟩ := List.exists_cons_of_ne_nil range.toList_text_ne_nil
      have hfirst : ByteRange.IsTextChar first := by
        apply ByteRange.isTextChar_of_mem_text (a := range)
        rw [htext]
        exact List.mem_cons_self
      rw [htext] at hc
      obtain rfl := Option.some.inj hc
      rintro rfl
      exact absurd hfirst (by decide)

/-- Nothing that a range is made of follows it. -/
theorem not_isTextChar_of_mem_head? (coloured accepting : Bool) :
    ∀ c ∈ (tail (.ofChoice coloured) accepting).head?, ¬ ByteRange.IsTextChar c := by
  intro c hc
  cases coloured <;> cases accepting
  · cases hc
  all_goals
    obtain rfl := Option.some.inj hc
    decide

/-- **A line determines its entry**, with colours or without. -/
theorem render_line_inj {coloured : Bool} {a b : OutlineEntry}
    (h : a.line.render (.ofChoice coloured) = b.line.render (.ofChoice coloured)) : a = b := by
  have hchars := congrArg String.toList h
  rw [toList_render_line, toList_render_line] at hchars
  obtain ⟨hmargin, hbody⟩ := Text.eq_of_append_eq (p := (· = ' '))
    (fun c => List.eq_of_mem_replicate) (fun c => List.eq_of_mem_replicate)
    (ne_blank_of_mem_head? coloured a.range _) (ne_blank_of_mem_head? coloured b.range _) hchars
  obtain ⟨hrange, htail⟩ := Text.eq_of_append_eq (fun c => ByteRange.isTextChar_of_mem_text)
    (fun c => ByteRange.isTextChar_of_mem_text) (not_isTextChar_of_mem_head? coloured a.accepting)
    (not_isTextChar_of_mem_head? coloured b.accepting) (List.append_cancel_left hbody)
  have hlength := congrArg List.length hmargin
  rw [List.length_replicate, List.length_replicate] at hlength
  have hdepth : a.depth = b.depth := by omega
  have haccepting : a.accepting = b.accepting := by
    have hlength := congrArg List.length htail
    cases ha : a.accepting <;> cases hb : b.accepting <;> simp [tail, ha, hb] at hlength ⊢
  obtain ⟨depth, range, accepting⟩ := a
  obtain ⟨depth', range', accepting'⟩ := b
  rw [mk.injEq]
  exact ⟨hdepth, ByteRange.text_inj hrange, haccepting⟩

/-- The line of an entry is printable. -/
theorem printable_line (entry : OutlineEntry) : entry.line.Printable := by
  obtain ⟨depth, range, accepting⟩ := entry
  cases accepting <;> simp +decide [line]

end OutlineEntry

/-! ## The whole text -/

namespace Automaton

/-- The heading has the bounds and the name of the encoding between two codes. -/
theorem toList_render_heading (automaton : Automaton) (palette : Palette) :
    (automaton.heading.render palette).toList = palette.dim.toList ++
      ((Interval.boundsText automaton.interval.low automaton.interval.high).toList ++
        ' ' :: (automaton.encoding.name.toList ++ palette.reset.toList)) := by
  simp [render_heading, Interval.text]

/-- A heading determines the interval and the encoding. -/
theorem heading_inj {a b : Automaton} {palette : Palette}
    (h : a.heading.render palette = b.heading.render palette) :
    a.interval = b.interval ∧ a.encoding = b.encoding := by
  have hchars := congrArg String.toList h
  rw [toList_render_heading, toList_render_heading] at hchars
  obtain ⟨hlow, hhigh, hrest⟩ :=
    Interval.boundsText_append_inj (List.append_cancel_left hchars)
  obtain ⟨-, hname⟩ := List.cons_eq_cons.mp hrest
  have hname := List.append_cancel_right hname
  refine ⟨Interval.ext hlow hhigh, ?_⟩
  cases ha : a.encoding <;> cases hb : b.encoding <;> simp [ha, hb, Encoding.name] at hname ⊢

/-- The lines of an outline, as entries after the first two. -/
theorem outline_eq (automaton : Automaton) :
    automaton.outline =
      automaton.heading :: [.plain "root"] ::
        (automaton.root.entries 1).map OutlineEntry.line := by
  rw [outline, Node.outline_eq_map]

/-- An outline shows nothing but printable lines. -/
theorem printable_outline (automaton : Automaton) : ∀ line ∈ automaton.outline, line.Printable := by
  rw [outline_eq, List.forall_mem_cons, List.forall_mem_cons, List.forall_mem_map]
  refine ⟨?_, ?_, fun entry _ => entry.printable_line⟩
  · simp +decide [heading, Interval.text]
  · simp +decide

/-- **What an outline tells.** With colours or without, two automata have one outline iff they have
the same interval, the same encoding, and the same tree below the root: the same edges in the same
order with the same ranges, and the same accept flags at all nodes but the root. -/
theorem outlineText_eq_iff (a b : Automaton) (coloured : Bool) :
    a.outlineText (.ofChoice coloured) = b.outlineText (.ofChoice coloured) ↔
      a.interval = b.interval ∧ a.encoding = b.encoding ∧
        a.root.unfolded.edges = b.root.unfolded.edges := by
  constructor
  · intro h
    have hfeed : ∀ automaton : Automaton, ∀ line ∈ automaton.outline,
        '\n' ∉ (line.render (.ofChoice coloured)).toList := fun automaton line hline =>
      Line.feed_not_mem_render (automaton.printable_outline line hline) coloured
    have hlines := Line.document_inj (hfeed a) (hfeed b) h
    rw [outline_eq, outline_eq, List.map_cons, List.map_cons, List.map_cons, List.map_cons,
      List.map_map, List.map_map] at hlines
    obtain ⟨hheading, hlines⟩ := List.cons_eq_cons.mp hlines
    obtain ⟨-, hlines⟩ := List.cons_eq_cons.mp hlines
    obtain ⟨hinterval, hencoding⟩ := heading_inj hheading
    have hentries : a.root.entries 1 = b.root.entries 1 :=
      (List.map_inj_right fun _ _ => OutlineEntry.render_line_inj).mp hlines
    refine ⟨hinterval, hencoding, ?_⟩
    exact (Node.entries_append_inj (Node.leavesDepth_nil 1) (Node.leavesDepth_nil 1)
      (congrArg (· ++ []) hentries)).1
  · rintro ⟨hinterval, hencoding, hedges⟩
    rw [outlineText, outlineText, outline, outline, heading, heading, hinterval, hencoding,
      Node.outline_eq_of_unfolded_edges_eq hedges]

end Automaton

end IntervalAutomata
