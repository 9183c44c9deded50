import IntervalAutomata.Proofs.Automaton.Numbering
import IntervalAutomata.Proofs.Compile.Rows
import IntervalAutomata.Proofs.Text.Printable
import Mathlib.Data.Set.Function

/-!
# What a graph in DOT tells

The DOT text of an automaton is its graph (`Automaton.draws_and_dotText_eq_iff`): it has a line for
each node and for each edge, as `DotStatement.Draws` says, and two automata have one text iff their
graphs are isomorphic, shared nodes included.

* **The text determines the statements** (`Automaton.dotStatements_eq_of_dotText_eq`), since no two
  statements are written alike.
* **The statements determine the graph** up to the names of its nodes
  (`Node.isomorphic_of_draws`): with numbers for identities, graphs that are drawn by the same
  statements are equal.
* **The statements do not depend on names** (`Node.dot_rename`): the walk compares identities with
  each other and reads nothing else from them.

Every compiled automaton is a graph in this sense (`Automaton.coherent_root`).
-/

namespace IntervalAutomata

/-! ## Statements and their texts -/

namespace DotStatement

/-- What follows the number of its subject, and a blank, in the text of a statement. -/
def tail : DotStatement → String
  | .node _ accepting => "[label=\"" ++ (if accepting then "Acc" else "") ++ "\"];"
  | .edge _ target range =>
    "-> node" ++ Numeral.decimal target ++ " [label=\"" ++ range.text ++ "\"];"

/-- A statement begins with the number of the node that it is about. -/
theorem toList_text (statement : DotStatement) :
    statement.text.toList =
      "  node".toList ++ (Nat.toDigits 10 statement.subject ++ ' ' :: statement.tail.toList) := by
  cases statement with
  | node number accepting => simp [text, tail, Numeral.decimal]
  | edge source target range => simp [text, tail, Numeral.decimal]

/-- After its source, the statement of an edge has the number of the target and the label. -/
theorem toList_tail_edge (source target : Nat) (range : ByteRange) :
    (edge source target range).tail.toList =
      "-> node".toList ++ (Nat.toDigits 10 target ++ ' ' :: ("[label=\"".toList ++
        (range.text.toList ++ "\"];".toList))) := by
  simp [tail, Numeral.decimal]

/-- A number ends where a blank stands. -/
theorem toDigits_blank_inj {m n : Nat} {rest rest' : List Char}
    (h : Nat.toDigits 10 m ++ ' ' :: rest = Nat.toDigits 10 n ++ ' ' :: rest') :
    m = n ∧ rest = rest' := by
  obtain ⟨hnumber, hrest⟩ :=
    Numeral.toDigits_cons_inj (by decide) (by decide) (by decide) (by decide) h
  exact ⟨hnumber, (List.cons_eq_cons.mp hrest).2⟩

/-- **No two statements are written alike.** -/
theorem text_injective {a b : DotStatement} (h : a.text = b.text) : a = b := by
  have hchars := congrArg String.toList h
  rw [toList_text, toList_text] at hchars
  obtain ⟨hsubject, htail⟩ := toDigits_blank_inj (List.append_cancel_left hchars)
  cases a with
  | node number accepting =>
      cases b with
      | node number' accepting' =>
          obtain rfl : number = number' := hsubject
          cases accepting <;> cases accepting' <;> simp [tail] at htail ⊢
      | edge source target range => simp [tail] at htail
  | edge source target range =>
      cases b with
      | node number accepting => simp [tail] at htail
      | edge source' target' range' =>
          rw [toList_tail_edge, toList_tail_edge] at htail
          obtain ⟨htarget, hlabel⟩ := toDigits_blank_inj (List.append_cancel_left htail)
          have hrange := ByteRange.text_inj
            (List.append_cancel_right (List.append_cancel_left hlabel))
          obtain rfl : source = source' := hsubject
          rw [htarget, hrange]

/-- A statement is one line. -/
theorem printable_text (statement : DotStatement) : Text.Printable statement.text := by
  cases statement with
  | node number accepting => cases accepting <;> simp +decide [text]
  | edge source target range => simp +decide [text]

end DotStatement

namespace Automaton

/-- The text determines the statements. -/
theorem dotStatements_eq_of_dotText_eq {a b : Automaton} (h : a.dotText = b.dotText) :
    a.dotStatements = b.dotStatements := by
  have hfeed : ∀ automaton : Automaton, ∀ line ∈ automaton.dotLines, '\n' ∉ line.toList := by
    intro automaton line hline
    rcases List.mem_cons.mp hline with rfl | hline
    · decide
    · rcases List.mem_append.mp hline with hline | hline
      · obtain ⟨statement, -, rfl⟩ := List.mem_map.mp hline
        exact statement.printable_text.feed_not_mem
      · obtain rfl := List.mem_singleton.mp hline
        decide
  have hlines : a.dotLines = b.dotLines := Text.join_lines_inj (hfeed a) (hfeed b) h
  obtain ⟨-, hbody⟩ := List.cons_eq_cons.mp hlines
  exact (List.map_inj_right fun _ _ => DotStatement.text_injective).mp
    (List.append_cancel_right hbody)

end Automaton

/-! ## Graphs and their statements -/

namespace Node

/-- The second graph is the first one under other names: different nodes have different names in
both, and acceptance, ranges, order and targets of the edges are the same. -/
def Isomorphic (a b : Node) : Prop :=
  ∃ f : Nat → Nat, (∀ i ∈ a.ids, ∀ j ∈ a.ids, f i = f j → i = j) ∧ a.rename f = b

variable {a b : Node} {number number' : Nat → Nat} {statements : List DotStatement}

/-- Nodes of a graph that is drawn are told apart by their numbers. -/
theorem eq_of_number_eq (h : DotStatement.Draws a number statements) {i j : Nat}
    (hi : i ∈ a.ids) (hj : j ∈ a.ids) (hnumber : number i = number j) : i = j := by
  obtain ⟨m, hm, rfl⟩ := exists_reaches_of_mem_ids hi
  obtain ⟨n, hn, rfl⟩ := exists_reaches_of_mem_ids hj
  rw [h.inj m n hm hn hnumber]

/-- Edges that are stated alike are equal under their numbers, if their children are. -/
theorem map_rename_eq_of_edgeStatements_eq {es fs : List (Edge Node)} {source : Nat}
    (h : edgeStatements number source es = edgeStatements number' source fs)
    (hchild : ∀ e ∈ es, ∀ f ∈ fs, number e.child.id = number' f.child.id →
      e.child.rename number = f.child.rename number') :
    es.map (Edge.rename number) = fs.map (Edge.rename number') := by
  induction es generalizing fs with
  | nil =>
      cases fs with
      | nil => rfl
      | cons f fs => cases h
  | cons e es ih =>
      cases fs with
      | nil => cases h
      | cons f fs =>
          obtain ⟨hhead, htail⟩ := List.cons_eq_cons.mp h
          rw [DotStatement.edge.injEq] at hhead
          obtain ⟨-, htarget, hrange⟩ := hhead
          have hfirst := hchild e List.mem_cons_self f List.mem_cons_self htarget
          have hrest := ih htail fun e he f hf =>
            hchild e (List.mem_cons_of_mem _ he) f (List.mem_cons_of_mem _ hf)
          rw [List.map_cons, List.map_cons, hrest, Edge.rename, Edge.rename, hfirst, hrange]

/-- Under the numbers of one drawing, nodes with the same number are equal. -/
theorem rename_eq_of_draws (ha : DotStatement.Draws a number statements)
    (hb : DotStatement.Draws b number' statements) {m n : Node} (hm : a.Reaches m)
    (hn : b.Reaches n) (hnumber : number m.id = number' n.id) :
    m.rename number = n.rename number' := by
  induction m using Node.induct generalizing n with
  | step i accepting es ih =>
      cases n with
      | mk j accepting' fs =>
          have hm' := ha.stated _ hm
          have hn' := hb.stated _ hn
          rw [← hnumber, hm'] at hn'
          obtain ⟨hnode, hedges⟩ := List.cons_eq_cons.mp hn'
          rw [id_mk, id_mk] at hnumber
          rw [DotStatement.node.injEq] at hnode
          simp only [id_mk, accepting_mk, edges_mk, ← hnumber] at hnode hedges
          have hchildren := map_rename_eq_of_edgeStatements_eq hedges
            fun e he f hf htarget => ih e he (hm.child he) (hn.child hf) htarget
          rw [rename_mk, rename_mk, hchildren, hnode.2, hnumber]

/-- **The statements determine the graph** up to the names of its nodes. -/
theorem isomorphic_of_draws (ha : DotStatement.Draws a number statements)
    (hb : DotStatement.Draws b number' statements) : a.Isomorphic b := by
  have hroot : a.rename number = b.rename number' :=
    rename_eq_of_draws ha hb (.refl a) (.refl b) (by rw [ha.root_eq, hb.root_eq])
  have hids : a.ids.map number = b.ids.map number' := by
    rw [← ids_rename, ← ids_rename, hroot]
  have hinj : Set.InjOn number' {i | i ∈ b.ids} := fun i hi j hj => eq_of_number_eq hb hi hj
  -- Each number leads back to the node of the second graph that has it.
  let back := Function.invFunOn number' {i | i ∈ b.ids}
  have hback : ∀ i ∈ b.ids, back (number' i) = i := fun i hi => hinj.leftInvOn_invFunOn hi
  have hsame : ∀ i ∈ a.ids, ∃ j ∈ b.ids, number' j = number i := by
    intro i hi
    have hmem : number i ∈ b.ids.map number' := hids ▸ List.mem_map_of_mem hi
    exact List.mem_map.mp hmem
  refine ⟨back ∘ number, ?_, ?_⟩
  · intro i hi j hj heq
    obtain ⟨i', hi', hnumberI⟩ := hsame i hi
    obtain ⟨j', hj', hnumberJ⟩ := hsame j hj
    rw [Function.comp_apply, Function.comp_apply, ← hnumberI, ← hnumberJ, hback i' hi',
      hback j' hj'] at heq
    exact eq_of_number_eq ha hi hj (by rw [← hnumberI, ← hnumberJ, heq])
  · rw [← rename_rename, hroot, rename_rename]
    exact (rename_congr hback).trans b.rename_self

end Node

/-! ## The walk under other names -/

/-- The numbers given to nodes with other names. -/
def Numbering.rename (f : Nat → Nat) (numbering : Numbering) : Numbering :=
  numbering.map fun entry => (f entry.1, entry.2)

/-- A part of a graph whose nodes have other names. -/
def DotPart.rename (f : Nat → Nat) (part : DotPart) : DotPart :=
  ⟨part.statements, part.numbering.rename f⟩

namespace Node

section rename

variable {f : Nat → Nat} {names : List Nat}

/-- A renaming that keeps identities apart keeps the number of each. -/
theorem lookup_rename (hinj : ∀ i ∈ names, ∀ j ∈ names, f i = f j → i = j) {i : Nat}
    (hi : i ∈ names) {N : Numbering} (hN : N.map Prod.fst ⊆ names) :
    List.lookup (f i) (N.rename f) = List.lookup i N := by
  induction N with
  | nil => rfl
  | cons entry N ih =>
      obtain ⟨j, k⟩ := entry
      rw [List.map_cons] at hN
      obtain ⟨hj, hN⟩ := List.cons_subset.mp hN
      have hbeq : (f i == f j) = (i == j) := by
        rw [Bool.eq_iff_iff, beq_iff_eq, beq_iff_eq]
        exact ⟨hinj i hi j hj, congrArg f⟩
      rw [Numbering.rename, List.map_cons, List.lookup_cons, List.lookup_cons, hbeq]
      cases i == j with
      | true => rfl
      | false => exact ih hN

mutual

/-- The walk reads from names only which of them are equal. -/
theorem dot_rename (hinj : ∀ i ∈ names, ∀ j ∈ names, f i = f j → i = j) :
    (node : Node) → ∀ N : Numbering, node.ids ⊆ names → N.map Prod.fst ⊆ names →
    (node.rename f).dot (N.rename f) = ((node.dot N).1, (node.dot N).2.rename f)
  | mk i a es, N, hnode, hN => by
      rw [ids_mk] at hnode
      obtain ⟨hi, hes⟩ := List.cons_subset.mp hnode
      have hlookup := lookup_rename hinj hi hN
      rw [rename]
      cases h : N.lookup i with
      | some k =>
          rw [dot_of_some h, dot_of_some (hlookup.trans h)]
          rfl
      | none =>
          have hlength : (N.rename f).length = N.length := List.length_map _
          have hbelow := dotBelow_rename hinj N.length es ((i, N.length) :: N) hes
            (List.cons_subset.mpr ⟨hi, hN⟩)
          rw [Numbering.rename, List.map_cons] at hbelow
          rw [dot_of_none h, dot_of_none (hlookup.trans h), hlength, Numbering.rename, hbelow]
          rfl

/-- What is drawn below edges is renamed with the edges and the numbering. -/
theorem dotBelow_rename (hinj : ∀ i ∈ names, ∀ j ∈ names, f i = f j → i = j) (source : Nat) :
    (edges : List (Edge Node)) → ∀ N : Numbering, idsBelow edges ⊆ names →
    N.map Prod.fst ⊆ names →
    dotBelow source (renameEdges f edges) (N.rename f) = (dotBelow source edges N).rename f
  | [], _, _, _ => rfl
  | edge :: edges, N, hedges, hN => by
      rw [idsBelow_cons] at hedges
      obtain ⟨hchild, hedges⟩ := List.append_subset.mp hedges
      have hnumbered : (edge.child.dot N).2.numbering.map Prod.fst ⊆ names := by
        intro i hi
        rw [map_fst_dot] at hi
        rcases mem_of_mem_visit edge.child _ hi with hseen | hids
        · exact hN hseen
        · exact hchild hids
      have hrest := dotBelow_rename hinj source edges _ hedges hnumbered
      rw [renameEdges, dotBelow, dotBelow, dot_rename hinj edge.child N hchild hN]
      simp only [DotPart.rename] at hrest ⊢
      rw [hrest]

end

end rename

/-- Isomorphic graphs have the same statements. -/
theorem Isomorphic.statements_eq {a b : Node} (h : a.Isomorphic b) :
    (a.dot []).2.statements = (b.dot []).2.statements := by
  obtain ⟨f, hinj, rfl⟩ := h
  have hdot := dot_rename hinj a [] (List.Subset.refl _) (List.nil_subset _)
  exact (congrArg (fun drawn => drawn.2.statements) hdot).symm

end Node

namespace Automaton

/-- **The DOT text of an automaton is its graph.** It has a line for each node, in the order of
their numbers, and for each edge of each node; there are as many nodes as the loop over pending
nodes counts. Two automata have one text iff their graphs are isomorphic. -/
theorem draws_and_dotText_eq_iff {a b : Automaton} (ha : a.root.Coherent)
    (hb : b.root.Coherent) :
    (∃ number, DotStatement.Draws a.root number a.dotStatements) ∧
      (Node.passPending [a.root] []).length = a.nodeCount ∧
      (a.dotText = b.dotText ↔ a.root.Isomorphic b.root) := by
  refine ⟨⟨_, ha.draws⟩, ha.length_passPending, ?_, ?_⟩
  · intro h
    have hstatements : (a.root.dot []).2.statements = (b.root.dot []).2.statements :=
      dotStatements_eq_of_dotText_eq h
    exact Node.isomorphic_of_draws ha.draws (hstatements ▸ hb.draws)
  · intro h
    have hstatements : a.dotStatements = b.dotStatements := h.statements_eq
    rw [dotText, dotText, dotLines, dotLines, hstatements]

/-- With shared nodes and without, an interval has two graphs, which are told apart. -/
theorem draws_and_dotText_eq_iff_shared :
    ∃ a b : Automaton,
      a = compile ⟨.minimal, true⟩ ⟨1, 0xffffff, by decide, by decide⟩ ∧ a.root.Coherent ∧
      b = compile ⟨.minimal, false⟩ ⟨1, 0xffffff, by decide, by decide⟩ ∧ b.root.Coherent ∧
      (∃ number, DotStatement.Draws a.root number a.dotStatements) ∧
      (Node.passPending [a.root] []).length = 7 ∧
      a.dotText ≠ b.dotText ∧ ¬ a.root.Isomorphic b.root := by
  have ha := coherent_root ⟨.minimal, true⟩ ⟨1, 0xffffff, by decide, by decide⟩
  have hb := coherent_root ⟨.minimal, false⟩ ⟨1, 0xffffff, by decide, by decide⟩
  obtain ⟨hdraws, hcount, hiff⟩ := draws_and_dotText_eq_iff ha hb
  have hne : (compile ⟨.minimal, true⟩ ⟨1, 0xffffff, by decide, by decide⟩).dotText ≠
      (compile ⟨.minimal, false⟩ ⟨1, 0xffffff, by decide, by decide⟩).dotText := by
    intro htext
    have hlength := congrArg List.length (dotStatements_eq_of_dotText_eq htext)
    exact absurd hlength (by decide)
  exact ⟨_, _, rfl, ha, rfl, hb, hdraws, hcount.trans (by decide), hne, fun h => hne (hiff.mpr h)⟩

/-- The graph of the numbers of one byte. -/
example : (compile ⟨.minimal, false⟩ ⟨0, 0xff, by decide, by decide⟩).dotLines =
    ["digraph automaton \x7b", "  node0 [label=\"\"];", "  node1 [label=\"Acc\"];",
      "  node0 -> node1 [label=\"00..ff\"];", "\x7d"] := by
  decide

end Automaton

end IntervalAutomata
