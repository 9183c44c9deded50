import IntervalAutomata.Node.Basic

/-!
# Nodes whose edges are apart

The edges of a node are apart if no byte is on two of them, in whatever order they stand; they
ascend if each lies wholly below all later ones, and then they are apart (`Ascending.apart`). The
first edge that contains a byte is then the only one (`Apart.find?_eq_some_iff`), and whether a node
accepts a sequence can be said without an order of search: some edge contains the first byte and
leads to a node that accepts the others (`accepts_cons_iff_of_apart`).
-/

namespace IntervalAutomata

namespace Node

/-- Every edge lies wholly below all later ones. -/
def Ascending (edges : List (Edge Node)) : Prop :=
  edges.Pairwise fun first second => first.range.high < second.range.low

/-- No byte is on two edges. -/
def Apart (edges : List (Edge Node)) : Prop :=
  edges.Pairwise fun first second => ∀ byte : UInt8, byte ∈ first.range → byte ∉ second.range

/-! ## One row of edges -/

/-- Ascending edges are disjoint. -/
theorem Ascending.apart {edges : List (Edge Node)} (h : Ascending edges) : Apart edges := by
  refine List.Pairwise.imp ?_ h
  intro first second hlt byte hfirst hsecond
  rw [ByteRange.mem_iff] at hfirst hsecond
  omega

/-- Whether edges are apart is seen from their ranges. -/
theorem apart_iff_pairwise_map {edges : List (Edge Node)} :
    Apart edges ↔ (edges.map Edge.range).Pairwise fun first second =>
      ∀ byte : UInt8, byte ∈ first → byte ∉ second := by
  rw [Apart, List.pairwise_map]

/-- Among edges that are apart, the first with a byte is the one with it. -/
theorem Apart.find?_eq_some_iff {edges : List (Edge Node)} (h : Apart edges) {byte : UInt8}
    {edge : Edge Node} :
    edges.find? (·.range.contains byte) = some edge ↔ edge ∈ edges ∧ byte ∈ edge.range := by
  induction edges with
  | nil => simp
  | cons first edges ih =>
      obtain ⟨hfirst, hrest⟩ := List.pairwise_cons.mp h
      by_cases hbyte : byte ∈ first.range
      · have hyes : first.range.contains byte = true := decide_eq_true hbyte
        simp only [List.find?_cons, hyes, Option.some.injEq]
        constructor
        · rintro rfl
          exact ⟨List.mem_cons_self, hbyte⟩
        · rintro ⟨hmem, hedge⟩
          rcases List.mem_cons.mp hmem with rfl | hmem
          · rfl
          · exact absurd hedge (hfirst edge hmem byte hbyte)
      · have hno : first.range.contains byte = false := decide_eq_false hbyte
        simp only [List.find?_cons, hno, ih hrest, List.mem_cons]
        constructor
        · rintro ⟨hmem, hedge⟩
          exact ⟨Or.inr hmem, hedge⟩
        · rintro ⟨rfl | hmem, hedge⟩
          · exact absurd hedge hbyte
          · exact ⟨hmem, hedge⟩

/-! ## One node -/

variable {node : Node} {byte : UInt8}

/-- Among disjoint edges the one found for a byte is the one that contains it. -/
theorem edgeFor?_eq_some_iff_of_apart (h : Apart node.edges) {edge : Edge Node} :
    node.edgeFor? byte = some edge ↔ edge ∈ node.edges ∧ byte ∈ edge.range :=
  h.find?_eq_some_iff

/-- Among ascending edges the one found for a byte is the one that contains it. -/
theorem edgeFor?_eq_some_iff (h : Ascending node.edges) {edge : Edge Node} :
    node.edgeFor? byte = some edge ↔ edge ∈ node.edges ∧ byte ∈ edge.range :=
  edgeFor?_eq_some_iff_of_apart h.apart

/-- A node whose edges are apart accepts what follows along any edge with the first byte. -/
theorem accepts_cons_iff_of_apart (h : Apart node.edges) (bytes : List UInt8) :
    node.accepts (byte :: bytes) = true ↔
      ∃ edge ∈ node.edges, byte ∈ edge.range ∧ edge.child.accepts bytes = true := by
  constructor
  · intro haccepts
    cases hfor : node.edgeFor? byte with
    | none =>
        rw [accepts_cons_of_none hfor] at haccepts
        cases haccepts
    | some edge =>
        rw [accepts_cons_of_some hfor] at haccepts
        obtain ⟨hmem, hbyte⟩ := (edgeFor?_eq_some_iff_of_apart h).mp hfor
        exact ⟨edge, hmem, hbyte, haccepts⟩
  · rintro ⟨edge, hmem, hbyte, haccepts⟩
    rw [accepts_cons_of_some ((edgeFor?_eq_some_iff_of_apart h).mpr ⟨hmem, hbyte⟩)]
    exact haccepts

/-- A node with ascending edges accepts what follows along any edge with the first byte. -/
theorem accepts_cons_iff (h : Ascending node.edges) (bytes : List UInt8) :
    node.accepts (byte :: bytes) = true ↔
      ∃ edge ∈ node.edges, byte ∈ edge.range ∧ edge.child.accepts bytes = true :=
  accepts_cons_iff_of_apart h.apart bytes

end Node

end IntervalAutomata
