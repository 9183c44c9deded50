import IntervalAutomata.Automaton.Dot
import IntervalAutomata.Proofs.Node.Counting

/-!
# The statements of a graph

The statements of an automaton's graph are given by a walk that numbers the nodes as it meets them.
What they say does not refer to the walk (`DotStatement.Draws`): they introduce the nodes 0, 1, … in
this order, and of each node that is reached they state the label and then the edges in order, by
the numbers of the children, and nothing else. The root has the number 0, and different nodes have
different numbers.

That a coherent graph is drawn in this way (`Node.Coherent.draws`) is shown in three steps.

* **Numbers are only added.** A part of the walk keeps the numbers given before
  (`Numbering.Extends`) and gives the next free ones (`Numbering.Consecutive`), to the nodes that
  `Node.visit` adds.
* **Statements are about new nodes.** What a part of the walk states is about nodes that it numbers,
  an edge of the node in progress apart (`Node.length_le_subject_of_mem_dot`).
* **So each node is stated once and for all** by the part of the walk that numbers it
  (`Node.exists_stated_dot`). This is said by the numbers at the end of the walk, with which the
  numbers at any earlier time agree (`Numbering.Agrees`).
-/

namespace IntervalAutomata

/-! ## What statements are about -/

namespace DotStatement

/-- The number of the node that a statement is about: the node that it introduces, or the source of
its edge. -/
def subject : DotStatement → Nat
  | .node number _ => number
  | .edge source _ _ => source

/-- The number of the node that a statement introduces, if it introduces one. -/
def introduced? : DotStatement → Option Nat
  | .node number _ => some number
  | .edge .. => none

/-- The statement of a node is about the node. -/
@[simp] theorem subject_node (number : Nat) (accepting : Bool) :
    (node number accepting).subject = number := rfl

/-- The statement of an edge is about the source of the edge. -/
@[simp] theorem subject_edge (source target : Nat) (range : ByteRange) :
    (edge source target range).subject = source := rfl

/-- The statement of a node introduces its number. -/
@[simp] theorem introduced?_node (number : Nat) (accepting : Bool) :
    (node number accepting).introduced? = some number := rfl

/-- The statement of an edge introduces no number. -/
@[simp] theorem introduced?_edge (source target : Nat) (range : ByteRange) :
    (edge source target range).introduced? = none := rfl

end DotStatement

namespace Node

/-- What is stated of the edges of a node, if nodes are numbered by identity. -/
def edgeStatements (number : Nat → Nat) (source : Nat) (edges : List (Edge Node)) :
    List DotStatement :=
  edges.map fun edge => .edge source (number edge.child.id) edge.range

/-- What is stated of a node: its label, and then its edges in order. -/
def statements (number : Nat → Nat) (node : Node) : List DotStatement :=
  .node (number node.id) node.accepting ::
    edgeStatements number (number node.id) node.edges

end Node

/-- The statements draw the graph of a root, where `number` numbers the nodes by identity. -/
structure DotStatement.Draws (root : Node) (number : Nat → Nat) (statements : List DotStatement) :
    Prop where
  /-- The root comes first. -/
  root_eq : number root.id = 0
  /-- Different nodes have different numbers. -/
  inj : ∀ m n, root.Reaches m → root.Reaches n → number m.id = number n.id → m = n
  /-- The numbers are those below the number of nodes. -/
  lt_iff : ∀ k, k < root.nodeCount ↔ ∃ node, root.Reaches node ∧ number node.id = k
  /-- The nodes are introduced in the order of their numbers, each once. -/
  introduced : statements.filterMap introduced? = List.range root.nodeCount
  /-- What is stated of a node is its label and its edges in order. -/
  stated : ∀ node, root.Reaches node →
    statements.filter (·.subject = number node.id) = node.statements number
  /-- Nothing is stated of anything else. -/
  subject : ∀ statement ∈ statements, ∃ node, root.Reaches node ∧ statement.subject = number node.id

/-! ## Numbers are only added -/

namespace Numbering

/-- All numbers are kept. -/
def Extends (later earlier : Numbering) : Prop :=
  ∀ i k, List.lookup i earlier = some k → List.lookup i later = some k

/-- A function gives the numbers of a numbering. -/
def Agrees (number : Nat → Nat) (numbering : Numbering) : Prop :=
  ∀ i k, List.lookup i numbering = some k → number i = k

/-- The first numbers are given, each of them once. -/
structure Consecutive (numbering : Numbering) : Prop where
  /-- All numbers below the count are given, and no others. -/
  lt_iff : ∀ k, k < numbering.length ↔ ∃ i, List.lookup i numbering = some k
  /-- No number is given twice. -/
  inj : ∀ i j k, List.lookup i numbering = some k → List.lookup j numbering = some k → i = j

variable {N N' N'' : Numbering} {number : Nat → Nat} {i j k : Nat}

/-- A numbering extends itself. -/
theorem Extends.refl (N : Numbering) : Extends N N :=
  fun _ _ h => h

/-- What extends an extension extends the first numbering. -/
theorem Extends.trans (h : Extends N'' N') (h' : Extends N' N) : Extends N'' N :=
  fun i k hlookup => h i k (h' i k hlookup)

/-- A function that gives the numbers of an extension gives those of the numbering. -/
theorem Agrees.of_extends (h : Agrees number N') (hext : Extends N' N) : Agrees number N :=
  fun i k hlookup => h i k (hext i k hlookup)

/-- A new identity leaves the numbers of the others as they were. -/
theorem lookup_cons_of_ne (h : j ≠ i) :
    List.lookup j ((i, N.length) :: N) = List.lookup j N := by
  rw [List.lookup_cons, beq_false_of_ne h]

/-- After a new identity has been numbered, a number is the new one or was given before. -/
theorem lookup_cons_eq_some_iff (hnew : List.lookup i N = none) :
    List.lookup j ((i, N.length) :: N) = some k ↔
      (j = i ∧ N.length = k) ∨ List.lookup j N = some k := by
  by_cases hj : j = i
  · subst hj
    simp [List.lookup_cons_self, hnew]
  · simp [lookup_cons_of_ne hj, hj]

/-- Numbering a new identity extends the numbering. -/
theorem extends_cons (hnew : List.lookup i N = none) : Extends ((i, N.length) :: N) N :=
  fun _ _ h => (lookup_cons_eq_some_iff hnew).mpr (Or.inr h)

/-- The empty numbering has given no number. -/
theorem consecutive_nil : Consecutive [] where
  lt_iff := by simp
  inj := by simp

/-- The next number is the count of those that are given. -/
theorem Consecutive.cons (h : Consecutive N) (hnew : List.lookup i N = none) :
    Consecutive ((i, N.length) :: N) where
  lt_iff := by
    intro k
    simp only [lookup_cons_eq_some_iff hnew, List.length_cons]
    constructor
    · intro hk
      rcases Nat.lt_succ_iff_lt_or_eq.mp hk with hk | rfl
      · obtain ⟨j, hj⟩ := (h.lt_iff k).mp hk
        exact ⟨j, Or.inr hj⟩
      · exact ⟨i, Or.inl ⟨rfl, rfl⟩⟩
    · rintro ⟨j, ⟨-, rfl⟩ | hj⟩
      · exact Nat.lt_succ_self _
      · exact Nat.lt_succ_of_lt ((h.lt_iff k).mpr ⟨j, hj⟩)
  inj := by
    intro j j' k hj hj'
    rw [lookup_cons_eq_some_iff hnew] at hj hj'
    rcases hj with ⟨rfl, rfl⟩ | hj <;> rcases hj' with ⟨rfl, hk⟩ | hj'
    · rfl
    · exact absurd ((h.lt_iff _).mpr ⟨j', hj'⟩) (Nat.lt_irrefl _)
    · subst hk
      exact absurd ((h.lt_iff _).mpr ⟨j, hj⟩) (Nat.lt_irrefl _)
    · exact h.inj j j' k hj hj'

/-- An identity has no number if it was not met. -/
theorem lookup_eq_none_iff : List.lookup i N = none ↔ i ∉ N.map Prod.fst := by
  rw [List.lookup_eq_none_iff]
  simp only [bne_iff_ne, List.mem_map, not_exists, not_and]
  constructor
  · rintro h entry hentry rfl
    exact h entry hentry rfl
  · rintro h entry hentry rfl
    exact h entry hentry rfl

end Numbering

namespace Node

open IntervalAutomata.Numbering

variable {number : Nat → Nat} {i k source : Nat}

/-- A node that has a number is not drawn again. -/
theorem dot_of_some {N : Numbering} {a : Bool} {es : List (Edge Node)}
    (h : N.lookup i = some k) : (mk i a es).dot N = (k, ⟨[], N⟩) := by
  simp only [dot, h]

/-- A node without a number takes the next one, and what is below it is drawn after it. -/
theorem dot_of_none {N : Numbering} {es : List (Edge Node)} (h : N.lookup i = none) (a : Bool) :
    (mk i a es).dot N =
      (N.length, ⟨.node N.length a :: (dotBelow N.length es ((i, N.length) :: N)).statements,
        (dotBelow N.length es ((i, N.length) :: N)).numbering⟩) := by
  simp only [dot, h]

mutual

/-- Drawing a node extends the numbering. -/
theorem extends_dot : (node : Node) → ∀ N, Extends (node.dot N).2.numbering N
  | mk i a es, N => by
      cases h : N.lookup i with
      | some k =>
          rw [dot_of_some h]
          exact .refl N
      | none =>
          rw [dot_of_none h]
          exact (extends_dotBelow _ es _).trans (extends_cons h)

/-- Drawing edges extends the numbering. -/
theorem extends_dotBelow (source : Nat) : (edges : List (Edge Node)) → ∀ N,
    Extends (dotBelow source edges N).numbering N
  | [], N => .refl N
  | edge :: edges, N => by
      rw [dotBelow]
      exact (extends_dotBelow source edges _).trans (extends_dot edge.child N)

end

mutual

/-- The nodes that have numbers are those that were passed. -/
theorem map_fst_dot : (node : Node) → ∀ N,
    (node.dot N).2.numbering.map Prod.fst = node.visit (N.map Prod.fst)
  | mk i a es, N => by
      rw [visit]
      cases h : N.lookup i with
      | some k =>
          have hmem : i ∈ N.map Prod.fst := by
            by_contra hnot
            rw [lookup_eq_none_iff.mpr hnot] at h
            cases h
          rw [dot_of_some h, if_pos hmem]
      | none =>
          rw [dot_of_none h, if_neg (lookup_eq_none_iff.mp h)]
          exact map_fst_dotBelow _ es _

/-- The identities that are numbered while edges are drawn are those that a visit meets. -/
theorem map_fst_dotBelow (source : Nat) : (edges : List (Edge Node)) → ∀ N,
    (dotBelow source edges N).numbering.map Prod.fst = visitBelow edges (N.map Prod.fst)
  | [], _ => rfl
  | edge :: edges, N => by
      rw [dotBelow, visitBelow, ← map_fst_dot edge.child N]
      exact map_fst_dotBelow source edges _

end

mutual

/-- The numbers stay consecutive while a node is drawn. -/
theorem consecutive_dot : (node : Node) → ∀ {N}, Consecutive N →
    Consecutive (node.dot N).2.numbering
  | mk i a es, N, hN => by
      cases h : N.lookup i with
      | some k =>
          rw [dot_of_some h]
          exact hN
      | none =>
          rw [dot_of_none h]
          exact consecutive_dotBelow _ es (hN.cons h)

/-- The numbers stay consecutive while edges are drawn. -/
theorem consecutive_dotBelow (source : Nat) : (edges : List (Edge Node)) → ∀ {N}, Consecutive N →
    Consecutive (dotBelow source edges N).numbering
  | [], _, hN => hN
  | edge :: edges, N, hN => by
      rw [dotBelow]
      exact consecutive_dotBelow source edges (consecutive_dot edge.child hN)

end

/-- The answer is the node's number. -/
theorem lookup_dot (node : Node) (N : Numbering) :
    (node.dot N).2.numbering.lookup node.id = some (node.dot N).1 := by
  cases node with
  | mk i a es =>
      cases h : N.lookup i with
      | some k =>
          rw [dot_of_some h]
          exact h
      | none =>
          rw [dot_of_none h]
          exact extends_dotBelow _ es _ _ _ List.lookup_cons_self

/-! ## Statements are about new nodes -/

mutual

/-- The nodes are introduced as they are numbered. -/
theorem introduced_dot : (node : Node) → ∀ N : Numbering,
    List.range N.length ++ (node.dot N).2.statements.filterMap DotStatement.introduced? =
      List.range (node.dot N).2.numbering.length
  | mk i a es, N => by
      cases h : N.lookup i with
      | some k =>
          rw [dot_of_some h]
          exact List.append_nil _
      | none =>
          rw [dot_of_none h, List.filterMap_cons_some (DotStatement.introduced?_node _ a),
            List.append_cons, ← List.range_succ]
          exact introduced_dotBelow _ es ((i, N.length) :: N)

/-- The statements below edges introduce the numbers that are new, in their order. -/
theorem introduced_dotBelow (source : Nat) : (edges : List (Edge Node)) → ∀ N : Numbering,
    List.range N.length ++
        (dotBelow source edges N).statements.filterMap DotStatement.introduced? =
      List.range (dotBelow source edges N).numbering.length
  | [], _ => List.append_nil _
  | edge :: edges, N => by
      rw [dotBelow, List.filterMap_append,
        List.filterMap_cons_none (DotStatement.introduced?_edge _ _ _), ← List.append_assoc,
        introduced_dot edge.child N]
      exact introduced_dotBelow source edges _

end

/-- The count of numbers does not decrease. -/
theorem length_le_dot (node : Node) (N : Numbering) :
    N.length ≤ (node.dot N).2.numbering.length := by
  have h := congrArg List.length (node.introduced_dot N)
  rw [List.length_append, List.length_range, List.length_range] at h
  omega

/-- Drawing edges takes no number back. -/
theorem length_le_dotBelow (source : Nat) (edges : List (Edge Node)) (N : Numbering) :
    N.length ≤ (dotBelow source edges N).numbering.length := by
  have h := congrArg List.length (introduced_dotBelow source edges N)
  rw [List.length_append, List.length_range, List.length_range] at h
  omega

mutual

/-- The statements of a node are about nodes that were numbered with it. -/
theorem length_le_subject_of_mem_dot : (node : Node) → ∀ N,
    ∀ statement ∈ (node.dot N).2.statements,
      N.length ≤ statement.subject ∧ statement.subject < (node.dot N).2.numbering.length
  | mk i a es, N, statement, h => by
      cases hlookup : N.lookup i with
      | some k =>
          rw [dot_of_some hlookup] at h
          cases h
      | none =>
          have hle := length_le_dotBelow N.length es ((i, N.length) :: N)
          rw [dot_of_none hlookup] at h ⊢
          rw [List.length_cons] at hle
          rcases List.mem_cons.mp h with rfl | h
          · exact ⟨Nat.le_refl _, hle⟩
          · rcases subject_of_mem_dotBelow _ es _ statement h with hsource | ⟨hge, hlt⟩
            · rw [hsource]
              exact ⟨Nat.le_refl _, hle⟩
            · rw [List.length_cons] at hge
              exact ⟨by omega, hlt⟩

/-- The statements below edges are about their source or about nodes that were numbered with them.
-/
theorem subject_of_mem_dotBelow (source : Nat) : (edges : List (Edge Node)) → ∀ N,
    ∀ statement ∈ (dotBelow source edges N).statements, statement.subject = source ∨
      N.length ≤ statement.subject ∧
        statement.subject < (dotBelow source edges N).numbering.length
  | [], _, _, h => by cases h
  | edge :: edges, N, statement, h => by
      have hfirst := length_le_dot edge.child N
      have hrest := length_le_dotBelow source edges (edge.child.dot N).2.numbering
      rw [dotBelow] at h ⊢
      rcases List.mem_append.mp h with h | h
      · have hsubject := length_le_subject_of_mem_dot edge.child N statement h
        exact Or.inr ⟨hsubject.1, by dsimp only; omega⟩
      · rcases List.mem_cons.mp h with rfl | h
        · exact Or.inl rfl
        · rcases subject_of_mem_dotBelow source edges _ statement h with hsource | hsubject
          · exact Or.inl hsource
          · exact Or.inr ⟨by omega, hsubject.2⟩

end

/-! ## Each node is stated once -/

/-- Where no statement is about a node, none is found for it. -/
theorem filter_subject_eq_nil {statements : List DotStatement}
    (h : ∀ statement ∈ statements, statement.subject ≠ k) :
    statements.filter (·.subject = k) = [] := by
  rw [List.filter_eq_nil_iff]
  intro statement hmem
  simpa using h statement hmem

/-- A statement about another node is not among those that are found. -/
theorem filter_subject_cons {statement : DotStatement} (h : statement.subject ≠ k)
    (statements : List DotStatement) :
    (statement :: statements).filter (·.subject = k) = statements.filter (·.subject = k) := by
  apply List.filter_cons_of_neg
  simpa using h

/-- Of the node in progress, its edges are stated in order. -/
theorem filter_source_dotBelow (edges : List (Edge Node)) {N : Numbering}
    (hsource : source < N.length) (hnumber : Agrees number (dotBelow source edges N).numbering) :
    (dotBelow source edges N).statements.filter (·.subject = source) =
      edgeStatements number source edges := by
  induction edges generalizing N with
  | nil => rfl
  | cons edge edges ih =>
      rw [dotBelow] at hnumber ⊢
      have hfirst : Agrees number (edge.child.dot N).2.numbering :=
        hnumber.of_extends (extends_dotBelow source edges _)
      have htarget : number edge.child.id = (edge.child.dot N).1 :=
        hfirst _ _ (lookup_dot edge.child N)
      have hnone : (edge.child.dot N).2.statements.filter (·.subject = source) = [] := by
        apply filter_subject_eq_nil
        intro statement hmem
        have hsubject := length_le_subject_of_mem_dot edge.child N statement hmem
        omega
      have hlength := length_le_dot edge.child N
      rw [List.filter_append, hnone, List.nil_append, List.filter_cons_of_pos (by simp),
        ih (by omega) hnumber, edgeStatements, edgeStatements, List.map_cons, htarget]

mutual

/-- A node that is numbered anew is stated, once and for all. -/
theorem exists_stated_dot : (node : Node) → ∀ {N}, Consecutive N →
    Agrees number (node.dot N).2.numbering →
    N.lookup i = none → (node.dot N).2.numbering.lookup i = some k →
    N.length ≤ k ∧ ∃ target, node.Reaches target ∧ target.id = i ∧
      (node.dot N).2.statements.filter (·.subject = k) = target.statements number
  | mk j a es, N, hN, hnumber, hnew, hi => by
      cases hlookup : N.lookup j with
      | some k' =>
          rw [dot_of_some hlookup] at hi
          rw [hi] at hnew
          cases hnew
      | none =>
          rw [dot_of_none hlookup] at hnumber hi ⊢
          by_cases hij : i = j
          · -- The node itself: it is in progress while all below it is stated.
            subst hij
            have hk : List.lookup i ((i, N.length) :: N) = some N.length := List.lookup_cons_self
            have hfirst := hnumber i _ (extends_dotBelow _ es _ i _ hk)
            have hlast := hnumber i k hi
            obtain rfl : N.length = k := hfirst.symm.trans hlast
            refine ⟨Nat.le_refl _, mk i a es, .refl _, rfl, ?_⟩
            have hedges := filter_source_dotBelow es (Nat.lt_succ_self _) hnumber
            rw [List.filter_cons_of_pos (by simp), hedges, statements, id_mk, accepting_mk,
              edges_mk, hfirst]
          · have hnew' : List.lookup i ((j, N.length) :: N) = none := by
              rw [lookup_cons_of_ne hij, hnew]
            obtain ⟨hle, edge, hedge, target, hreaches, hid, hstated⟩ :=
              exists_stated_dotBelow N.length es (hN.cons hlookup) (Nat.lt_succ_self _) hnumber
                hnew' hi
            rw [List.length_cons] at hle
            refine ⟨by omega, target, .below hedge hreaches, hid, ?_⟩
            have hne : N.length ≠ k := by omega
            rw [filter_subject_cons, hstated]
            exact hne

/-- A node that was numbered while edges were drawn is reached through one of them, and all that is
stated of it are its own statements. -/
theorem exists_stated_dotBelow (source : Nat) : (edges : List (Edge Node)) → ∀ {N}, Consecutive N →
    source < N.length → Agrees number (dotBelow source edges N).numbering →
    N.lookup i = none → (dotBelow source edges N).numbering.lookup i = some k →
    N.length ≤ k ∧ ∃ edge ∈ edges, ∃ target, edge.child.Reaches target ∧ target.id = i ∧
      (dotBelow source edges N).statements.filter (·.subject = k) = target.statements number
  | [], _, _, _, _, hnew, hi => by
      rw [dotBelow, hnew] at hi
      cases hi
  | edge :: edges, N, hN, hsource, hnumber, hnew, hi => by
      have hlength := length_le_dot edge.child N
      rw [dotBelow] at hnumber hi ⊢
      have hfirst : Consecutive (edge.child.dot N).2.numbering := consecutive_dot edge.child hN
      have hext := extends_dotBelow source edges (edge.child.dot N).2.numbering
      cases hlookup : (edge.child.dot N).2.numbering.lookup i with
      | some k' =>
          obtain rfl : k = k' := Option.some.inj (hi.symm.trans (hext i k' hlookup))
          obtain ⟨hle, target, hreaches, hid, hstated⟩ :=
            exists_stated_dot edge.child hN (hnumber.of_extends hext) hnew hlookup
          have hlt := (hfirst.lt_iff k).mpr ⟨i, hlookup⟩
          have hnone : (dotBelow source edges (edge.child.dot N).2.numbering).statements.filter
              (·.subject = k) = [] := by
            apply filter_subject_eq_nil
            intro statement hmem
            rcases subject_of_mem_dotBelow source edges _ statement hmem with hsubject | hsubject
            all_goals omega
          have hne : source ≠ k := by omega
          refine ⟨hle, edge, List.mem_cons_self, target, hreaches, hid, ?_⟩
          rw [List.filter_append, filter_subject_cons, hstated, hnone, List.append_nil]
          exact hne
      | none =>
          obtain ⟨hle, edge', hedge', target, hreaches, hid, hstated⟩ :=
            exists_stated_dotBelow source edges hfirst (by omega) hnumber hlookup hi
          have hnone : (edge.child.dot N).2.statements.filter (·.subject = k) = [] := by
            apply filter_subject_eq_nil
            intro statement hmem
            have hsubject := length_le_subject_of_mem_dot edge.child N statement hmem
            omega
          have hne : source ≠ k := by omega
          refine ⟨by omega, edge', List.mem_cons_of_mem edge hedge', target, hreaches, hid, ?_⟩
          rw [List.filter_append, filter_subject_cons, hstated, hnone, List.nil_append]
          exact hne

end

/-! ## The whole graph -/

/-- The number of a node at the end of the walk, by identity. -/
def finalNumber (root : Node) (i : Nat) : Nat :=
  ((root.dot []).2.numbering.lookup i).getD 0

variable {root : Node}

/-- The final numbers are those of the numbering at the end. -/
theorem agrees_finalNumber (root : Node) : Agrees root.finalNumber (root.dot []).2.numbering := by
  intro i k h
  rw [finalNumber, h, Option.getD_some]

/-- As many numbers are given as there are nodes. -/
theorem length_numbering (root : Node) : (root.dot []).2.numbering.length = root.nodeCount := by
  have h := congrArg List.length (root.map_fst_dot [])
  rwa [List.length_map] at h

/-- In the end the nodes of the graph have numbers, and nothing else has one. -/
theorem Coherent.lookup_iff (h : root.Coherent) :
    (root.dot []).2.numbering.lookup i = some k ↔
      ∃ node, root.Reaches node ∧ node.id = i ∧ root.finalNumber i = k := by
  constructor
  · intro hlookup
    have hmem : i ∈ (root.dot []).2.numbering.map Prod.fst := by
      by_contra hnot
      rw [lookup_eq_none_iff.mpr hnot] at hlookup
      cases hlookup
    rw [map_fst_dot] at hmem
    obtain ⟨node, hreaches, hid⟩ := exists_reaches_of_mem_ids (h.mem_visit_iff.mp hmem)
    exact ⟨node, hreaches, hid, agrees_finalNumber root i k hlookup⟩
  · rintro ⟨node, hreaches, rfl, rfl⟩
    have hmem : node.id ∈ (root.dot []).2.numbering.map Prod.fst := by
      rw [map_fst_dot]
      exact h.mem_visit_iff.mpr hreaches.id_mem_ids
    cases hlookup : (root.dot []).2.numbering.lookup node.id with
    | none => exact absurd hmem (lookup_eq_none_iff.mp hlookup)
    | some k => rw [agrees_finalNumber root _ k hlookup]

/-- **A graph is drawn as it is**: all that its statements say, without reference to the walk. -/
theorem Coherent.draws (h : root.Coherent) :
    DotStatement.Draws root root.finalNumber (root.dot []).2.statements := by
  have hconsecutive : Consecutive (root.dot []).2.numbering := root.consecutive_dot consecutive_nil
  have hlookup : ∀ node, root.Reaches node →
      (root.dot []).2.numbering.lookup node.id = some (root.finalNumber node.id) :=
    fun node hnode => h.lookup_iff.mpr ⟨node, hnode, rfl, rfl⟩
  have hlt : ∀ k, k < root.nodeCount ↔
      ∃ node, root.Reaches node ∧ root.finalNumber node.id = k := by
    intro k
    rw [← length_numbering, hconsecutive.lt_iff]
    constructor
    · rintro ⟨i, hi⟩
      obtain ⟨node, hnode, rfl, hk⟩ := h.lookup_iff.mp hi
      exact ⟨node, hnode, hk⟩
    · rintro ⟨node, hnode, rfl⟩
      exact ⟨node.id, hlookup node hnode⟩
  refine ⟨?_, ?_, hlt, ?_, ?_, ?_⟩
  · -- The root is numbered first, when no number is given.
    have hroot : (root.dot []).1 = 0 := by
      cases root
      rw [dot_of_none rfl]
      rfl
    rw [agrees_finalNumber root _ _ (root.lookup_dot []), hroot]
  · intro m n hm hn hnumber
    refine h m n hm hn (hconsecutive.inj _ _ _ (hlookup m hm) ?_)
    rw [hnumber]
    exact hlookup n hn
  · have hintroduced := root.introduced_dot []
    rwa [length_numbering, List.length_nil, List.range_zero, List.nil_append] at hintroduced
  · intro node hnode
    obtain ⟨-, target, htarget, hid, hstated⟩ := exists_stated_dot root consecutive_nil
      (agrees_finalNumber root) rfl (hlookup node hnode)
    obtain rfl := h target node htarget hnode hid
    exact hstated
  · intro statement hmem
    have hsubject := (length_le_subject_of_mem_dot root [] statement hmem).2
    rw [length_numbering] at hsubject
    obtain ⟨node, hnode, hnumber⟩ := (hlt _).mp hsubject
    exact ⟨node, hnode, hnumber.symm⟩

end Node

end IntervalAutomata
