import IntervalAutomata.Compile.Session
import IntervalAutomata.Proofs.Compile.Unrolling
import IntervalAutomata.Proofs.Node.Counting
import Mathlib.Data.List.Nodup

/-!
# The nodes that a construction makes

The store hands out identities in order, so the nodes that were made form a row in which every node
stands at the place of its identity (`Store.Made`). The row only grows; the children of a node were
made before it, and what is remembered was made (`Made.newNode`, `Made.remember`).

Whatever the options are, a construction extends the row by the nodes that it makes and answers with
a node of the extended row (`build_makes`). Two consequences hold of the graph of an automaton:

* **an identity stands for one node** (`Automaton.eq_of_id_eq`, `Automaton.coherent_root`);
* there are no more nodes than were made (`Automaton.nodeCount_le_next`).
-/

namespace IntervalAutomata

/-! ## Rows of nodes -/

/-- The nodes that were made so far, in order. -/
structure Store.Made (store : Store) (rows : List Node) : Prop where
  /-- The next identity is the next place in the row. -/
  next_eq : store.next = rows.length
  /-- Every node stands at the place of its identity. -/
  ids_eq : rows.map Node.id = List.range rows.length
  /-- Children are made too. -/
  child_mem : ∀ node ∈ rows, ∀ edge ∈ node.edges, edge.child ∈ rows
  /-- What is remembered was made. -/
  finished_mem : ∀ entry ∈ store.finished, entry.2 ∈ rows

namespace Store

variable {store : Store} {rows : List Node}

/-- Nothing was made for the empty store. -/
theorem made_empty : Store.empty.Made [] where
  next_eq := rfl
  ids_eq := rfl
  child_mem := by simp
  finished_mem := by simp [Store.empty]

namespace Made

/-- A new node takes the next place. -/
theorem newNode (h : store.Made rows) (accepting : Bool) {edges : List (Edge Node)}
    (hedges : ∀ edge ∈ edges, edge.child ∈ rows) :
    (store.newNode accepting edges).2.Made (rows ++ [(store.newNode accepting edges).1]) where
  next_eq := by
    rw [List.length_append, List.length_singleton, ← h.next_eq]
    rfl
  ids_eq := by
    rw [List.map_append, h.ids_eq, List.length_append, List.length_singleton, List.range_succ,
      ← h.next_eq]
    rfl
  child_mem := by
    intro node hnode edge hedge
    rcases List.mem_append.mp hnode with hnode | hnode
    · exact List.mem_append_left _ (h.child_mem node hnode edge hedge)
    · obtain rfl := List.mem_singleton.mp hnode
      exact List.mem_append_left _ (hedges edge hedge)
  finished_mem := by
    intro entry hentry
    exact List.mem_append_left _ (h.finished_mem entry hentry)

/-- Remembering a node makes none. -/
theorem remember (h : store.Made rows) {node : Node} (hnode : node ∈ rows) (key : Key) :
    (store.remember key node).Made rows where
  next_eq := h.next_eq
  ids_eq := h.ids_eq
  child_mem := h.child_mem
  finished_mem := by
    intro entry hentry
    rcases List.mem_cons.mp hentry with rfl | hentry
    · exact hnode
    · exact h.finished_mem entry hentry

/-- What is found among the remembered nodes was made. -/
theorem mem_of_find? (h : store.Made rows) {key : Key} {node : Node}
    (hfind : store.find? key = some node) : node ∈ rows := by
  obtain ⟨entry, hentry, rfl⟩ := Option.map_eq_some_iff.mp hfind
  exact h.finished_mem entry (List.mem_of_find?_eq_some hentry)

/-- All that is reached from a node that was made was made. -/
theorem mem_of_reaches (h : store.Made rows) {node target : Node} (hnode : node ∈ rows)
    (hreaches : node.Reaches target) : target ∈ rows :=
  hreaches.induct hnode h.child_mem

/-- An identity stands for one node. -/
theorem eq_of_id_eq (h : store.Made rows) {m n : Node} (hm : m ∈ rows) (hn : n ∈ rows)
    (hid : m.id = n.id) : m = n := by
  have hnodup : (rows.map Node.id).Nodup := by
    rw [h.ids_eq]
    exact List.nodup_range
  exact List.inj_on_of_nodup_map hnodup hm hn hid

/-- The identities in use are below the next one. -/
theorem id_lt (h : store.Made rows) {node : Node} (hnode : node ∈ rows) : node.id < store.next := by
  have hmem := List.mem_map_of_mem (f := Node.id) hnode
  rwa [h.ids_eq, List.mem_range, ← h.next_eq] at hmem

end Made

end Store

/-! ## The construction -/

/-- A part of the construction extends the row, and what it answers with stands in it. -/
def Built.Makes (rows : List Node) (built : Built Node) : Prop :=
  ∃ new, built.store.Made (rows ++ new) ∧ built.result ∈ rows ++ new

section build

variable {options : CompileOptions} {levels depth low high : Nat} {store : Store}
  {rows : List Node}

/-- A new node after a part of the construction that gave its edges. -/
theorem Store.Made.makes_newNode {new : List Node} (h : store.Made (rows ++ new))
    {accepting : Bool} {edges : List (Edge Node)}
    (hedges : ∀ edge ∈ edges, edge.child ∈ rows ++ new) (events : List CompileEvent) :
    Built.Makes rows ⟨(store.newNode accepting edges).1, events,
      (store.newNode accepting edges).2⟩ := by
  refine ⟨new ++ [(store.newNode accepting edges).1], ?_, ?_⟩
  · rw [← List.append_assoc]
    exact h.newNode accepting hedges
  · rw [← List.append_assoc]
    exact List.mem_append_right _ List.mem_cons_self

/-- Sharing makes what the construction of a fresh node makes, or nothing. -/
theorem share_makes {fresh : Store → Built Node} (hstore : store.Made rows)
    (hfresh : (fresh store).Makes rows) :
    (share options depth low high fresh store).Makes rows := by
  rcases share_cases options depth low high fresh store with
    ⟨-, hshare⟩ | ⟨node, hfind, hshare⟩ | ⟨-, hshare⟩
  · rw [hshare]
    exact hfresh
  · rw [hshare]
    refine ⟨[], ?_, ?_⟩
    · rw [List.append_nil]
      exact hstore
    · rw [List.append_nil]
      exact hstore.mem_of_find? hfind
  · rw [hshare]
    obtain ⟨new, hmade, hresult⟩ := hfresh
    exact ⟨new, hmade.remember hresult _, hresult⟩

/-- A row of edges makes what its children make, and leads to nodes that were made. -/
theorem growEdges_makes {below : Band → ByteRange → Store → Built Node} {bands : List Band}
    (hstore : store.Made rows)
    (hbelow : ∀ band ∈ bands, ∀ range store rows, store.Made rows →
      (below band range store).Makes rows) :
    ∃ new, (growEdges below bands store).store.Made (rows ++ new) ∧
      ∀ edge ∈ (growEdges below bands store).result, edge.child ∈ rows ++ new := by
  induction bands generalizing store rows with
  | nil =>
      refine ⟨[], ?_, ?_⟩
      · rw [List.append_nil]
        exact hstore
      · intro edge hedge
        cases hedge
  | cons band bands ih =>
      obtain ⟨hband, hbands⟩ := List.forall_mem_cons.mp hbelow
      cases hrange : band.range? with
      | none =>
          rw [growEdges_cons_of_none hrange]
          exact ih hstore hbands
      | some range =>
          rw [growEdges_cons_of_some hrange]
          obtain ⟨new, hmade, hresult⟩ := hband range store rows hstore
          obtain ⟨later, hlast, hrest⟩ := ih hmade hbands
          rw [List.append_assoc] at hlast hrest
          refine ⟨new ++ later, hlast, ?_⟩
          intro edge hedge
          rcases List.mem_cons.mp hedge with rfl | hedge
          · rw [← List.append_assoc]
            exact List.mem_append_left _ hresult
          · exact hrest edge hedge

/-- **A construction extends the row** by the nodes that it makes. -/
theorem build_makes (hstore : store.Made rows) :
    (build options levels depth low high store).Makes rows := by
  induction levels generalizing depth low high store rows with
  | zero =>
      rw [build_zero]
      refine share_makes hstore ?_
      rw [← List.append_nil rows] at hstore
      exact hstore.makes_newNode (by simp) _
  | succ levels ih =>
      rw [build_succ]
      refine share_makes hstore ?_
      have hchild : ∀ band ∈ (levelFor options.encoding levels depth low high).bands,
          ∀ range store rows, store.Made rows →
            (growChild options levels depth (levelFor options.encoding levels depth low high)
              band range store).Makes rows := by
        intro band _ range store rows hstore
        unfold growChild
        split
        · rw [← List.append_nil rows] at hstore
          exact hstore.makes_newNode (by simp) _
        · exact ih hstore
      obtain ⟨new, hmade, hedges⟩ := growEdges_makes hstore hchild
      exact hmade.makes_newNode hedges _

end build

/-! ## The graph of an automaton -/

namespace Automaton

variable {options : CompileOptions} {interval : Interval}

/-- The store after the compilation of an interval. -/
def storeAfter (options : CompileOptions) (interval : Interval) : Store :=
  ((Session.start options).compileInterval interval).2.store

/-- The nodes that a compilation makes are a row in which the root stands. -/
theorem exists_made (options : CompileOptions) (interval : Interval) :
    ∃ rows, (storeAfter options interval).Made rows ∧ (compile options interval).root ∈ rows := by
  have hbuild : (build options (byteWidth interval.high) 0 interval.low interval.high
      Store.empty).Makes [] := build_makes Store.made_empty
  obtain ⟨rows, hmade, hroot⟩ := hbuild
  exact ⟨rows, hmade, hroot⟩

/-- An identity stands for one node. -/
theorem eq_of_id_eq {m n : Node} (hm : (compile options interval).root.Reaches m)
    (hn : (compile options interval).root.Reaches n) (hid : m.id = n.id) : m = n := by
  obtain ⟨rows, hmade, hroot⟩ := exists_made options interval
  exact hmade.eq_of_id_eq (hmade.mem_of_reaches hroot hm) (hmade.mem_of_reaches hroot hn) hid

/-- A compiled automaton is a graph: an identity stands for one node. -/
theorem coherent_root (options : CompileOptions) (interval : Interval) :
    (compile options interval).root.Coherent :=
  fun _ _ hm hn hid => eq_of_id_eq hm hn hid

/-- The graph has no more nodes than were made. -/
theorem nodeCount_le_next :
    (compile options interval).nodeCount ≤ (storeAfter options interval).next := by
  obtain ⟨rows, hmade, hroot⟩ := exists_made options interval
  apply Node.nodeCount_le_of_ids_lt
  intro i hi
  obtain ⟨target, hreaches, rfl⟩ := Node.exists_reaches_of_mem_ids hi
  exact hmade.id_lt (hmade.mem_of_reaches hroot hreaches)

end Automaton

end IntervalAutomata
