import IntervalAutomata.Proofs.Compile.Calls
import IntervalAutomata.Proofs.Compile.Identities
import IntervalAutomata.Proofs.Compile.Rows

/-!
# The reports account for the automaton

A compilation reports the nodes that it begins, the edges that it adds and the nodes that it shares.
The number of reports of each kind tells the size of the graph that it makes
(`Automaton.compileEvents_account`):

* **Nodes.** Every node is begun or is a leaf, and is reported once.
* **Edges.** Every edge is reported once, by an edge event or together with its leaf.
* **Calls.** Every edge event is followed by one call, which begins a node or reuses one, and the
  root is called for without an edge.

The account is kept by every part of the construction (`Tally`, `build_tally`). Nodes that are built
lie at or below what the part answers with, so no report is of a node outside the graph. That a
shared node is reported once rests on identities: a new node takes a new one (`Store.Issues`).
-/

namespace IntervalAutomata

/-! ## Kinds of reports -/

namespace CompileEvent

/-- Whether a node is begun. -/
def isEnter : CompileEvent → Bool
  | enter .. => true
  | _ => false

/-- Whether an edge leads to a node that is called for. -/
def isEdge : CompileEvent → Bool
  | edge .. => true
  | _ => false

/-- Whether an edge leads to a new leaf. -/
def isLeaf : CompileEvent → Bool
  | leaf .. => true
  | _ => false

/-- Whether a node that was built before is shared. -/
def isReuse : CompileEvent → Bool
  | reuse .. => true
  | _ => false

end CompileEvent

/-! ## The account of a part -/

/-- The number of edges that some nodes have together. -/
def edgeTotal (nodes : List Node) : Nat :=
  (nodes.map fun node => node.edges.length).sum

/-- What a part of the construction made, between two stores, is accounted for by its reports. The
nodes `new` are those that it built, and it answers with the nodes `tops`. It was called `calls`
times, and `loose` of the edges that it reported lead to `tops` from a node that is yet to be
built. -/
structure Tally (before after : Store) (events : List CompileEvent) (new tops : List Node)
    (calls loose : Nat) : Prop where
  /-- New nodes have new identities. -/
  issues : before.Issues after (new.map Node.id)
  /-- Every new node is part of the answer. -/
  reached : ∀ node ∈ new, ∃ top ∈ tops, top.Reaches node
  /-- Every new node is begun or is a leaf. -/
  length_eq : new.length =
    events.countP CompileEvent.isEnter + events.countP CompileEvent.isLeaf
  /-- Every call begins a node or reuses one, and but for the calls from outside it follows an
  edge. -/
  calls_eq : events.countP CompileEvent.isEnter + events.countP CompileEvent.isReuse =
    events.countP CompileEvent.isEdge + calls
  /-- Every edge leads to a node that is called for or to a leaf. -/
  edges_eq : edgeTotal new + loose =
    events.countP CompileEvent.isEdge + events.countP CompileEvent.isLeaf

namespace Tally

variable {before middle after : Store} {events later : List CompileEvent}
  {new new' tops tops' : List Node} {top : Node} {calls calls' loose loose' : Nat}

/-- Where nothing happens there is nothing to account for. -/
theorem nil (store : Store) : Tally store store [] [] [] 0 0 where
  issues := store.issues_nil
  reached := by simp
  length_eq := rfl
  calls_eq := rfl
  edges_eq := rfl

/-- Parts that follow each other make one part. -/
theorem append (h : Tally before middle events new tops calls loose)
    (h' : Tally middle after later new' tops' calls' loose') :
    Tally before after (events ++ later) (new ++ new') (tops ++ tops') (calls + calls')
      (loose + loose') where
  issues := by
    rw [List.map_append]
    exact h.issues.append h'.issues
  reached := by
    intro node hnode
    rcases List.mem_append.mp hnode with hnode | hnode
    · obtain ⟨top, htop, hreaches⟩ := h.reached node hnode
      exact ⟨top, List.mem_append_left _ htop, hreaches⟩
    · obtain ⟨top, htop, hreaches⟩ := h'.reached node hnode
      exact ⟨top, List.mem_append_right _ htop, hreaches⟩
  length_eq := by
    have hfirst := h.length_eq
    have hsecond := h'.length_eq
    rw [List.length_append, List.countP_append, List.countP_append]
    omega
  calls_eq := by
    have hfirst := h.calls_eq
    have hsecond := h'.calls_eq
    rw [List.countP_append, List.countP_append, List.countP_append]
    omega
  edges_eq := by
    have hfirst := h.edges_eq
    have hsecond := h'.edges_eq
    rw [edgeTotal] at hfirst hsecond ⊢
    rw [List.map_append, List.sum_append, List.countP_append, List.countP_append]
    omega

/-- An edge is reported, and what it leads to is called for. -/
theorem edge (h : Tally before after events new [top] 1 0) (depth : Nat) (range : ByteRange)
    (low high : Nat) :
    Tally before after (.edge depth range low high :: events) new [top] 0 1 where
  issues := h.issues
  reached := h.reached
  length_eq := h.length_eq
  calls_eq := by
    have hcalls := h.calls_eq
    simp only [List.countP_cons, CompileEvent.isEnter, CompileEvent.isReuse, CompileEvent.isEdge,
      if_true, Bool.false_eq_true, if_false]
    omega
  edges_eq := by
    have hedges := h.edges_eq
    simp only [List.countP_cons, CompileEvent.isEdge, CompileEvent.isLeaf, if_true,
      Bool.false_eq_true, if_false]
    omega

/-- An edge is reported together with the new leaf to which it leads. -/
theorem leaf (store : Store) (depth : Nat) (range : ByteRange) :
    Tally store (growLeaf depth range store).store (growLeaf depth range store).events
      [(growLeaf depth range store).result] [(growLeaf depth range store).result] 0 1 where
  issues := store.issues_nil.cons
  reached := fun node hnode => ⟨node, hnode, .refl node⟩
  length_eq := rfl
  calls_eq := rfl
  edges_eq := rfl

/-- The layout of a node is reported. -/
theorem laidOut (h : Tally before after events new tops calls loose) (depth : Nat)
    (layout : Layout) :
    Tally before after (.laidOut depth layout :: events) new tops calls loose :=
  { h with }

/-- A node is begun, its edges grow, and it is built. -/
theorem node {edges : List (Edge Node)}
    (h : Tally before after events new (edges.map Edge.child) 0 edges.length)
    (depth low high : Nat) (accepting reported : Bool) :
    Tally before { after with next := after.next + 1 }
      (.enter depth low high reported :: events) (.mk after.next accepting edges :: new)
      [.mk after.next accepting edges] 1 0 where
  issues := h.issues.cons
  reached := by
    intro node hnode
    refine ⟨_, List.mem_singleton_self _, ?_⟩
    rcases List.mem_cons.mp hnode with rfl | hnode
    · exact .refl _
    · obtain ⟨top, htop, hreaches⟩ := h.reached node hnode
      obtain ⟨edge, hedge, rfl⟩ := List.mem_map.mp htop
      exact .below hedge hreaches
  length_eq := by
    have hlength := h.length_eq
    simp only [List.length_cons, List.countP_cons, CompileEvent.isEnter, CompileEvent.isLeaf,
      if_true, Bool.false_eq_true, if_false]
    omega
  calls_eq := by
    have hcalls := h.calls_eq
    simp only [List.countP_cons, CompileEvent.isEnter, CompileEvent.isReuse, CompileEvent.isEdge,
      if_true, Bool.false_eq_true, if_false]
    omega
  edges_eq := by
    have hedges := h.edges_eq
    simp only [edgeTotal, List.map_cons, List.sum_cons, Node.edges_mk, List.countP_cons,
      CompileEvent.isEdge, CompileEvent.isLeaf, Bool.false_eq_true, if_false] at hedges ⊢
    omega

/-- A node that was built before is shared. -/
theorem reuse (store : Store) (depth low high : Nat) (node : Node) :
    Tally store store [.reuse depth low high] [] [node] 1 0 where
  issues := store.issues_nil
  reached := by simp
  length_eq := rfl
  calls_eq := rfl
  edges_eq := rfl

/-- To remember a node builds none. -/
theorem remember (h : Tally before after events new tops calls loose) (key : Key) (node : Node) :
    Tally before (after.remember key node) events new tops calls loose :=
  { h with issues := h.issues }

end Tally

/-! ## The construction -/

section build

variable {options : CompileOptions} {levels depth low high : Nat} {store : Store}

/-- Sharing counts as the construction of a fresh node does. -/
theorem share_tally {fresh : Store → Built Node}
    (hfresh : ∃ new, Tally store (fresh store).store (fresh store).events new
      [(fresh store).result] 1 0) :
    ∃ new, Tally store (share options depth low high fresh store).store
      (share options depth low high fresh store).events new
      [(share options depth low high fresh store).result] 1 0 := by
  rcases share_cases options depth low high fresh store with
    ⟨-, hshare⟩ | ⟨node, -, hshare⟩ | ⟨-, hshare⟩
  · rw [hshare]
    exact hfresh
  · rw [hshare]
    exact ⟨[], .reuse store depth low high node⟩
  · rw [hshare]
    obtain ⟨new, htally⟩ := hfresh
    exact ⟨new, htally.remember _ _⟩

/-- A row of edges counts one loose edge for each of its children. -/
theorem growEdges_tally {below : Band → ByteRange → Store → Built Node} {bands : List Band}
    (hbelow : ∀ band ∈ bands, ∀ range store, ∃ new,
      Tally store (below band range store).store (below band range store).events new
        [(below band range store).result] 0 1) :
    ∃ new, Tally store (growEdges below bands store).store (growEdges below bands store).events new
      ((growEdges below bands store).result.map Edge.child) 0
      (growEdges below bands store).result.length := by
  induction bands generalizing store with
  | nil => exact ⟨[], .nil store⟩
  | cons band bands ih =>
      obtain ⟨hband, hbands⟩ := List.forall_mem_cons.mp hbelow
      cases hrange : band.range? with
      | none =>
          rw [growEdges_cons_of_none hrange]
          exact ih hbands
      | some range =>
          rw [growEdges_cons_of_some hrange]
          obtain ⟨new, hfirst⟩ := hband range store
          obtain ⟨later, hrest⟩ := ih hbands
          refine ⟨new ++ later, ?_⟩
          rw [List.length_cons, Nat.add_comm]
          exact hfirst.append hrest

/-- **The construction keeps the account.** -/
theorem build_tally :
    ∃ new, Tally store (build options levels depth low high store).store
      (build options levels depth low high store).events new
      [(build options levels depth low high store).result] 1 0 := by
  induction levels generalizing depth low high store with
  | zero =>
      rw [build_zero]
      exact share_tally ⟨_, (Tally.nil store).node depth low high _ _⟩
  | succ levels ih =>
      rw [build_succ]
      apply share_tally
      have hchild : ∀ band ∈ (levelFor options.encoding levels depth low high).bands,
          ∀ range store, ∃ new,
            let grown := growChild options levels depth
              (levelFor options.encoding levels depth low high) band range store
            Tally store grown.store grown.events new [grown.result] 0 1 := by
        intro band _ range store
        unfold growChild
        split
        · exact ⟨_, .leaf store depth range⟩
        · obtain ⟨new, htally⟩ := ih
          exact ⟨new, htally.edge depth range _ _⟩
      obtain ⟨new, hgrown⟩ := growEdges_tally hchild
      exact ⟨_, (hgrown.laidOut depth _).node depth low high _ _⟩

/-- Where nothing is shared no reuse is reported. -/
theorem isReuse_of_mem_events_build (h : options.memoize = false) {event : CompileEvent}
    (hevent : event ∈ (build options levels depth low high store).events) :
    event.isReuse = false := by
  induction levels generalizing depth low high store with
  | zero =>
      rw [build_zero, share_of_fresh (Or.inr h)] at hevent
      obtain rfl := List.mem_singleton.mp hevent
      rfl
  | succ levels ih =>
      rw [build_succ, share_of_fresh (Or.inr h)] at hevent
      rcases List.mem_cons.mp hevent with rfl | hevent
      · rfl
      · rcases List.mem_cons.mp hevent with rfl | hevent
        · rfl
        · obtain ⟨band, -, range, -, store', hbelow⟩ := mem_events_growEdges hevent
          unfold growChild at hbelow
          split at hbelow
          · obtain rfl := List.mem_singleton.mp hbelow
            rfl
          · rcases List.mem_cons.mp hbelow with rfl | hbelow
            · rfl
            · exact ih hbelow

end build

/-! ## The whole automaton -/

namespace Automaton

variable {options : CompileOptions} {interval : Interval}

/-- What was built is the graph: no node was built that is not reached. -/
theorem perm_nodes_of_tally {events : List CompileEvent} {new : List Node} {calls loose : Nat}
    (h : Tally .empty (storeAfter options interval) events new [(compile options interval).root]
      calls loose) : new.Perm (compile options interval).root.nodes := by
  have hcoherent := coherent_root options interval
  have hreaches : ∀ node ∈ new, (compile options interval).root.Reaches node := by
    intro node hnode
    obtain ⟨top, htop, hreaches⟩ := h.reached node hnode
    obtain rfl := List.mem_singleton.mp htop
    exact hreaches
  rw [List.perm_ext_iff_of_nodup h.issues.nodup.of_map
    (Node.nodup_map_id_nodes (compile options interval).root).of_map]
  intro node
  rw [hcoherent.mem_nodes_iff]
  constructor
  · exact hreaches node
  · intro hnode
    obtain ⟨rows, hmade, hroot⟩ := exists_made options interval
    obtain ⟨count, hnext, hids⟩ := h.issues
    -- every identity that was handed out belongs to a node of `new`
    have hid : node.id ∈ new.map Node.id := by
      have hlt := hmade.id_lt (hmade.mem_of_reaches hroot hnode)
      rw [hids.mem_iff, List.mem_range'_1]
      exact ⟨Nat.zero_le _, hnext ▸ hlt⟩
    obtain ⟨m, hm, hsame⟩ := List.mem_map.mp hid
    obtain rfl := hcoherent m node (hreaches m hm) hnode hsame
    exact hm

/-- The root is begun. -/
theorem countP_isEnter_pos (options : CompileOptions) (interval : Interval) :
    0 < (compileEvents options interval).countP CompileEvent.isEnter := by
  obtain ⟨levels, hlevels⟩ : ∃ levels, byteWidth interval.high = levels + 1 := ⟨_, rfl⟩
  have hroot : compileEvents options interval =
      (innerNode options levels 0 interval.low interval.high Store.empty).events := by
    rw [← build_root, ← hlevels]
    rfl
  rw [hroot]
  exact List.countP_pos_iff.mpr ⟨_, List.mem_cons_self, rfl⟩

/-- **The reports account for the whole automaton.** Its nodes are the ones that are reached from
the root, no two of them with one identity. There are as many nodes as nodes that are begun and
leaves together, and as many edges at all of them as there are edge events and leaves. There is an
edge event for each node that is begun, but the root, and for each reuse; and a compilation that
does not share reports no reuse. -/
theorem compileEvents_account (options : CompileOptions) (interval : Interval) :
    let automaton := compile options interval
    let nodes := automaton.root.nodes
    let entered := (compileEvents options interval).countP CompileEvent.isEnter
    let edges := (compileEvents options interval).countP CompileEvent.isEdge
    let leaves := (compileEvents options interval).countP CompileEvent.isLeaf
    let reused := (compileEvents options interval).countP CompileEvent.isReuse
    ((nodes.map Node.id).Nodup ∧ ∀ node, node ∈ nodes ↔ automaton.root.Reaches node) ∧
      automaton.nodeCount = entered + leaves ∧
      (0 < entered ∧ edges = entered - 1 + reused) ∧
      edgeTotal nodes = edges + leaves ∧
      (options.memoize = false → reused = 0) := by
  intro automaton nodes entered edges leaves reused
  obtain ⟨new, htally⟩ : ∃ new, Tally .empty (storeAfter options interval)
      (compileEvents options interval) new [automaton.root] 1 0 := build_tally
  have hperm : new.Perm nodes := perm_nodes_of_tally htally
  have hcoherent : automaton.root.Coherent := coherent_root options interval
  refine ⟨⟨automaton.root.nodup_map_id_nodes, fun node => hcoherent.mem_nodes_iff⟩, ?_, ?_, ?_, ?_⟩
  · rw [nodeCount, ← Node.length_nodes, ← hperm.length_eq]
    exact htally.length_eq
  · have hcalls := htally.calls_eq
    have hroot : 0 < entered := countP_isEnter_pos options interval
    refine ⟨hroot, ?_⟩
    change entered + reused = edges + 1 at hcalls
    omega
  · have hedges := htally.edges_eq
    rw [edgeTotal, (hperm.map _).sum_nat] at hedges
    exact hedges
  · intro hunshared
    apply List.countP_eq_zero.mpr
    intro event hevent
    rw [isReuse_of_mem_events_build hunshared hevent]
    decide

/-- The compilation of `[0xff, 0x20100]` reports four reuses where nodes are shared, and none where
they are not. -/
theorem compileEvents_account_borrow :
    (compileEvents ⟨.minimal, true⟩ ⟨0xff, 0x20100, by decide, by decide⟩).countP
        CompileEvent.isReuse = 4 ∧
      (⟨.minimal, false⟩ : CompileOptions).memoize = false ∧
      (compileEvents ⟨.minimal, false⟩ ⟨0xff, 0x20100, by decide, by decide⟩).countP
        CompileEvent.isReuse = 0 := by
  refine ⟨by decide, rfl, ?_⟩
  obtain ⟨-, -, -, -, hunshared⟩ :=
    compileEvents_account ⟨.minimal, false⟩ ⟨0xff, 0x20100, by decide, by decide⟩
  exact hunshared rfl

end Automaton

end IntervalAutomata
