import IntervalAutomata.Proofs.Node.Fault

/-!
# Counting the nodes of a graph

A node holds all that lies below it, and a node to which several paths lead occurs once for each of
them. Occurrences are one node if they have one identity, so that a node stands for a graph if
occurrences with one identity are equal (`Node.Coherent`).

Of a graph, `Node.visit` passes the nodes that are reached and no others
(`Node.Coherent.mem_visit_iff`), each once; `Node.nodes` lists the nodes themselves in the same
order (`Node.Coherent.mem_nodes_iff`). They may also be passed by a loop over a stack of nodes
that are still pending (`Node.passPending`). The loop meets the nodes in another order, since the
last child is on top of the stack, but counts as many (`Node.Coherent.length_passPending`). Both
rest on one invariant (`Node.Passing`): each child of a node that was passed was passed itself or is
pending.
-/

namespace IntervalAutomata

namespace Node

variable {root node target : Node} {pending : List Node} {seen : List Nat} {i : Nat}

/-- Occurrences with one identity are one node. -/
def Coherent (root : Node) : Prop :=
  ∀ m n, root.Reaches m → root.Reaches n → m.id = n.id → m = n

/-- A node's identity is one of its graph. -/
theorem id_mem_ids (node : Node) : node.id ∈ node.ids := by
  cases node
  rw [ids_mk]
  exact List.mem_cons_self

/-- The identity of every node that is reached is one of the graph. -/
theorem Reaches.id_mem_ids (h : node.Reaches target) : target.id ∈ node.ids := by
  obtain ⟨ranges, hpath⟩ := h
  induction hpath with
  | here node => exact node.id_mem_ids
  | @along node target edge ranges hedge _ ih =>
      cases node with
      | mk j a es =>
          rw [ids_mk]
          exact List.mem_cons_of_mem j (mem_idsBelow.mpr ⟨edge, hedge, ih⟩)

/-! ## What is passed and what is pending -/

/-- A state in which the nodes of a graph are passed one by one: those with the identities `seen`
were passed, those in `pending` are still to be passed. -/
structure Passing (root : Node) (pending : List Node) (seen : List Nat) : Prop where
  /-- No node was passed twice. -/
  nodup : seen.Nodup
  /-- What was passed belongs to the graph. -/
  seen_subset : ∀ i ∈ seen, i ∈ root.ids
  /-- What is pending belongs to the graph. -/
  reaches : ∀ node ∈ pending, root.Reaches node
  /-- The root is not forgotten. -/
  root_met : root.id ∈ seen ∨ root ∈ pending
  /-- No child of a node that was passed is forgotten. -/
  child_met : ∀ node, root.Reaches node → node.id ∈ seen →
    ∀ edge ∈ node.edges, edge.child.id ∈ seen ∨ edge.child ∈ pending

namespace Passing

/-- Before the start no node was passed and the root is pending. -/
theorem start (root : Node) : Passing root [root] [] where
  nodup := List.nodup_nil
  seen_subset := by
    intro i hi
    cases hi
  reaches := by
    intro node hnode
    obtain rfl := List.mem_singleton.mp hnode
    exact .refl _
  root_met := Or.inr List.mem_cons_self
  child_met := by
    intro node _ hseen
    cases hseen

/-- A pending node that was passed is dropped. -/
theorem skip (h : Passing root (node :: pending) seen) (hseen : node.id ∈ seen) :
    Passing root pending seen := by
  have hmet : ∀ m, m.id ∈ seen ∨ m ∈ node :: pending → m.id ∈ seen ∨ m ∈ pending := by
    rintro m (hm | hm)
    · exact Or.inl hm
    · rcases List.mem_cons.mp hm with rfl | hm
      · exact Or.inl hseen
      · exact Or.inr hm
  exact {
    nodup := h.nodup
    seen_subset := h.seen_subset
    reaches := fun m hm => h.reaches m (List.mem_cons_of_mem node hm)
    root_met := hmet root h.root_met
    child_met := fun m hm hmem edge hedge => hmet _ (h.child_met m hm hmem edge hedge) }

/-- A pending node that was not passed is passed, and its children are pending. -/
theorem enter (hroot : root.Coherent) (h : Passing root (node :: pending) seen)
    (hnew : node.id ∉ seen) :
    Passing root ((node.edges.map Edge.child).reverse ++ pending) (node.id :: seen) := by
  have hnode : root.Reaches node := h.reaches node List.mem_cons_self
  have hmet : ∀ m, m.id ∈ seen ∨ m ∈ node :: pending →
      m.id ∈ node.id :: seen ∨ m ∈ (node.edges.map Edge.child).reverse ++ pending := by
    rintro m (hm | hm)
    · exact Or.inl (List.mem_cons_of_mem _ hm)
    · rcases List.mem_cons.mp hm with rfl | hm
      · exact Or.inl List.mem_cons_self
      · exact Or.inr (List.mem_append_right _ hm)
  have hchild : ∀ edge ∈ node.edges, edge.child ∈ (node.edges.map Edge.child).reverse := by
    intro edge hedge
    exact List.mem_reverse.mpr (List.mem_map_of_mem hedge)
  exact {
    nodup := List.nodup_cons.mpr ⟨hnew, h.nodup⟩
    seen_subset := by
      intro i hi
      rcases List.mem_cons.mp hi with rfl | hi
      · exact hnode.id_mem_ids
      · exact h.seen_subset i hi
    reaches := by
      intro m hm
      rcases List.mem_append.mp hm with hm | hm
      · obtain ⟨edge, hedge, rfl⟩ := List.mem_map.mp (List.mem_reverse.mp hm)
        exact hnode.child hedge
      · exact h.reaches m (List.mem_cons_of_mem node hm)
    root_met := hmet root h.root_met
    child_met := by
      intro m hm hmem edge hedge
      rcases List.mem_cons.mp hmem with hid | hmem
      · obtain rfl := hroot m node hm hnode hid
        exact Or.inr (List.mem_append_left _ (hchild edge hedge))
      · exact hmet _ (h.child_met m hm hmem edge hedge) }

/-- When nothing is pending, all of the graph was passed. -/
theorem mem_iff (h : Passing root [] seen) : i ∈ seen ↔ i ∈ root.ids := by
  have hnone : ∀ m : Node, m.id ∈ seen ∨ m ∈ [] → m.id ∈ seen := by
    rintro m (hm | hm)
    · exact hm
    · cases hm
  constructor
  · exact h.seen_subset i
  · intro hi
    obtain ⟨target, hreaches, rfl⟩ := exists_reaches_of_mem_ids hi
    have hpassed : root.Reaches target ∧ target.id ∈ seen := by
      refine hreaches.induct (motive := fun m => root.Reaches m ∧ m.id ∈ seen)
        ⟨.refl root, hnone root h.root_met⟩ ?_
      rintro m ⟨hm, hmem⟩ edge hedge
      exact ⟨hm.child hedge, hnone _ (h.child_met m hm hmem edge hedge)⟩
    exact hpassed.2

/-- However the graph is passed, as many nodes are passed. -/
theorem length_eq {seen' : List Nat} (h : Passing root [] seen) (h' : Passing root [] seen') :
    seen.length = seen'.length := by
  apply List.Perm.length_eq
  rw [List.perm_ext_iff_of_nodup h.nodup h'.nodup]
  intro i
  rw [h.mem_iff, h'.mem_iff]

end Passing

/-! ## Passing by recursion -/

mutual

/-- A visit forgets no identity. -/
theorem mem_visit_of_mem : (node : Node) → ∀ seen, i ∈ seen → i ∈ node.visit seen
  | mk j a es, seen, h => by
      rw [visit]
      split
      · exact h
      · exact mem_visitBelow_of_mem es (j :: seen) (List.mem_cons_of_mem j h)

/-- A visit of edges forgets no identity. -/
theorem mem_visitBelow_of_mem : (edges : List (Edge Node)) → ∀ seen, i ∈ seen →
    i ∈ visitBelow edges seen
  | [], _, h => h
  | edge :: edges, seen, h => by
      rw [visitBelow]
      exact mem_visitBelow_of_mem edges _ (mem_visit_of_mem edge.child seen h)

end

/-- A visit of a node meets its identity. -/
theorem id_mem_visit (node : Node) (seen : List Nat) : node.id ∈ node.visit seen := by
  cases node
  rw [visit, id_mk]
  split
  · assumption
  · exact mem_visitBelow_of_mem _ _ List.mem_cons_self

/-- A visit of edges meets the identities of the children. -/
theorem child_id_mem_visitBelow {edges : List (Edge Node)} {edge : Edge Node}
    (h : edge ∈ edges) (seen : List Nat) : edge.child.id ∈ visitBelow edges seen := by
  induction edges generalizing seen with
  | nil => cases h
  | cons first edges ih =>
      rw [visitBelow]
      rcases List.mem_cons.mp h with rfl | h
      · exact mem_visitBelow_of_mem edges _ (id_mem_visit _ seen)
      · exact ih h _

mutual

/-- What is passed anew belongs to a node that is reached, and its children are passed too. -/
theorem exists_reaches_of_mem_visit : (node : Node) → ∀ seen, i ∈ node.visit seen → i ∉ seen →
    ∃ target, node.Reaches target ∧ target.id = i ∧
      ∀ edge ∈ target.edges, edge.child.id ∈ node.visit seen
  | mk j a es, seen, h, hnew => by
      by_cases hj : j ∈ seen
      · rw [visit, if_pos hj] at h
        exact absurd h hnew
      · rw [visit, if_neg hj] at h ⊢
        by_cases hi : i = j
        · subst hi
          refine ⟨_, .refl _, rfl, ?_⟩
          intro edge hedge
          exact child_id_mem_visitBelow hedge _
        · have hnew' : i ∉ j :: seen := by
            rw [List.mem_cons, not_or]
            exact ⟨hi, hnew⟩
          obtain ⟨edge, hedge, target, hreaches, hid, hchildren⟩ :=
            exists_reaches_of_mem_visitBelow es (j :: seen) h hnew'
          exact ⟨target, .below hedge hreaches, hid, hchildren⟩

/-- What a visit of edges meets is reached through one of them, and its children are met, too. -/
theorem exists_reaches_of_mem_visitBelow : (edges : List (Edge Node)) → ∀ seen,
    i ∈ visitBelow edges seen → i ∉ seen →
    ∃ edge ∈ edges, ∃ target, edge.child.Reaches target ∧ target.id = i ∧
      ∀ edge' ∈ target.edges, edge'.child.id ∈ visitBelow edges seen
  | [], _, h, hnew => absurd h hnew
  | edge :: edges, seen, h, hnew => by
      rw [visitBelow] at h ⊢
      by_cases hchild : i ∈ edge.child.visit seen
      · obtain ⟨target, hreaches, hid, hchildren⟩ :=
          exists_reaches_of_mem_visit edge.child seen hchild hnew
        refine ⟨edge, List.mem_cons_self, target, hreaches, hid, ?_⟩
        intro edge' hedge'
        exact mem_visitBelow_of_mem edges _ (hchildren edge' hedge')
      · obtain ⟨edge', hedge', rest⟩ := exists_reaches_of_mem_visitBelow edges _ h hchild
        exact ⟨edge', List.mem_cons_of_mem edge hedge', rest⟩

end

/-- The recursion passes the whole graph. -/
theorem Coherent.passing_visit (h : root.Coherent) : Passing root [] (root.visit []) where
  nodup := root.nodup_visit [] List.nodup_nil
  seen_subset := by
    intro i hi
    rcases root.mem_of_mem_visit [] hi with hnone | hids
    · cases hnone
    · exact hids
  reaches := by
    intro node hnode
    cases hnode
  root_met := Or.inl (root.id_mem_visit [])
  child_met := by
    intro node hnode hmem edge hedge
    obtain ⟨target, htarget, hid, hchildren⟩ :=
      exists_reaches_of_mem_visit root [] hmem List.not_mem_nil
    obtain rfl := h target node htarget hnode hid
    exact Or.inl (hchildren edge hedge)

/-- The recursion passes the nodes that are reached and no others. -/
theorem Coherent.mem_visit_iff (h : root.Coherent) : i ∈ root.visit [] ↔ i ∈ root.ids :=
  h.passing_visit.mem_iff

/-! ## The nodes themselves -/

mutual

/-- The nodes at and below a node, each once, added to those found before; a node found before is
not entered again. -/
def gather : Node → List Node → List Node
  | mk id accepting edges, found =>
    if id ∈ found.map Node.id then found
    else gatherBelow edges (mk id accepting edges :: found)

/-- The nodes at and below the children of some edges, added to those found before. -/
def gatherBelow : List (Edge Node) → List Node → List Node
  | [], found => found
  | edge :: edges, found => gatherBelow edges (edge.child.gather found)

end

/-- The nodes of a graph, each once. -/
def nodes (root : Node) : List Node :=
  root.gather []

mutual

/-- Nodes are found in the order in which their identities are passed. -/
theorem map_id_gather : (node : Node) → ∀ found : List Node,
    (node.gather found).map Node.id = node.visit (found.map Node.id)
  | mk j a es, found => by
      rw [gather, visit]
      split
      · rfl
      · exact map_id_gatherBelow es (mk j a es :: found)

/-- The nodes gathered below edges have the identities that a visit meets. -/
theorem map_id_gatherBelow : (edges : List (Edge Node)) → ∀ found : List Node,
    (gatherBelow edges found).map Node.id = visitBelow edges (found.map Node.id)
  | [], _ => rfl
  | edge :: edges, found => by
      rw [gatherBelow, visitBelow, ← map_id_gather edge.child found]
      exact map_id_gatherBelow edges _

end

mutual

/-- What is found was found before or is reached. -/
theorem mem_or_reaches_of_mem_gather : (node : Node) → ∀ found : List Node,
    target ∈ node.gather found → target ∈ found ∨ node.Reaches target
  | mk j a es, found, h => by
      rw [gather] at h
      split at h
      · exact Or.inl h
      · rcases mem_or_reaches_of_mem_gatherBelow es _ h with hfound | ⟨edge, hedge, hreaches⟩
        · rcases List.mem_cons.mp hfound with rfl | hfound
          · exact Or.inr (.refl _)
          · exact Or.inl hfound
        · exact Or.inr (.below hedge hreaches)

/-- A node gathered below edges was found before or is reached through one of them. -/
theorem mem_or_reaches_of_mem_gatherBelow : (edges : List (Edge Node)) → ∀ found : List Node,
    target ∈ gatherBelow edges found →
    target ∈ found ∨ ∃ edge ∈ edges, edge.child.Reaches target
  | [], _, h => Or.inl h
  | edge :: edges, found, h => by
      rw [gatherBelow] at h
      rcases mem_or_reaches_of_mem_gatherBelow edges _ h with hchild | ⟨edge', hedge', hreaches⟩
      · rcases mem_or_reaches_of_mem_gather edge.child found hchild with hfound | hreaches
        · exact Or.inl hfound
        · exact Or.inr ⟨edge, List.mem_cons_self, hreaches⟩
      · exact Or.inr ⟨edge', List.mem_cons_of_mem edge hedge', hreaches⟩

end

/-- No two of the nodes have one identity. -/
theorem nodup_map_id_nodes (root : Node) : (root.nodes.map Node.id).Nodup := by
  rw [nodes, map_id_gather]
  exact root.nodup_visit [] List.nodup_nil

/-- There are as many nodes as identities. -/
theorem length_nodes (root : Node) : root.nodes.length = root.nodeCount := by
  rw [nodeCount, ← List.length_map (f := Node.id), nodes, map_id_gather, List.map_nil]

/-- The nodes of a graph are those that are reached. -/
theorem Coherent.mem_nodes_iff (h : root.Coherent) : node ∈ root.nodes ↔ root.Reaches node := by
  have hreaches : ∀ m ∈ root.nodes, root.Reaches m := by
    intro m hm
    rcases mem_or_reaches_of_mem_gather root [] hm with hnone | hreaches
    · cases hnone
    · exact hreaches
  constructor
  · exact hreaches node
  · intro hnode
    have hid : node.id ∈ root.nodes.map Node.id := by
      rw [nodes, map_id_gather]
      exact h.mem_visit_iff.mpr hnode.id_mem_ids
    obtain ⟨m, hm, hsame⟩ := List.mem_map.mp hid
    obtain rfl := h m node (hreaches m hm) hnode hsame
    exact hm

/-! ## Passing by a loop -/

/-- How many nodes there are to pass if every node is passed once for each path to it. -/
def pathsLeft (pending : List Node) : Nat :=
  (pending.map fun node => node.ids.length).sum

/-- There is one path less to follow when a node gives way to its children. -/
theorem pathsLeft_cons (node : Node) (pending : List Node) :
    pathsLeft (node :: pending) =
      pathsLeft ((node.edges.map Edge.child).reverse ++ pending) + 1 := by
  cases node with
  | mk j a es =>
      simp only [pathsLeft, edges_mk, ids_mk, List.length_cons, length_idsBelow,
        List.map_append, List.map_map, List.map_reverse, List.sum_append, List.sum_reverse,
        List.map_cons, List.sum_cons, Function.comp_def]
      omega

/-- The identities of the pending nodes and of all below them, each once, added to those seen
before. The first pending node is taken, and unless it was seen its children are pending before all
others, the last one first. -/
def passPending : List Node → List Nat → List Nat
  | [], seen => seen
  | node :: pending, seen =>
    if node.id ∈ seen then passPending pending seen
    else passPending ((node.edges.map Edge.child).reverse ++ pending) (node.id :: seen)
termination_by pending => pathsLeft pending
decreasing_by
  · rw [pathsLeft_cons, pathsLeft, pathsLeft, List.map_append, List.sum_append]
    omega
  · rw [pathsLeft_cons]
    exact Nat.lt_succ_self _

/-- Each step of the loop keeps the invariant, and nothing is pending at its end. -/
theorem Passing.passPending (hroot : root.Coherent) (h : Passing root pending seen) :
    Passing root [] (passPending pending seen) := by
  induction pending, seen using Node.passPending.induct with
  | case1 seen =>
      rw [Node.passPending]
      exact h
  | case2 seen node pending hseen ih =>
      rw [Node.passPending, if_pos hseen]
      exact ih (h.skip hseen)
  | case3 seen node pending hnew ih =>
      rw [Node.passPending, if_neg hnew]
      exact ih (h.enter hroot hnew)

/-- The loop counts as many nodes as the recursion. -/
theorem Coherent.length_passPending (h : root.Coherent) :
    (passPending [root] []).length = root.nodeCount :=
  ((Passing.start root).passPending h).length_eq h.passing_visit

end Node

end IntervalAutomata
