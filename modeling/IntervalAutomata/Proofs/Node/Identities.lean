import IntervalAutomata.Proofs.Node.Renaming

/-!
# Identities and the number of nodes

`Node.ids` lists the identities at and below a node as the unfolding meets them, so that a node to
which several paths lead is listed once for each. `Node.nodeCount` passes each identity once:

* it is at most the number of nodes of the unfolding (`nodeCount_le`);
* it is that number if no identity is listed twice (`nodeCount_of_nodup`);
* it is at most any bound of the identities (`nodeCount_le_of_ids_lt`).

Since a renaming keeps the length of the list (`ids_rename`), a graph that shares nodes has no more
of them than a graph with the same unfolding that shares none (`nodeCount_le_of_unfolded_eq`).
-/

namespace IntervalAutomata

namespace Node

mutual

/-- The identities at and below a node, the node's own first, once for each path to them. -/
def ids : Node → List Nat
  | mk id _ edges => id :: idsBelow edges

/-- The identities at and below the children of some edges. -/
def idsBelow : List (Edge Node) → List Nat
  | [] => []
  | edge :: edges => edge.child.ids ++ idsBelow edges

end

/-- The identities of a node are its own and those below its edges. -/
@[simp] theorem ids_mk (i : Nat) (a : Bool) (es : List (Edge Node)) :
    (mk i a es).ids = i :: idsBelow es := by
  rw [ids]

/-- Below an empty row of edges there are no identities. -/
@[simp] theorem idsBelow_nil : idsBelow [] = [] := rfl

/-- The identities of the first child come before those of the others. -/
@[simp] theorem idsBelow_cons (edge : Edge Node) (edges : List (Edge Node)) :
    idsBelow (edge :: edges) = edge.child.ids ++ idsBelow edges := by
  rw [idsBelow]

mutual

/-- A renaming renames each identity of a node. -/
theorem ids_rename (f : Nat → Nat) : (node : Node) → (node.rename f).ids = node.ids.map f
  | mk i a es => by
      rw [rename, ids_mk, ids_mk, idsBelow_rename f es, List.map_cons]

/-- A renaming renames each identity below edges. -/
theorem idsBelow_rename (f : Nat → Nat) :
    (edges : List (Edge Node)) → idsBelow (renameEdges f edges) = (idsBelow edges).map f
  | [] => rfl
  | edge :: edges => by
      rw [renameEdges, idsBelow_cons, idsBelow_cons, List.map_append, ids_rename f edge.child,
        idsBelow_rename f edges]

end

/-- An identity below edges is one of a child. -/
theorem mem_idsBelow {edges : List (Edge Node)} {i : Nat} :
    i ∈ idsBelow edges ↔ ∃ edge ∈ edges, i ∈ edge.child.ids := by
  induction edges with
  | nil => simp
  | cons edge edges ih => simp [ih]

/-- A renaming is given by the images of the identities that occur. -/
theorem rename_congr {f g : Nat → Nat} {node : Node} (h : ∀ i ∈ node.ids, f i = g i) :
    node.rename f = node.rename g := by
  induction node using Node.induct with
  | step j a es ih =>
      rw [ids_mk] at h
      have hes : ∀ e ∈ es, Edge.rename f e = Edge.rename g e := by
        intro e he
        rw [Edge.rename, Edge.rename, ih e he]
        intro i hi
        exact h i (List.mem_cons_of_mem j (mem_idsBelow.mpr ⟨e, he, hi⟩))
      rw [rename_mk, rename_mk, List.map_congr_left hes, h j List.mem_cons_self]

/-- The number of nodes of the unfolding depends on the unfolding alone. -/
theorem length_ids_of_unfolded_eq {a b : Node} (h : a.unfolded = b.unfolded) :
    a.ids.length = b.ids.length := by
  refine eq_of_unfolded_eq (g := fun node => node.ids.length) ?_ h
  intro f node
  simp only [ids_rename, List.length_map]

/-! ## Passing every node once -/

mutual

/-- No more identities are added than the node has occurrences below it. -/
theorem length_visit_le :
    (node : Node) → ∀ seen, (node.visit seen).length ≤ seen.length + node.ids.length
  | mk i a es, seen => by
      rw [visit, ids_mk, List.length_cons]
      have hbelow := length_visitBelow_le es (i :: seen)
      rw [List.length_cons] at hbelow
      split <;> omega

/-- A visit of edges meets at most as many identities as there are occurrences. -/
theorem length_visitBelow_le : (edges : List (Edge Node)) → ∀ seen,
    (visitBelow edges seen).length ≤ seen.length + (idsBelow edges).length
  | [], seen => by simp [visitBelow]
  | edge :: edges, seen => by
      rw [visitBelow, idsBelow_cons, List.length_append]
      have hchild := length_visit_le edge.child seen
      have hrest := length_visitBelow_le edges (edge.child.visit seen)
      omega

end

mutual

/-- What is passed was seen before or occurs in the graph. -/
theorem mem_of_mem_visit {i : Nat} :
    (node : Node) → ∀ seen, i ∈ node.visit seen → i ∈ seen ∨ i ∈ node.ids
  | mk j a es, seen, h => by
      rw [visit] at h
      split at h
      · exact Or.inl h
      · rw [ids_mk, List.mem_cons]
        rcases mem_of_mem_visitBelow es (j :: seen) h with hseen | hbelow
        · rcases List.mem_cons.mp hseen with rfl | hseen
          · exact Or.inr (Or.inl rfl)
          · exact Or.inl hseen
        · exact Or.inr (Or.inr hbelow)

/-- A visit of edges meets nothing but what was met before or occurs below them. -/
theorem mem_of_mem_visitBelow {i : Nat} : (edges : List (Edge Node)) → ∀ seen,
    i ∈ visitBelow edges seen → i ∈ seen ∨ i ∈ idsBelow edges
  | [], _, h => Or.inl h
  | edge :: edges, seen, h => by
      rw [visitBelow] at h
      rw [idsBelow_cons, List.mem_append]
      rcases mem_of_mem_visitBelow edges _ h with hseen | hbelow
      · rcases mem_of_mem_visit edge.child seen hseen with hseen | hchild
        · exact Or.inl hseen
        · exact Or.inr (Or.inl hchild)
      · exact Or.inr (Or.inr hbelow)

end

mutual

/-- No identity is passed twice. -/
theorem nodup_visit : (node : Node) → ∀ seen, seen.Nodup → (node.visit seen).Nodup
  | mk i a es, seen, h => by
      rw [visit]
      split
      · exact h
      · rename_i hnew
        exact nodup_visitBelow es (i :: seen) (List.nodup_cons.mpr ⟨hnew, h⟩)

/-- A visit of edges meets no identity twice. -/
theorem nodup_visitBelow : (edges : List (Edge Node)) → ∀ seen, seen.Nodup →
    (visitBelow edges seen).Nodup
  | [], _, h => h
  | edge :: edges, seen, h => by
      rw [visitBelow]
      exact nodup_visitBelow edges _ (nodup_visit edge.child seen h)

end

mutual

/-- If no identity was seen or occurs twice, all of them are added. -/
theorem visit_of_nodup : (node : Node) → ∀ seen, (node.ids.reverse ++ seen).Nodup →
    node.visit seen = node.ids.reverse ++ seen
  | mk i a es, seen, h => by
      rw [ids_mk, List.reverse_cons, List.append_assoc, List.singleton_append] at h ⊢
      have hi : i ∉ seen := by
        have htail := (List.nodup_append.mp h).2.1
        exact (List.nodup_cons.mp htail).1
      rw [visit, if_neg hi]
      exact visitBelow_of_nodup es (i :: seen) h

/-- Where no identity occurs twice below edges, a visit meets all of them. -/
theorem visitBelow_of_nodup : (edges : List (Edge Node)) → ∀ seen,
    ((idsBelow edges).reverse ++ seen).Nodup →
    visitBelow edges seen = (idsBelow edges).reverse ++ seen
  | [], seen, _ => by simp [visitBelow]
  | edge :: edges, seen, h => by
      rw [idsBelow_cons, List.reverse_append, List.append_assoc] at h ⊢
      have hchild := (List.nodup_append.mp h).2.1
      rw [visitBelow, visit_of_nodup edge.child seen hchild]
      exact visitBelow_of_nodup edges _ h

end

/-- A graph has at most as many nodes as its unfolding. -/
theorem nodeCount_le (node : Node) : node.nodeCount ≤ node.ids.length := by
  have h := node.length_visit_le []
  rwa [List.length_nil, Nat.zero_add] at h

/-- A graph whose identities lie below a bound has at most as many nodes. -/
theorem nodeCount_le_of_ids_lt {node : Node} {bound : Nat} (h : ∀ i ∈ node.ids, i < bound) :
    node.nodeCount ≤ bound := by
  have hnodup : (node.visit []).Nodup := node.nodup_visit [] List.nodup_nil
  have hsubset : node.visit [] ⊆ List.range bound := by
    intro i hi
    rcases node.mem_of_mem_visit [] hi with hseen | hids
    · cases hseen
    · exact List.mem_range.mpr (h i hids)
  have hlength := hnodup.length_le_of_subset hsubset
  rwa [List.length_range] at hlength

/-- A graph in which no two occurrences are one node has all the nodes of its unfolding. -/
theorem nodeCount_of_nodup {node : Node} (h : node.ids.Nodup) :
    node.nodeCount = node.ids.length := by
  have hrev : (node.ids.reverse ++ []).Nodup := by
    rw [List.append_nil]
    exact (List.reverse_perm node.ids).symm.nodup h
  rw [nodeCount, node.visit_of_nodup [] hrev, List.append_nil, List.length_reverse]

/-- Sharing nodes never adds any. -/
theorem nodeCount_le_of_unfolded_eq {a b : Node} (h : a.unfolded = b.unfolded)
    (hb : b.ids.Nodup) : a.nodeCount ≤ b.nodeCount := by
  rw [nodeCount_of_nodup hb, ← length_ids_of_unfolded_eq h]
  exact a.nodeCount_le

end Node

end IntervalAutomata
