import IntervalAutomata.Proofs.Node.Path

/-!
# The longest path

The depth of a node is reckoned by recursion on its edges. It is the length of the longest path
that starts at the node: no path is longer (`length_le_depth`), and some path has that length
(`exists_path_length_eq_depth`). Since a walk follows a path, no accepted sequence is longer than
the depth either (`length_le_depth_of_accepts`).
-/

namespace IntervalAutomata

namespace Node

/-! ## One node -/

/-- The depth of a node is that of its edges. -/
theorem depth_eq_depthBelow (node : Node) : node.depth = depthBelow node.edges := by
  cases node
  rw [depth, edges_mk]

/-- An edge leads to a node of smaller depth. -/
theorem depth_lt_depthBelow {edges : List (Edge Node)} {edge : Edge Node} (h : edge ∈ edges) :
    edge.child.depth < depthBelow edges := by
  induction edges with
  | nil => cases h
  | cons first edges ih =>
      rw [depthBelow]
      rcases List.mem_cons.mp h with rfl | h
      · omega
      · have hlt := ih h
        omega

/-- Unless there are no edges, one of them leads to a node whose depth is smaller by one. -/
theorem exists_depthBelow_eq {edges : List (Edge Node)} (h : edges ≠ []) :
    ∃ edge ∈ edges, depthBelow edges = edge.child.depth + 1 := by
  induction edges with
  | nil => exact absurd rfl h
  | cons first edges ih =>
      rw [depthBelow]
      by_cases hle : depthBelow edges ≤ 1 + first.child.depth
      · refine ⟨first, List.mem_cons_self, ?_⟩
        omega
      · have hne : edges ≠ [] := by
          rintro rfl
          exact hle (Nat.zero_le _)
        obtain ⟨edge, hedge, hdepth⟩ := ih hne
        refine ⟨edge, List.mem_cons_of_mem _ hedge, ?_⟩
        omega

/-! ## Paths -/

/-- No path is longer than the depth. -/
theorem length_le_depth {node target : Node} {ranges : List ByteRange}
    (h : node.Path ranges target) : ranges.length ≤ node.depth := by
  induction h with
  | here node => exact Nat.zero_le _
  | along hedge _ ih =>
      have hlt := depth_lt_depthBelow hedge
      rw [depth_eq_depthBelow, List.length_cons]
      omega

/-- Some path is as long as the depth. -/
theorem exists_path_length_eq_depth (node : Node) :
    ∃ ranges target, node.Path ranges target ∧ ranges.length = node.depth := by
  induction node using Node.induct with
  | step i a es ih =>
      by_cases hes : es = []
      · subst hes
        exact ⟨[], _, .here _, rfl⟩
      · obtain ⟨edge, hedge, hdepth⟩ := exists_depthBelow_eq hes
        obtain ⟨ranges, target, hpath, hlength⟩ := ih edge hedge
        refine ⟨edge.range :: ranges, target, .along hedge hpath, ?_⟩
        rw [depth_eq_depthBelow, edges_mk, hdepth, List.length_cons, hlength]

/-- No accepted sequence is longer than the depth. -/
theorem length_le_depth_of_accepts {node : Node} {bytes : List UInt8}
    (h : node.accepts bytes = true) : bytes.length ≤ node.depth := by
  rw [← List.append_nil bytes] at h
  obtain ⟨target, hfollow, -⟩ := accepts_append_iff.mp h
  obtain ⟨ranges, hpath, hlength⟩ := exists_path_of_follow? hfollow
  rw [← hlength]
  exact length_le_depth hpath

end Node

end IntervalAutomata
