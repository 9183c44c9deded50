import IntervalAutomata.Proofs.Node.Ascending
import IntervalAutomata.Proofs.Node.Path

/-!
# What the partition check decides

The check compares neighbouring edges only. Ranges are not empty, so what is in order between
neighbours is in order between any two edges of a row (`rowFault?_eq_none_iff`), and no fault is
found iff the edges ascend at every node of the graph (`Node.partitionFault?_eq_none_iff`).
-/

namespace IntervalAutomata

/-! ## One row of edges -/

/-- Two ranges share a byte, or the later one lies wholly below the earlier, or it lies wholly above
it. The first two are faults. -/
theorem pairFault?_cases (depth : Nat) (first second : ByteRange) :
    (pairFault? depth first second = some (.overlap depth first second) ∧
      second.low ≤ first.high ∧ first.low ≤ second.high) ∨
    (pairFault? depth first second = some (.unordered depth first second) ∧
      second.high < first.low) ∨
    (pairFault? depth first second = none ∧ first.high < second.low) := by
  have hfirst := first.low_le_high
  have hsecond := second.low_le_high
  unfold pairFault?
  by_cases hoverlap : first.overlaps second = true
  · rw [if_pos hoverlap]
    exact Or.inl ⟨rfl, of_decide_eq_true hoverlap⟩
  · have hapart : ¬(second.low ≤ first.high ∧ first.low ≤ second.high) := by
      intro hshare
      exact hoverlap (decide_eq_true hshare)
    rw [if_neg hoverlap]
    by_cases hbelow : second.low < first.low
    · rw [if_pos hbelow]
      exact Or.inr (Or.inl ⟨rfl, by omega⟩)
    · rw [if_neg hbelow]
      exact Or.inr (Or.inr ⟨rfl, by omega⟩)

/-- Of two neighbouring edges the later one lies wholly above the earlier, or a fault is found. -/
theorem pairFault?_eq_none_iff (depth : Nat) {first second : ByteRange} :
    pairFault? depth first second = none ↔ first.high < second.low := by
  have hfirst := first.low_le_high
  have hsecond := second.low_le_high
  obtain ⟨hpair, hshare⟩ | ⟨hpair, hbelow⟩ | ⟨hpair, habove⟩ := pairFault?_cases depth first second
  · exact iff_of_false (by simp [hpair]) (by omega)
  · exact iff_of_false (by simp [hpair]) (by omega)
  · exact iff_of_true hpair habove

/-- What holds of neighbours holds of any two ranges of a row. -/
theorem rowFault?_eq_none_iff (depth : Nat) {ranges : List ByteRange} :
    rowFault? depth ranges = none ↔
      ranges.Pairwise fun first second => first.high < second.low := by
  induction ranges with
  | nil => simp [rowFault?]
  | cons first ranges ih =>
      cases ranges with
      | nil => simp [rowFault?]
      | cons second ranges =>
          have hstep : rowFault? depth (first :: second :: ranges) = none ↔
              first.high < second.low ∧ rowFault? depth (second :: ranges) = none := by
            rw [← pairFault?_eq_none_iff depth, rowFault?]
            cases pairFault? depth first second <;> simp
          rw [hstep, ih, List.pairwise_cons (a := first)]
          apply and_congr_left
          intro hrest
          constructor
          · intro hlt range hrange
            rcases List.mem_cons.mp hrange with rfl | hrange
            · exact hlt
            · have hsecond := second.low_le_high
              have hnext := (List.pairwise_cons.mp hrest).1 range hrange
              omega
          · intro hall
            exact hall second List.mem_cons_self

/-! ## The whole graph -/

namespace Node

/-- There is no fault below edges if no child has one. -/
theorem partitionFaultBelow?_eq_none_iff {edges : List (Edge Node)} {depth : Nat} :
    partitionFaultBelow? edges depth = none ↔
      ∀ edge ∈ edges, edge.child.partitionFaultAt? depth = none := by
  induction edges with
  | nil => simp [partitionFaultBelow?]
  | cons edge edges ih =>
      rw [partitionFaultBelow?, List.forall_mem_cons, ← ih]
      cases partitionFaultBelow? edges depth <;> simp

/-- There is no fault at a node if its edges ascend and no child has one. -/
theorem partitionFaultAt?_eq_none_iff {node : Node} {depth : Nat} :
    node.partitionFaultAt? depth = none ↔
      Ascending node.edges ∧
        ∀ edge ∈ node.edges, edge.child.partitionFaultAt? (depth + 1) = none := by
  cases node with
  | mk i a es =>
      rw [partitionFaultAt?, edges_mk, ← partitionFaultBelow?_eq_none_iff, Ascending,
        ← List.pairwise_map (f := Edge.range) (R := fun first second => first.high < second.low),
        ← rowFault?_eq_none_iff depth]
      cases rowFault? depth (es.map Edge.range) <;> simp

/-- **No fault is found iff the edges ascend at every node**. -/
theorem partitionFault?_eq_none_iff {root : Node} :
    root.partitionFault? = none ↔ ∀ node, root.Reaches node → Ascending node.edges := by
  constructor
  · intro hnone node hreaches
    have hat : ∃ depth, node.partitionFaultAt? depth = none := by
      refine hreaches.induct (motive := fun node => ∃ depth, node.partitionFaultAt? depth = none)
        ⟨0, hnone⟩ ?_
      rintro node ⟨depth, hnode⟩ edge hedge
      exact ⟨depth + 1, (partitionFaultAt?_eq_none_iff.mp hnode).2 edge hedge⟩
    obtain ⟨depth, hnode⟩ := hat
    exact (partitionFaultAt?_eq_none_iff.mp hnode).1
  · intro hascending
    have hat : ∀ depth, root.partitionFaultAt? depth = none := by
      induction root using Node.induct with
      | step i a es ih =>
          intro depth
          rw [partitionFaultAt?_eq_none_iff]
          refine ⟨hascending _ (Reaches.refl _), ?_⟩
          intro edge hedge
          apply ih edge hedge
          intro node hreaches
          exact hascending node (hreaches.below hedge)
    exact hat 0

end Node

end IntervalAutomata
