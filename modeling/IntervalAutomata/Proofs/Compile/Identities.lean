import IntervalAutomata.Compile.Session
import IntervalAutomata.Proofs.Compile.Unrolling
import IntervalAutomata.Proofs.Node.Identities

/-!
# Identities in an unshared construction

Where nothing is shared, every identity that the store hands out goes to exactly one node of the
result: the identities of the result are, up to order, the row of numbers from the first that was
free before to the last that was taken (`build_issues`). So no two occurrences in the result are one
node (`nodup_ids_build`).
-/

namespace IntervalAutomata

/-! ## Rows of identities -/

/-- The identities are those handed out between two stores, each once and in some order. -/
def Store.Issues (before after : Store) (ids : List Nat) : Prop :=
  ∃ count, after.next = before.next + count ∧ ids.Perm (List.range' before.next count)

namespace Store

variable {first second third : Store} {xs ys : List Nat}

/-- Between a store and itself no identity is handed out. -/
theorem issues_nil (store : Store) : store.Issues store [] :=
  ⟨0, rfl, List.Perm.refl _⟩

/-- Rows that follow each other make one row. -/
theorem Issues.append (h : first.Issues second xs) (h' : second.Issues third ys) :
    first.Issues third (xs ++ ys) := by
  obtain ⟨m, hm, hxs⟩ := h
  obtain ⟨n, hn, hys⟩ := h'
  refine ⟨m + n, by omega, ?_⟩
  rw [hm] at hys
  rw [← List.range'_append_1]
  exact hxs.append hys

/-- A new node has the identity after the row of those below it. -/
theorem Issues.cons (h : first.Issues second xs) :
    first.Issues { second with next := second.next + 1 } (second.next :: xs) := by
  obtain ⟨m, hm, hxs⟩ := h
  refine ⟨m + 1, by dsimp only; omega, ?_⟩
  rw [List.range'_1_concat, ← hm]
  exact (hxs.cons second.next).trans (List.perm_append_singleton _ _).symm

/-- No identity is handed out twice. -/
theorem Issues.nodup (h : first.Issues second xs) : xs.Nodup := by
  obtain ⟨m, -, hxs⟩ := h
  exact hxs.symm.nodup List.nodup_range'

end Store

/-! ## The construction -/

variable {options : CompileOptions} {levels depth low high : Nat} {store : Store}

/-- A row of edges hands out the identities of its children. -/
theorem growEdges_issues {below : Band → ByteRange → Store → Built Node} {bands : List Band}
    (hbelow : ∀ band ∈ bands, ∀ (range : ByteRange) (store : Store),
      store.Issues (below band range store).store (below band range store).result.ids) :
    store.Issues (growEdges below bands store).store
      (Node.idsBelow (growEdges below bands store).result) := by
  induction bands generalizing store with
  | nil => exact store.issues_nil
  | cons band bands ih =>
      obtain ⟨hband, hbands⟩ := List.forall_mem_cons.mp hbelow
      cases hrange : band.range? with
      | none =>
          rw [growEdges_cons_of_none hrange]
          exact ih hbands
      | some range =>
          rw [growEdges_cons_of_some hrange, Node.idsBelow_cons]
          exact (hband range store).append (ih hbands)

/-- **Every identity handed out goes to one node of the result.** -/
theorem build_issues (h : options.memoize = false) :
    store.Issues (build options levels depth low high store).store
      (build options levels depth low high store).result.ids := by
  induction levels generalizing depth low high store with
  | zero =>
      rw [build_zero, share_of_fresh (Or.inr h), endNode, Node.ids_mk]
      exact store.issues_nil.cons
  | succ levels ih =>
      rw [build_succ, share_of_fresh (Or.inr h), innerNode, Node.ids_mk]
      refine (growEdges_issues ?_).cons
      intro band _ range store
      rw [growChild]
      split
      · rw [growLeaf, Store.newNode, Node.ids_mk]
        exact store.issues_nil.cons
      · exact ih

/-- No two occurrences in an unshared result are one node. -/
theorem nodup_ids_build (h : options.memoize = false) :
    (build options levels depth low high store).result.ids.Nodup :=
  (build_issues h).nodup

end IntervalAutomata
