import IntervalAutomata.Proofs.Compile.Remembered
import IntervalAutomata.Proofs.Compile.Residual

/-!
# Shared automata are minimal

What may still follow at a node is decided by its place in the compilation (`Stands`): a node that
was remembered unfolds to the tree of a place with its key, and the root to the tree of the whole
interval. Different places are spelled differently, therefore nodes at which the same sequences may
follow have one key and are one node.

The exception are accepting leaves under the minimal encoding. They are made anew at each end of a
value, and at all of them only the empty sequence may follow. The main statement
(`Automaton.accepts_eq_iff_of_reaches`) says that there is no other: two nodes of a shared automaton
accept the same sequences iff they are one node, or both are accepting leaves and the encoding is
the minimal one.
-/

namespace IntervalAutomata

variable {encoding : Encoding} {interval : Interval}

/-! ## Where a node stands -/

/-- A node that stands for a call of the compilation: it unfolds to the tree of the call's place. -/
structure Stands (encoding : Encoding) (interval : Interval) (levels depth low high : Nat)
    (node : Node) : Prop where
  /-- The call has been asked for. -/
  asked : Asked encoding interval levels depth low high
  /-- The node unfolds to its tree. -/
  unfolded : node.unfolded = treeFor encoding levels depth low high

namespace Stands

variable {levels levels' depth depth' low low' high high' : Nat} {m n : Node}

/-- At the node may follow what may follow at its place. -/
theorem accepts_iff (h : Stands encoding interval levels depth low high n) (bytes : List UInt8) :
    n.accepts bytes = true ↔ encoding.Spells levels depth low high bytes := by
  rw [← Node.accepts_unfolded, h.unfolded]
  exact accepts_treeFor h.asked.placed bytes

/-- Two nodes that accept the same sequences stand for calls with the same remaining encodings. -/
theorem spells_iff (hm : Stands encoding interval levels depth low high m)
    (hn : Stands encoding interval levels' depth' low' high' n)
    (haccepts : ∀ bytes, m.accepts bytes = n.accepts bytes) (bytes : List UInt8) :
    encoding.Spells levels depth low high bytes ↔
      encoding.Spells levels' depth' low' high' bytes := by
  rw [← hm.accepts_iff, ← hn.accepts_iff, haccepts bytes]

/-- Nodes at which the same may follow have one key. -/
theorem key_eq (hm : Stands encoding interval levels depth low high m)
    (hn : Stands encoding interval levels' depth' low' high' n)
    (haccepts : ∀ bytes, m.accepts bytes = n.accepts bytes) :
    Key.of encoding depth low high = Key.of encoding depth' low' high' :=
  hm.asked.placed.key_eq_of_spells_iff hn.asked.placed (hm.spells_iff hn haccepts)

end Stands

namespace Automaton

variable {m n : Node}

/-! ## Roots, remembered nodes and leaves -/

/-- The root stands for the call for the whole interval. -/
theorem stands_root (encoding : Encoding) (interval : Interval) :
    Stands encoding interval (byteWidth interval.high) 0 interval.low interval.high
      (compile ⟨encoding, true⟩ interval).root :=
  ⟨Asked.root encoding interval, unfolded_root_compile⟩

/-- What is remembered stands for a call with its key. -/
theorem exists_stands_of_mem_finished {entry : Key × Node}
    (h : entry ∈ (storeAfter ⟨encoding, true⟩ interval).finished) :
    ∃ levels depth low high, 0 < depth ∧ entry.1 = Key.of encoding depth low high ∧
      Stands encoding interval levels depth low high entry.2 := by
  obtain ⟨levels, depth, low, high, hasked, hdepth, hkey⟩ := exists_asked_of_mem_finished h
  have hfaithful : (storeAfter ⟨encoding, true⟩ interval).Faithful encoding
      (byteWidth interval.high) :=
    (build_unfolds (Placed.ofInterval interval) (Store.faithful_forget _)).faithful
  exact ⟨levels, depth, low, high, hdepth, hkey, hasked,
    hfaithful entry h levels depth low high hkey hdepth hasked.placed⟩

/-- What is remembered differs from the root in what may follow. -/
theorem not_accepts_root_eq {entry : Key × Node}
    (h : entry ∈ (storeAfter ⟨encoding, true⟩ interval).finished) :
    ¬ ∀ bytes, (compile ⟨encoding, true⟩ interval).root.accepts bytes =
      entry.2.accepts bytes := by
  obtain ⟨levels, depth, low, high, hdepth, -, hstands⟩ := exists_stands_of_mem_finished h
  have hroot := stands_root encoding interval
  intro haccepts
  exact hroot.asked.placed.not_spells_root_iff hstands.asked.placed hdepth
    (hstands.asked.high_lt_of_pos hdepth) (hroot.spells_iff hstands haccepts)

/-- Remembered nodes at which the same may follow are one node. -/
theorem eq_of_accepts_eq {entry entry' : Key × Node}
    (h : entry ∈ (storeAfter ⟨encoding, true⟩ interval).finished)
    (h' : entry' ∈ (storeAfter ⟨encoding, true⟩ interval).finished)
    (haccepts : ∀ bytes, entry.2.accepts bytes = entry'.2.accepts bytes) :
    entry.2 = entry'.2 := by
  obtain ⟨_, _, _, _, -, hkey, hstands⟩ := exists_stands_of_mem_finished h
  obtain ⟨_, _, _, _, -, hkey', hstands'⟩ := exists_stands_of_mem_finished h'
  have hkeys : entry.1 = entry'.1 := by
    rw [hkey, hkey', hstands.key_eq hstands' haccepts]
  rw [(compile_files encoding interval).closed.eq_of_key_eq h h' hkeys]

/-- A node at which the same may follow as at an accepting leaf is one. -/
theorem acceptingLeaf_of_accepts_eq (hm : (compile ⟨encoding, true⟩ interval).root.Reaches m)
    (hn : n.AcceptingLeaf) (haccepts : ∀ bytes, m.accepts bytes = n.accepts bytes) :
    m.AcceptingLeaf := by
  apply Node.acceptingLeaf_of_accepts_iff
  · intro edge hedge
    exact exists_accepts_of_reaches (hm.child hedge)
  · intro bytes
    rw [haccepts bytes]
    exact hn.accepts_iff bytes

/-! ## The main statement -/

/-- **Shared automata are minimal.** Two nodes accept the same sequences iff they are one node, or
both are accepting leaves and the encoding is the minimal one. -/
theorem accepts_eq_iff_of_reaches (hm : (compile ⟨encoding, true⟩ interval).root.Reaches m)
    (hn : (compile ⟨encoding, true⟩ interval).root.Reaches n) :
    (∀ bytes, m.accepts bytes = n.accepts bytes) ↔
      m.id = n.id ∨ (encoding = .minimal ∧ m.AcceptingLeaf ∧ n.AcceptingLeaf) := by
  constructor
  · intro haccepts
    have hsame : ∀ bytes, n.accepts bytes = m.accepts bytes := fun bytes => (haccepts bytes).symm
    rcases holds_of_reaches hm with rfl | ⟨key, hmemm⟩ | ⟨hminimal, hleaf⟩
    · rcases holds_of_reaches hn with rfl | ⟨key, hmemn⟩ | ⟨hminimal, hleaf⟩
      · exact Or.inl rfl
      · exact absurd haccepts (not_accepts_root_eq hmemn)
      · exact Or.inr ⟨hminimal, acceptingLeaf_of_accepts_eq hm hleaf haccepts, hleaf⟩
    · rcases holds_of_reaches hn with rfl | ⟨key', hmemn⟩ | ⟨hminimal, hleaf⟩
      · exact absurd hsame (not_accepts_root_eq hmemm)
      · exact Or.inl (congrArg Node.id (eq_of_accepts_eq hmemm hmemn haccepts))
      · exact Or.inr ⟨hminimal, acceptingLeaf_of_accepts_eq hm hleaf haccepts, hleaf⟩
    · exact Or.inr ⟨hminimal, hleaf, acceptingLeaf_of_accepts_eq hn hleaf hsame⟩
  · rintro (hid | ⟨-, hleafm, hleafn⟩) bytes
    · rw [eq_of_id_eq hm hn hid]
    · rw [Bool.eq_iff_iff, hleafm.accepts_iff, hleafn.accepts_iff]

/-- In the minimal automaton for `[0x5, 0x1ff]` the nodes after `00` and `05` differ in what they
accept. The leaves after `00 01` and `05 01` do not, although they are two nodes. -/
theorem accepts_eq_iff_of_reaches_leaves :
    (∃ m n, (compile ⟨.minimal, true⟩ ⟨5, 0x1ff, by decide, by decide⟩).root.follow? [0] = some m ∧
      (compile ⟨.minimal, true⟩ ⟨5, 0x1ff, by decide, by decide⟩).root.follow? [5] = some n ∧
      ¬ ∀ bytes, m.accepts bytes = n.accepts bytes) ∧
    ∃ m n,
      (compile ⟨.minimal, true⟩ ⟨5, 0x1ff, by decide, by decide⟩).root.follow? [0, 1] = some m ∧
      (compile ⟨.minimal, true⟩ ⟨5, 0x1ff, by decide, by decide⟩).root.follow? [5, 1] = some n ∧
      m.id ≠ n.id ∧ ∀ bytes, m.accepts bytes = n.accepts bytes := by
  have hm : ((compile ⟨.minimal, true⟩ ⟨5, 0x1ff, by decide, by decide⟩).root.follow? [0]).map
      (fun node => (node.id, node.edges.length)) = some (1, 1) := by decide
  have hn : ((compile ⟨.minimal, true⟩ ⟨5, 0x1ff, by decide, by decide⟩).root.follow? [5]).map
      (fun node => (node.id, node.edges.length)) = some (3, 1) := by decide
  have hk : ((compile ⟨.minimal, true⟩ ⟨5, 0x1ff, by decide, by decide⟩).root.follow? [0, 1]).map
      (fun node => (node.id, node.accepting, node.isLeaf)) = some (0, true, true) := by decide
  have hl : ((compile ⟨.minimal, true⟩ ⟨5, 0x1ff, by decide, by decide⟩).root.follow? [5, 1]).map
      (fun node => (node.id, node.accepting, node.isLeaf)) = some (2, true, true) := by decide
  obtain ⟨m, hm, hidm⟩ := Option.map_eq_some_iff.mp hm
  obtain ⟨n, hn, hidn⟩ := Option.map_eq_some_iff.mp hn
  obtain ⟨k, hk, hidk⟩ := Option.map_eq_some_iff.mp hk
  obtain ⟨l, hl, hidl⟩ := Option.map_eq_some_iff.mp hl
  simp only [Prod.mk.injEq] at hidm hidn hidk hidl
  refine ⟨⟨m, n, hm, hn, ?_⟩, k, l, hk, hl, by omega, ?_⟩
  · intro haccepts
    rcases (accepts_eq_iff_of_reaches (Node.reaches_of_follow? hm)
      (Node.reaches_of_follow? hn)).mp haccepts with hid | ⟨-, hleaf, -⟩
    · omega
    · rw [hleaf.edges_eq_nil, List.length_nil] at hidm
      omega
  · exact (accepts_eq_iff_of_reaches (Node.reaches_of_follow? hk)
      (Node.reaches_of_follow? hl)).mpr
        (Or.inr ⟨rfl, ⟨hidk.2.1, hidk.2.2⟩, ⟨hidl.2.1, hidl.2.2⟩⟩)

end Automaton

end IntervalAutomata
