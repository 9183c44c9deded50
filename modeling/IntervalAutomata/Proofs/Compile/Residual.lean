import IntervalAutomata.Proofs.Compile.Accepted
import IntervalAutomata.Proofs.Compile.Sharing
import IntervalAutomata.Proofs.Node.Path

/-!
# What may still follow at a node

At a place of the recursion the sequences that may still follow are those that spell a number
between the bounds (`Encoding.Spells`). This file says how far those sequences fix the place.

* **Every number between the bounds is spelled** (`Encoding.exists_continues`,
  `Placed.exists_spells`), so that at least one sequence may follow at every place.
* **Different places are spelled differently** (`Placed.key_eq_of_spells_iff`): places at which the
  same sequences may follow have the same bounds, and under the padded encoding also the same
  depth.
* **The root is spelled like no place below it** (`Placed.not_spells_root_iff`).
* **All nodes of the tree are trees for a place** (`exists_placed_of_path`). So every node of a
  compiled automaton unfolds to the tree for a place as far below the root as the path is long
  (`Automaton.exists_unfolded_of_path_root`) and accepts what may follow there
  (`Automaton.exists_placed_of_path_root`), which is at least one sequence
  (`Automaton.exists_accepts_of_reaches`).
-/

namespace IntervalAutomata

variable {encoding : Encoding} {width levels levels' depth depth' low low' high high' : Nat}

/-! ## Spelling a number -/

/-- A number written with as many bytes as it needs is trimmed, unless it is zero. -/
theorem trimmed_littleEndian_byteWidth {n : Nat} (h : 0 < n) :
    Trimmed (littleEndian (byteWidth n) n) := by
  obtain ⟨k, hk⟩ : ∃ k, byteWidth n = k + 1 := ⟨_, rfl⟩
  have hlt := lt_pow_byteWidth n
  rw [hk] at hlt ⊢
  apply trimmed_littleEndian _ hlt
  cases k with
  | zero =>
      rw [Nat.pow_zero]
      exact h
  | succ k => exact pow_le_of_byteWidth (Nat.succ_pos k) hk

/-- At each depth every number that fits into the levels is read from a sequence that may
follow. -/
theorem Encoding.exists_continues (encoding : Encoding) (depth : Nat) {n : Nat}
    (h : n < 256 ^ levels) :
    ∃ bytes, encoding.Continues levels depth bytes ∧ ofLittleEndian bytes = n := by
  have hread := ofLittleEndian_littleEndian (lt_pow_byteWidth n)
  cases encoding with
  | padded =>
      exact ⟨littleEndian levels n, length_littleEndian levels n, ofLittleEndian_littleEndian h⟩
  | minimal =>
      by_cases hdepth : depth = 0
      · refine ⟨littleEndian (byteWidth n) n, ?_, hread⟩
        rw [Encoding.Continues, if_pos hdepth]
        exact ⟨List.cons_ne_nil _ _, trimmed_tail_minimal n⟩
      · rcases Nat.eq_zero_or_pos n with rfl | hpos
        · refine ⟨[], ?_, rfl⟩
          rw [Encoding.Continues, if_neg hdepth]
          exact trimmed_nil
        · refine ⟨littleEndian (byteWidth n) n, ?_, hread⟩
          rw [Encoding.Continues, if_neg hdepth]
          exact trimmed_littleEndian_byteWidth hpos

namespace Placed

/-- Every number between the bounds is spelled. -/
theorem exists_spells (h : Placed width levels depth low high) {n : Nat} (hlo : low ≤ n)
    (hhi : n ≤ high) :
    ∃ bytes, encoding.Spells levels depth low high bytes ∧ ofLittleEndian bytes = n := by
  have hlt : n < 256 ^ levels := Nat.lt_of_le_of_lt hhi h.high_lt
  obtain ⟨bytes, hcont, hread⟩ := encoding.exists_continues depth hlt
  refine ⟨bytes, ⟨hcont, ?_, ?_⟩, hread⟩
  · rw [hread]
    exact hlo
  · rw [hread]
    exact hhi

/-- If all that may follow at one place may follow at another, the bounds of the one lie between
those of the other. -/
theorem bounds_of_spells_imp (h : Placed width levels depth low high)
    (himp : ∀ bytes, encoding.Spells levels depth low high bytes →
      encoding.Spells levels' depth' low' high' bytes) : low' ≤ low ∧ high ≤ high' := by
  constructor
  · obtain ⟨bytes, hspells, hread⟩ := h.exists_spells (Nat.le_refl low) h.low_le_high
    obtain ⟨-, hlo, -⟩ := himp bytes hspells
    rwa [hread] at hlo
  · obtain ⟨bytes, hspells, hread⟩ := h.exists_spells h.low_le_high (Nat.le_refl high)
    obtain ⟨-, -, hhi⟩ := himp bytes hspells
    rwa [hread] at hhi

/-- Under the padded encoding what may follow fixes the number of levels. -/
theorem levels_eq_of_spells_imp (h : Placed width levels depth low high)
    (himp : ∀ bytes, Encoding.padded.Spells levels depth low high bytes →
      Encoding.padded.Spells levels' depth' low' high' bytes) : levels = levels' := by
  obtain ⟨bytes, hspells, -⟩ := h.exists_spells (Nat.le_refl low) h.low_le_high
  obtain ⟨hlength, -⟩ := himp bytes hspells
  exact hspells.1.symm.trans hlength

/-- **Different places are spelled differently**: places at which the same sequences may follow
have one key. -/
theorem key_eq_of_spells_iff (h : Placed width levels depth low high)
    (h' : Placed width levels' depth' low' high')
    (hiff : ∀ bytes, encoding.Spells levels depth low high bytes ↔
      encoding.Spells levels' depth' low' high' bytes) :
    Key.of encoding depth low high = Key.of encoding depth' low' high' := by
  obtain ⟨hlow, hhigh⟩ := h.bounds_of_spells_imp fun bytes => (hiff bytes).mp
  obtain ⟨hlow', hhigh'⟩ := h'.bounds_of_spells_imp fun bytes => (hiff bytes).mpr
  obtain rfl : low = low' := Nat.le_antisymm hlow' hlow
  obtain rfl : high = high' := Nat.le_antisymm hhigh hhigh'
  cases encoding with
  | minimal => rfl
  | padded =>
      have hlevels := h.levels_eq_of_spells_imp fun bytes => (hiff bytes).mp
      have hsum := h.depth_add_levels
      have hsum' := h'.depth_add_levels
      obtain rfl : depth = depth' := by omega
      rfl

/-- **The root is spelled like no place below it**, as the upper bound there is smaller or zero. -/
theorem not_spells_root_iff (h : Placed width levels 0 low high)
    (h' : Placed width levels' depth' low' high') (hdepth : 0 < depth')
    (hhigh : high' = 0 ∨ high' < high) :
    ¬ ∀ bytes, encoding.Spells levels 0 low high bytes ↔
      encoding.Spells levels' depth' low' high' bytes := by
  intro hiff
  cases encoding with
  | padded =>
      have hlevels := h.levels_eq_of_spells_imp fun bytes => (hiff bytes).mp
      have hsum := h.depth_add_levels
      have hsum' := h'.depth_add_levels
      omega
  | minimal =>
      obtain ⟨-, hle⟩ := h.bounds_of_spells_imp fun bytes => (hiff bytes).mp
      -- zero is all that is left, which the root spells by a byte and other places by none
      have hroot : Encoding.minimal.Spells levels 0 low high [0] := by
        have hlow := h.low_le_high
        refine ⟨⟨List.cons_ne_nil _ _, trimmed_nil⟩, ?_, Nat.zero_le _⟩
        change low ≤ 0
        omega
      obtain ⟨hcont, -, -⟩ := (hiff [0]).mp hroot
      rw [Encoding.Continues, if_neg (Nat.ne_of_gt hdepth)] at hcont
      exact trimmed_singleton.mp hcont rfl

end Placed

/-! ## The nodes of the tree -/

/-- What lies below a band is the tree for the bounds of its child, also where a value ends: there
the bounds are zero, and the tree for zero has no edge. -/
theorem childFor_eq_treeFor {band : Band}
    (hband : band ∈ (levelFor encoding levels depth low high).bands) :
    childFor encoding levels depth (levelFor encoding levels depth low high) band =
      treeFor encoding levels (depth + 1) band.childLow band.childHigh := by
  unfold childFor
  split
  · rename_i hlast
    obtain ⟨hlayout, rfl⟩ := hlast
    obtain ⟨hlow, hhigh⟩ := Level.child_of_singleByte hlayout hband
    rw [hlow, hhigh, treeFor_minimal_zero (Nat.succ_pos depth)]
  · rfl

/-- Along every path the tree for a place leads to the tree for a place, one level below for each
edge. -/
theorem exists_placed_of_path {node : Node} {ranges : List ByteRange}
    (hplaced : Placed width levels depth low high)
    (hpath : (treeFor encoding levels depth low high).Path ranges node) :
    ∃ levels' low' high', Placed width levels' (depth + ranges.length) low' high' ∧
      node = treeFor encoding levels' (depth + ranges.length) low' high' := by
  induction ranges generalizing levels depth low high with
  | nil =>
      cases hpath
      exact ⟨levels, low, high, hplaced, rfl⟩
  | cons range ranges ih =>
      cases levels with
      | zero =>
          cases hpath with
          | along hedge => cases hedge
      | succ levels =>
          cases hpath with
          | along hedge hbelow =>
              rw [treeFor_succ, Node.edges_mk] at hedge
              obtain ⟨band, hband, -, -, hchild⟩ := Band.mem_filterMap_edge?.mp hedge
              rw [hchild, childFor_eq_treeFor hband] at hbelow
              have hnode := ih (hplaced.child hband) hbelow
              rwa [List.length_cons, Nat.add_comm ranges.length 1, ← Nat.add_assoc]

namespace Automaton

variable {options : CompileOptions} {interval : Interval} {node : Node}

/-- Along every path the root of a compiled automaton leads to a node that unfolds to the tree for a
place, one level below for each edge. -/
theorem exists_unfolded_of_path_root {ranges : List ByteRange}
    (h : (compile options interval).root.Path ranges node) :
    ∃ levels low high, Placed (byteWidth interval.high) levels ranges.length low high ∧
      node.unfolded = treeFor options.encoding levels ranges.length low high := by
  have hpath := h.rename fun _ => 0
  rw [← Node.unfolded, ← Node.unfolded, unfolded_root_compile] at hpath
  obtain ⟨levels, low, high, hplaced, hnode⟩ :=
    exists_placed_of_path (Placed.ofInterval interval) hpath
  rw [Nat.zero_add] at hplaced hnode
  exact ⟨levels, low, high, hplaced, hnode⟩

/-- Along every path the root of a compiled automaton leads to a node that accepts what may follow
at a place, one level below for each edge. -/
theorem exists_placed_of_path_root {ranges : List ByteRange}
    (h : (compile options interval).root.Path ranges node) :
    ∃ levels low high, Placed (byteWidth interval.high) levels ranges.length low high ∧
      ∀ bytes, node.accepts bytes = true ↔
        options.encoding.Spells levels ranges.length low high bytes := by
  obtain ⟨levels, low, high, hplaced, hnode⟩ := exists_unfolded_of_path_root h
  refine ⟨levels, low, high, hplaced, ?_⟩
  intro bytes
  rw [← Node.accepts_unfolded, hnode]
  exact accepts_treeFor hplaced bytes

/-- Every node of a compiled automaton accepts some sequence. -/
theorem exists_accepts_of_reaches (h : (compile options interval).root.Reaches node) :
    ∃ bytes, node.accepts bytes = true := by
  obtain ⟨ranges, hpath⟩ := h
  obtain ⟨levels, low, high, hplaced, haccepts⟩ := exists_placed_of_path_root hpath
  obtain ⟨bytes, hspells, -⟩ := hplaced.exists_spells (Nat.le_refl low) hplaced.low_le_high
  exact ⟨bytes, (haccepts bytes).mpr hspells⟩

end Automaton

end IntervalAutomata
