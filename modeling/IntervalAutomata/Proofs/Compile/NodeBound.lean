import IntervalAutomata.Proofs.Compile.Account
import IntervalAutomata.Proofs.Compile.Remembered
import Mathlib.Data.List.Dedup

/-!
# Shared automata are linear in their width

Calls stay near the interval, so at each depth there are at most four different ones
(`Interval.nearby`). A shared automaton makes one node for each, and where the values of the minimal
encoding end a leaf besides (`Store.account`). Both can be listed:

* **Keys** (`Interval.keys`): four for each depth between the root and the last level. The padded
  encoding goes one level further, but there all bounds are zero.
* **Leaves** (`Interval.leafBounds`): calls whose upper bound is a single byte, but not zero. They
  stand at the last depth at which the interval still has a byte. If a borrow takes `256` to `255`
  one depth above, that upper bound is a single byte too, but then those of the last depth are one
  and zero, and zero has no leaf. So there are at most four leaves.

The main statement (`Automaton.nodeCount_compile_le`) collects what follows for the calls and for
the number of nodes.
-/

namespace IntervalAutomata

/-! ## Bounds near the interval -/

namespace Interval

/-- The bounds that calls at a depth can have. -/
def nearby (interval : Interval) (depth : Nat) : List (Nat × Nat) :=
  let low := interval.low / 256 ^ depth
  let high := interval.high / 256 ^ depth
  [(low, high), (low, high - 1), (low + 1, high), (low + 1, high - 1)]

/-- The bounds of calls whose nodes have a leaf of their own. -/
def leafBounds (interval : Interval) : List (Nat × Nat) :=
  let last := byteWidth interval.high - 1
  if interval.high / 256 ^ (last - 1) = 256 then
    [(interval.low / 256 ^ last, 1), (interval.low / 256 ^ last + 1, 1),
      (interval.low / 256 ^ (last - 1), 255), (interval.low / 256 ^ (last - 1) + 1, 255)]
  else interval.nearby last

/-- The keys under which nodes can be remembered. -/
def keys (encoding : Encoding) (interval : Interval) : List Key :=
  ((List.range' 1 (byteWidth interval.high - 1)).flatMap fun depth =>
      (interval.nearby depth).map fun bounds => Key.of encoding depth bounds.1 bounds.2) ++
    match encoding with
    | .minimal => []
    | .padded => [⟨0, 0, byteWidth interval.high⟩]

/-- Four pairs of bounds are near the interval at each depth. -/
theorem length_nearby (interval : Interval) (depth : Nat) : (interval.nearby depth).length = 4 :=
  rfl

/-- There are four pairs of bounds of a single byte. -/
theorem length_leafBounds (interval : Interval) : interval.leafBounds.length = 4 := by
  unfold leafBounds
  dsimp only
  split
  · rfl
  · exact length_nearby _ _

/-- There are four keys for each depth below the root, and one more at the end of the padded
encoding. -/
theorem length_keys (encoding : Encoding) (interval : Interval) :
    (keys encoding interval).length =
      4 * (byteWidth interval.high - 1) + if encoding = .padded then 1 else 0 := by
  have hdepths : ((List.range' 1 (byteWidth interval.high - 1)).flatMap fun depth =>
      (interval.nearby depth).map fun bounds =>
        Key.of encoding depth bounds.1 bounds.2).length = 4 * (byteWidth interval.high - 1) := by
    simp only [List.length_flatMap, List.length_map, length_nearby, List.map_const',
      List.length_range', List.sum_replicate_nat]
    omega
  unfold keys
  rw [List.length_append, hdepths]
  cases encoding <;> rfl

end Interval

namespace Asked

variable {encoding : Encoding} {interval : Interval} {levels depth low high : Nat}

/-- The bounds of a call are near the interval. -/
theorem mem_nearby (h : Asked encoding interval levels depth low high) :
    (low, high) ∈ interval.nearby depth := by
  have hlow := h.low_near
  have hhigh := h.high_near
  simp only [Interval.nearby, List.mem_cons, List.not_mem_nil, or_false, Prod.mk.injEq]
  omega

/-- The key of a call below the root is listed. -/
theorem key_mem_keys (h : Asked encoding interval levels depth low high) (hdepth : 0 < depth) :
    Key.of encoding depth low high ∈ Interval.keys encoding interval := by
  have hsum := h.placed.depth_add_levels
  unfold Interval.keys
  rw [List.mem_append]
  rcases Nat.eq_zero_or_pos levels with rfl | hlevels
  · obtain ⟨rfl, rfl, -⟩ := h.placed.eq_zero
    cases encoding with
    | minimal => exact absurd (h.levels_pos rfl) (Nat.lt_irrefl 0)
    | padded =>
        rw [Nat.add_zero] at hsum
        rw [hsum]
        exact Or.inr List.mem_cons_self
  · left
    have hrange : depth ∈ List.range' 1 (byteWidth interval.high - 1) := by
      rw [List.mem_range'_1]
      omega
    exact List.mem_flatMap.mpr ⟨depth, hrange, List.mem_map.mpr ⟨_, h.mem_nearby, rfl⟩⟩

/-- Upper bounds that are a single byte stand at the last depth at which the interval has a byte, or
just above it, where the interval leaves `256`. -/
theorem depth_eq_of_high_lt (h : Asked encoding interval levels depth low high) (hdepth : 0 < depth)
    (hlevels : 0 < levels) (hlt : high < 256) :
    depth + 1 = byteWidth interval.high ∨
      (depth + 2 = byteWidth interval.high ∧ interval.high / 256 ^ depth = 256) := by
  have hsum := h.placed.depth_add_levels
  have hnear := h.high_near
  obtain ⟨rest, rfl⟩ : ∃ rest, levels = rest + 1 := ⟨levels - 1, by omega⟩
  have hfull : 256 ^ rest ≤ interval.high / 256 ^ depth := by
    rw [Nat.le_div_iff_mul_le (Nat.pow_pos (by omega)), ← Nat.pow_add]
    exact pow_le_of_byteWidth (by omega) (by omega)
  have hrest : rest ≤ 1 := by
    have hle : 256 ^ rest ≤ 256 ^ 1 := by omega
    exact (Nat.pow_le_pow_iff_right (by omega)).mp hle
  rcases Nat.le_one_iff_eq_zero_or_eq_one.mp hrest with rfl | rfl
  · exact Or.inl hsum
  · rw [Nat.pow_one] at hfull
    exact Or.inr ⟨hsum, by omega⟩

/-- The bounds of a call whose node has a leaf of its own are listed. -/
theorem mem_leafBounds (h : Asked encoding interval levels depth low high) (hdepth : 0 < depth)
    (hlevels : 0 < levels) (hpos : 0 < high) (hlt : high < 256) :
    (low, high) ∈ interval.leafBounds := by
  have hlow := h.low_near
  have hhigh := h.high_near
  unfold Interval.leafBounds
  dsimp only
  rcases h.depth_eq_of_high_lt hdepth hlevels hlt with hlast | ⟨hlast, hfull⟩
  · obtain rfl : depth = byteWidth interval.high - 1 := by omega
    split
    · rename_i hfull
      -- the last byte of the interval is one, and a borrow would leave zero
      have hone : interval.high / 256 ^ (byteWidth interval.high - 1) = 1 := by
        obtain ⟨above, habove⟩ : ∃ above, byteWidth interval.high - 1 = above + 1 :=
          ⟨byteWidth interval.high - 1 - 1, by omega⟩
        rw [habove, Nat.add_sub_cancel] at hfull
        rw [habove, Nat.pow_succ, ← Nat.div_div_eq_div_mul, hfull]
      simp only [List.mem_cons, List.not_mem_nil, or_false, Prod.mk.injEq]
      omega
    · exact h.mem_nearby
  · obtain rfl : depth = byteWidth interval.high - 1 - 1 := by omega
    rw [if_pos hfull]
    simp only [List.mem_cons, List.not_mem_nil, or_false, Prod.mk.injEq]
    omega

end Asked

/-! ## Counting nodes -/

namespace Automaton

variable {encoding : Encoding} {interval : Interval}

/-- At each depth there are at most four different calls. -/
theorem length_calls_at_le (options : CompileOptions) (interval : Interval) (depth : Nat) :
    ((calls options interval).filter fun call => call.depth = depth).dedup.length ≤ 4 := by
  have hsubset : ((calls options interval).filter fun call => call.depth = depth).dedup ⊆
      (interval.nearby depth).map fun bounds => ⟨depth, bounds.1, bounds.2⟩ := by
    intro call hcall
    rw [List.mem_dedup, List.mem_filter, decide_eq_true_eq] at hcall
    obtain ⟨hmem, rfl⟩ := hcall
    obtain ⟨levels, hasked⟩ := exists_asked_of_mem_calls hmem
    exact List.mem_map.mpr ⟨_, hasked.mem_nearby, rfl⟩
  exact (List.nodup_dedup _).length_le_of_subset hsubset

/-- There are no more remembered nodes than keys. -/
theorem length_finished_le (encoding : Encoding) (interval : Interval) :
    (storeAfter ⟨encoding, true⟩ interval).finished.length ≤
      (Interval.keys encoding interval).length := by
  rw [← List.length_map (f := Prod.fst)]
  apply (compile_files encoding interval).closed.nodup_keys.length_le_of_subset
  intro key hkey
  obtain ⟨entry, hentry, rfl⟩ := List.mem_map.mp hkey
  obtain ⟨_, _, _, _, hasked, hdepth, hkey⟩ := exists_asked_of_mem_finished hentry
  rw [hkey]
  exact hasked.key_mem_keys hdepth

/-- Under the minimal encoding at most four remembered nodes have a leaf of their own. -/
theorem countP_ownsLeaf_le (interval : Interval) :
    (storeAfter ⟨.minimal, true⟩ interval).finished.countP
      (fun entry => entry.1.ownsLeaf .minimal) ≤ 4 := by
  have hnodup := (compile_files .minimal interval).closed.nodup_keys.filter
    (Key.ownsLeaf .minimal)
  have hsubset : ((storeAfter ⟨.minimal, true⟩ interval).finished.map Prod.fst).filter
      (Key.ownsLeaf .minimal) ⊆
        interval.leafBounds.map fun bounds => Key.of .minimal 0 bounds.1 bounds.2 := by
    intro key hkey
    obtain ⟨hmem, howns⟩ := List.mem_filter.mp hkey
    obtain ⟨entry, hentry, rfl⟩ := List.mem_map.mp hmem
    obtain ⟨levels, depth, low, high, hasked, hdepth, hkey⟩ := exists_asked_of_mem_finished hentry
    rw [hkey, Key.ownsLeaf, decide_eq_true_eq] at howns
    obtain ⟨-, hpos, hlt⟩ := howns
    rw [hkey]
    exact List.mem_map.mpr
      ⟨_, hasked.mem_leafBounds hdepth (hasked.levels_pos rfl) hpos hlt, rfl⟩
  have hlength := hnodup.length_le_of_subset hsubset
  rwa [List.length_map, Interval.length_leafBounds, ← List.countP_eq_length_filter,
    List.countP_map] at hlength

/-- With the padded encoding there are at most four nodes for each byte, less two. -/
theorem nodeCount_padded_le (interval : Interval) :
    (compile ⟨.padded, true⟩ interval).nodeCount ≤ 4 * byteWidth interval.high - 2 := by
  have hwidth := byteWidth_pos interval.high
  have hkeys := length_finished_le .padded interval
  rw [Interval.length_keys, if_pos rfl] at hkeys
  have hnoleaf : (storeAfter ⟨.padded, true⟩ interval).finished.countP
      (fun entry => entry.1.ownsLeaf .padded) = 0 := by
    rw [List.countP_eq_zero]
    intro entry _
    simp [Key.ownsLeaf]
  have hnodes : (compile ⟨.padded, true⟩ interval).nodeCount ≤
      (storeAfter ⟨.padded, true⟩ interval).account .padded + 1 :=
    Nat.le_trans nodeCount_le_next (next_storeAfter_le rfl interval)
  rw [Store.account, hnoleaf] at hnodes
  omega

/-- With the minimal encoding there are at most four nodes for each byte, and one more. -/
theorem nodeCount_minimal_le (interval : Interval) :
    (compile ⟨.minimal, true⟩ interval).nodeCount ≤ 4 * byteWidth interval.high + 1 := by
  have hwidth := byteWidth_pos interval.high
  have hkeys := length_finished_le .minimal interval
  rw [Interval.length_keys, if_neg (by decide)] at hkeys
  have hleaves := countP_ownsLeaf_le interval
  have hnodes : (compile ⟨.minimal, true⟩ interval).nodeCount ≤
      (storeAfter ⟨.minimal, true⟩ interval).account .minimal +
        (if Encoding.minimal = .minimal ∧ interval.high < 256 then 2 else 1) :=
    Nat.le_trans nodeCount_le_next (next_storeAfter_le rfl interval)
  rw [Store.account] at hnodes
  by_cases hsingle : interval.high < 256
  · -- a single level: nothing is remembered, and the root has the only leaf
    have hone : byteWidth interval.high ≤ 1 := (byteWidth_le_iff Nat.one_pos).mpr hsingle
    have hnoleaf : (storeAfter ⟨.minimal, true⟩ interval).finished.countP
        (fun entry => entry.1.ownsLeaf .minimal) ≤
          (storeAfter ⟨.minimal, true⟩ interval).finished.length := List.countP_le_length
    rw [if_pos ⟨rfl, hsingle⟩] at hnodes
    omega
  · rw [if_neg fun h => hsingle h.2] at hnodes
    omega

/-- **Shared automata are linear in their width.** Every call of a compilation has for its lower
bound that of the interval without its first bytes, or one more, and for its upper bound that of the
interval without its first bytes, or one less, so that there are at most four different calls at
each depth. Where nodes are shared, an automaton of width `w` has at most `4 * w - 2` nodes under
the padded encoding, and at most `4 * w + 1` under the minimal one. -/
theorem nodeCount_compile_le (interval : Interval) :
    (∀ options, ∀ call ∈ calls options interval,
      (call.low = interval.low / 256 ^ call.depth ∨
        call.low = interval.low / 256 ^ call.depth + 1) ∧
      (call.high = interval.high / 256 ^ call.depth ∨
        call.high + 1 = interval.high / 256 ^ call.depth)) ∧
    (∀ options depth,
      ((calls options interval).filter fun call => call.depth = depth).dedup.length ≤ 4) ∧
    (compile ⟨.padded, true⟩ interval).nodeCount ≤ 4 * byteWidth interval.high - 2 ∧
    (compile ⟨.minimal, true⟩ interval).nodeCount ≤ 4 * byteWidth interval.high + 1 := by
  refine ⟨?_, ?_, nodeCount_padded_le interval, nodeCount_minimal_le interval⟩
  · intro options call hcall
    obtain ⟨levels, hasked⟩ := exists_asked_of_mem_calls hcall
    exact ⟨hasked.low_near, hasked.high_near⟩
  · intro options depth
    exact length_calls_at_le options interval depth

/-- In the padded compilation of `[0xff, 0x20100]` the call for `[0x0, 0x200]` at depth 1 borrows
from `0x201`, and with shared nodes the automaton has at most ten of them. -/
theorem nodeCount_compile_le_carry :
    (⟨1, 0, 0x200⟩ : Call) ∈ calls ⟨.padded, true⟩ ⟨0xff, 0x20100, by decide, by decide⟩ ∧
      0x200 + 1 = 0x20100 / 256 ^ 1 ∧
      (compile ⟨.padded, true⟩ ⟨0xff, 0x20100, by decide, by decide⟩).nodeCount ≤ 10 := by
  obtain ⟨hnear, -, hpadded, -⟩ := nodeCount_compile_le ⟨0xff, 0x20100, by decide, by decide⟩
  have hmem : (⟨1, 0, 0x200⟩ : Call) ∈
      calls ⟨.padded, true⟩ ⟨0xff, 0x20100, by decide, by decide⟩ := by decide
  refine ⟨hmem, ?_, hpadded⟩
  rcases (hnear _ _ hmem).2 with heq | hless
  · exact absurd heq (by decide)
  · exact hless

end Automaton

end IntervalAutomata
