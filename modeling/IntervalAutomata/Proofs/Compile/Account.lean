import IntervalAutomata.Proofs.Compile.Rows

/-!
# How many nodes a sharing construction makes

Where nodes are shared, all nodes below the root are accounted for by the keys that are remembered
(`Store.Accounts`): one node for each key, and one more for each key whose node has a leaf of its
own. Those are the keys of the minimal encoding whose upper bound is a single byte, but not zero
(`Key.ownsLeaf`).

* **One step.** A new node and its leaf, if it has one, are paid for by remembering its key
  (`innerNode_accounts`). Looking a node up makes none (`share_accounts`).
* **The construction** keeps the account (`build_accounts`), to which an automaton adds its root and
  the leaf of the root (`Automaton.next_storeAfter_le`).
-/

namespace IntervalAutomata

/-! ## The account -/

/-- Whether the node with this key has a leaf of its own: the upper bound is a single byte, at which
values end, and the minimal encoding ends with them. The number zero has no byte left. -/
def Key.ownsLeaf (encoding : Encoding) (key : Key) : Bool :=
  decide (encoding = .minimal ∧ 0 < key.high ∧ key.high < 256)

/-- The nodes that a key accounts for. -/
def Key.price (encoding : Encoding) (key : Key) : Nat :=
  if key.ownsLeaf encoding then 2 else 1

/-- Every key accounts for a node. -/
theorem Key.one_le_price (encoding : Encoding) (key : Key) : 1 ≤ key.price encoding := by
  unfold price
  split <;> omega

/-- The nodes that remembered keys account for. -/
def Store.account (encoding : Encoding) (store : Store) : Nat :=
  store.finished.length + store.finished.countP fun entry => entry.1.ownsLeaf encoding

/-- All nodes that were made are accounted for. -/
def Store.Accounts (encoding : Encoding) (store : Store) : Prop :=
  store.next ≤ store.account encoding

/-- A node that is remembered accounts for what its key does. -/
theorem Store.account_remember (encoding : Encoding) (store : Store) (key : Key) (node : Node) :
    (store.remember key node).account encoding =
      store.account encoding + key.price encoding := by
  simp only [account, remember, Key.price, List.length_cons, List.countP_cons]
  split <;> omega

section build

variable {options : CompileOptions} {width levels depth low high : Nat} {store : Store}

/-! ## One step -/

/-- What every child keeps is kept by a row of edges. -/
theorem growEdges_store {P : Store → Prop} {below : Band → ByteRange → Store → Built Node}
    {bands : List Band} (hstore : P store)
    (hbelow : ∀ band ∈ bands, ∀ range store, P store → P (below band range store).store) :
    P (growEdges below bands store).store := by
  induction bands generalizing store with
  | nil => exact hstore
  | cons band bands ih =>
      obtain ⟨hband, hbands⟩ := List.forall_mem_cons.mp hbelow
      cases hrange : band.range? with
      | none =>
          rw [growEdges_cons_of_none hrange]
          exact ih hstore hbands
      | some range =>
          rw [growEdges_cons_of_some hrange]
          exact ih (hband range store hstore) hbands

/-- Where values end and their encodings too, a leaf is made if there is a byte for it. -/
theorem growEdges_store_of_singleByte {level : Level} (hlayout : level.layout = .singleByte)
    (hminimal : options.encoding = .minimal) :
    (growEdges (growChild options levels depth level) level.bands store).store = store ∨
    (level.lowByte ≤ level.highByte ∧
      (growEdges (growChild options levels depth level) level.bands store).store =
        { store with next := store.next + 1 }) := by
  have hbands : level.bands = [⟨level.lowByte, level.highByte, 0, 0⟩] := by
    unfold Level.bands
    rw [hlayout]
  rw [hbands]
  cases hrange : (⟨level.lowByte, level.highByte, 0, 0⟩ : Band).range? with
  | none =>
      rw [growEdges_cons_of_none hrange]
      exact Or.inl rfl
  | some range =>
      rw [growEdges_cons_of_some hrange]
      obtain ⟨hlow, hhigh⟩ := ByteRange.ofNat?_eq_some_iff.mp hrange
      refine Or.inr ⟨?_, ?_⟩
      · have hle := range.low_le_high
        rwa [hlow, hhigh] at hle
      · rw [growEdges_nil, growChild, if_pos ⟨hlayout, hminimal⟩]
        rfl

/-- The edges of a node leave all nodes accounted for, but the leaf, if there is one. -/
theorem growEdges_next_le (hplaced : Placed width (levels + 1) depth low high)
    (hstore : store.Accounts options.encoding)
    (hbuild : ∀ low high store, Placed width levels (depth + 1) low high →
      store.Accounts options.encoding →
      (build options levels (depth + 1) low high store).store.Accounts options.encoding) :
    let level := levelFor options.encoding levels depth low high
    let grown := growEdges (growChild options levels depth level) level.bands store
    grown.store.Accounts options.encoding ∨
      (level.layout = .singleByte ∧ options.encoding = .minimal ∧
        level.lowByte ≤ level.highByte ∧
        grown.store.next ≤ grown.store.account options.encoding + 1) := by
  intro level grown
  by_cases hlast : level.layout = .singleByte ∧ options.encoding = .minimal
  · obtain ⟨hlayout, hminimal⟩ := hlast
    have hgrown : grown.store = store ∨ (level.lowByte ≤ level.highByte ∧
        grown.store = { store with next := store.next + 1 }) :=
      growEdges_store_of_singleByte hlayout hminimal
    rcases hgrown with hsame | ⟨hle, hleaf⟩
    · left
      rw [hsame]
      exact hstore
    · right
      rw [hleaf]
      exact ⟨hlayout, hminimal, hle, Nat.succ_le_succ hstore⟩
  · left
    refine growEdges_store hstore ?_
    intro band hband range store hstore
    rw [growChild, if_neg hlast]
    exact hbuild _ _ store (hplaced.child hband) hstore

/-- Where values end, the upper bound is a single byte. -/
theorem Placed.high_lt_of_singleByte {encoding : Encoding}
    (h : Placed width (levels + 1) depth low high)
    (hlayout : (levelFor encoding levels depth low high).layout = .singleByte) : high < 256 := by
  have hvalid : (levelFor encoding levels depth low high).Valid := h.valid
  have hsays := hvalid.layout_says
  rw [hlayout] at hsays
  have hrest : high / 256 = 0 := hsays
  omega

/-- Below the root a leaf is made only for a key that owns one: a node for zero has no byte left. -/
theorem ownsLeaf_of_lowByte_le (hdepth : 0 < depth)
    (hplaced : Placed width (levels + 1) depth low high)
    (hlayout : (levelFor options.encoding levels depth low high).layout = .singleByte)
    (hminimal : options.encoding = .minimal)
    (hle : (levelFor options.encoding levels depth low high).lowByte ≤
      (levelFor options.encoding levels depth low high).highByte) :
    (Key.of options.encoding depth low high).ownsLeaf options.encoding = true := by
  have hlow := hplaced.low_le_high
  have hpos : 0 < high := by
    apply Nat.pos_of_ne_zero
    intro hzero
    have haccepts : acceptsAt options.encoding (levels + 1) depth low = true :=
      acceptsAt_succ_iff.mpr ⟨hminimal, Nat.ne_of_gt hdepth, by omega⟩
    rw [levelFor, haccepts, hzero] at hle
    simp [Level.ofBounds] at hle
  rw [hminimal, Key.ownsLeaf, Key.of, decide_eq_true_eq]
  exact ⟨rfl, hpos, hplaced.high_lt_of_singleByte hlayout⟩

/-- A new node and its leaf are paid for by its key. -/
theorem innerNode_accounts (hdepth : 0 < depth)
    (hplaced : Placed width (levels + 1) depth low high)
    (hstore : store.Accounts options.encoding)
    (hbuild : ∀ low high store, Placed width levels (depth + 1) low high →
      store.Accounts options.encoding →
      (build options levels (depth + 1) low high store).store.Accounts options.encoding) :
    ((innerNode options levels depth low high store).store.remember
      (Key.of options.encoding depth low high)
      (innerNode options levels depth low high store).result).Accounts options.encoding := by
  rw [Store.Accounts, Store.account_remember]
  rcases growEdges_next_le hplaced hstore hbuild with hgrown | ⟨hlayout, hminimal, hle, hgrown⟩
  · refine Nat.le_trans (Nat.succ_le_succ hgrown) ?_
    exact Nat.add_le_add_left (Key.one_le_price _ _) _
  · rw [Key.price, if_pos (ownsLeaf_of_lowByte_le hdepth hplaced hlayout hminimal hle)]
    exact Nat.succ_le_succ hgrown

/-- A node at the end of the values is accounted for once it is remembered. -/
theorem endNode_accounts (hstore : store.Accounts options.encoding) :
    ((endNode options depth low high store).store.remember
      (Key.of options.encoding depth low high)
      (endNode options depth low high store).result).Accounts options.encoding := by
  rw [Store.Accounts, Store.account_remember]
  refine Nat.le_trans (Nat.succ_le_succ hstore) ?_
  exact Nat.add_le_add_left (Key.one_le_price _ _) _

/-- Looking a node up makes none, and a new one is remembered. -/
theorem share_accounts {fresh : Store → Built Node} (hmemo : options.memoize = true)
    (hdepth : 0 < depth) (hstore : store.Accounts options.encoding)
    (hfresh : ((fresh store).store.remember (Key.of options.encoding depth low high)
      (fresh store).result).Accounts options.encoding) :
    (share options depth low high fresh store).store.Accounts options.encoding := by
  rcases share_cases options depth low high fresh store with
    ⟨hroot, -⟩ | ⟨node, -, hshare⟩ | ⟨-, hshare⟩
  · exact absurd hroot (not_fresh hmemo hdepth)
  · rw [hshare]
    exact hstore
  · rw [hshare]
    exact hfresh

/-! ## The construction -/

/-- **A sharing construction keeps the account.** -/
theorem build_accounts (hmemo : options.memoize = true) (hdepth : 0 < depth)
    (hplaced : Placed width levels depth low high) (hstore : store.Accounts options.encoding) :
    (build options levels depth low high store).store.Accounts options.encoding := by
  induction levels generalizing depth low high store with
  | zero =>
      rw [build_zero]
      exact share_accounts hmemo hdepth hstore (endNode_accounts hstore)
  | succ levels ih =>
      rw [build_succ]
      refine share_accounts hmemo hdepth hstore (innerNode_accounts hdepth hplaced hstore ?_)
      intro low high store
      exact ih (Nat.succ_pos depth)

end build

/-- To the account an automaton adds its root, and the leaf of the root if values end there. -/
theorem Automaton.next_storeAfter_le {options : CompileOptions} (hmemo : options.memoize = true)
    (interval : Interval) :
    (storeAfter options interval).next ≤ (storeAfter options interval).account options.encoding +
      (if options.encoding = .minimal ∧ interval.high < 256 then 2 else 1) := by
  obtain ⟨levels, hlevels⟩ : ∃ levels, byteWidth interval.high = levels + 1 := ⟨_, rfl⟩
  have hplaced := Placed.ofInterval interval
  rw [hlevels] at hplaced
  have hstore : Store.empty.Accounts options.encoding := Nat.zero_le _
  have hbuild : storeAfter options interval =
      (innerNode options levels 0 interval.low interval.high Store.empty).store := by
    rw [← build_root, ← hlevels]
    rfl
  rw [hbuild]
  rcases growEdges_next_le hplaced hstore fun low high store =>
    build_accounts hmemo (Nat.succ_pos 0) with hgrown | ⟨hlayout, hminimal, -, hgrown⟩
  · have hroot : 1 ≤ if options.encoding = .minimal ∧ interval.high < 256 then 2 else 1 := by
      split <;> omega
    exact Nat.le_trans (Nat.succ_le_succ hgrown) (Nat.add_le_add_left hroot _)
  · rw [if_pos ⟨hminimal, hplaced.high_lt_of_singleByte hlayout⟩]
    exact Nat.succ_le_succ hgrown

end IntervalAutomata
