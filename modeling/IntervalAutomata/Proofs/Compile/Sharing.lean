import IntervalAutomata.Proofs.Compile.Identities

/-!
# Sharing does not change what is built

A shared construction answers with remembered nodes, an unshared one builds every node anew. Both
unfold to the same tree, `treeFor`:

* **The invariant** (`Store.Faithful`): a finished node unfolds to the tree of *every* place below
  the root that has its key. Under the padded encoding the key fixes the place; under the minimal
  encoding it leaves the depth open, and the tree does not depend on it (`treeFor_eq_of_key_eq`).
* **One step** keeps the invariant: a new node (`Faithful.newNode`), a remembered one
  (`Faithful.remember`), the choice between them (`share_unfolds`), a row of edges
  (`growEdges_unfolds`).
* **The construction** from a faithful store unfolds to the tree and leaves the store faithful
  (`build_unfolds`), whatever the options.
* **Automata** whose roots unfold to one tree differ in nothing but their nodes
  (`Automaton.Alike`). The main statement (`Automaton.compile_memoize_alike`) puts this together for
  the automata of one interval with and without sharing: they give the same depth, partition check,
  outline, verdicts and walks, and sharing never adds a node.
-/

namespace IntervalAutomata

variable {encoding : Encoding} {width levels levels' depth depth' low low' high high' : Nat}

/-! ## The invariant -/

/-- Every finished node unfolds to the tree of each place that has its key. -/
def Store.Faithful (encoding : Encoding) (width : Nat) (store : Store) : Prop :=
  ∀ entry ∈ store.finished, ∀ levels depth low high,
    entry.1 = Key.of encoding depth low high → 0 < depth → Placed width levels depth low high →
      entry.2.unfolded = treeFor encoding levels depth low high

/-- A node that unfolds to the tree, and a store that is faithful afterwards. -/
structure Built.Unfolds (encoding : Encoding) (width : Nat) (tree : Node) (built : Built Node) :
    Prop where
  /-- The node unfolds to the tree. -/
  unfolded : built.result.unfolded = tree
  /-- The store afterwards is faithful. -/
  faithful : built.store.Faithful encoding width

/-- Places with one key below the root have one tree. -/
theorem treeFor_eq_of_key_eq (h : Placed width levels depth low high)
    (h' : Placed width levels' depth' low' high') (hdepth : 0 < depth) (hdepth' : 0 < depth')
    (hkey : Key.of encoding depth low high = Key.of encoding depth' low' high') :
    treeFor encoding levels depth low high = treeFor encoding levels' depth' low' high' := by
  cases encoding with
  | minimal =>
      simp only [Key.of, Key.mk.injEq, and_true] at hkey
      obtain ⟨rfl, rfl⟩ := hkey
      exact treeFor_minimal_congr h h' hdepth hdepth'
  | padded =>
      simp only [Key.of, Key.mk.injEq] at hkey
      obtain ⟨rfl, rfl, rfl⟩ := hkey
      have hlevels : levels = levels' := by
        have hsum := h.depth_add_levels
        have hsum' := h'.depth_add_levels
        omega
      rw [hlevels]

namespace Store

variable {store : Store}

/-- A store without finished nodes is faithful. -/
theorem faithful_forget (store : Store) : store.forget.Faithful encoding width := by
  intro entry hentry
  cases hentry

/-- A new identity leaves the finished nodes as they are. -/
theorem Faithful.newNode (h : store.Faithful encoding width) (accepting : Bool)
    (edges : List (Edge Node)) : (store.newNode accepting edges).2.Faithful encoding width :=
  h

/-- A node may be remembered under the key of a call if it unfolds to the tree of the call's place.
-/
theorem Faithful.remember (h : store.Faithful encoding width) {node : Node}
    (hplaced : Placed width levels depth low high) (hdepth : 0 < depth)
    (hnode : node.unfolded = treeFor encoding levels depth low high) :
    (store.remember (Key.of encoding depth low high) node).Faithful encoding width := by
  intro entry hentry levels' depth' low' high' hkey hdepth' hplaced'
  rcases List.mem_cons.mp hentry with rfl | hentry
  · rw [hnode]
    exact treeFor_eq_of_key_eq hplaced hplaced' hdepth hdepth' hkey
  · exact h entry hentry levels' depth' low' high' hkey hdepth' hplaced'

/-- What is found for a place unfolds to its tree. -/
theorem Faithful.unfolded_of_find? (h : store.Faithful encoding width) {node : Node}
    (hplaced : Placed width levels depth low high) (hdepth : 0 < depth)
    (hfind : store.find? (Key.of encoding depth low high) = some node) :
    node.unfolded = treeFor encoding levels depth low high := by
  obtain ⟨entry, hentry, rfl⟩ := Option.map_eq_some_iff.mp hfind
  have hkey : entry.1 = Key.of encoding depth low high := by
    simpa using List.find?_some hentry
  exact h entry (List.mem_of_find?_eq_some hentry) levels depth low high hkey hdepth hplaced

end Store

/-! ## One step -/

section step

variable {options : CompileOptions} {store : Store}

/-- Sharing answers with the tree if building afresh does. -/
theorem share_unfolds {fresh : Store → Built Node} (hplaced : Placed width levels depth low high)
    (hstore : store.Faithful options.encoding width)
    (hfresh : (fresh store).Unfolds options.encoding width
      (treeFor options.encoding levels depth low high)) :
    (share options depth low high fresh store).Unfolds options.encoding width
      (treeFor options.encoding levels depth low high) := by
  by_cases hroot : depth = 0 ∨ options.memoize = false
  · rw [share_of_fresh hroot]
    exact hfresh
  · have hdepth : 0 < depth := by
      apply Nat.pos_of_ne_zero
      intro hzero
      exact hroot (Or.inl hzero)
    cases hfind : store.find? (Key.of options.encoding depth low high) with
    | some node =>
        rw [share_of_some hroot hfind]
        exact ⟨hstore.unfolded_of_find? hplaced hdepth hfind, hstore⟩
    | none =>
        rw [share_of_none hroot hfind]
        exact ⟨hfresh.unfolded, hfresh.faithful.remember hplaced hdepth hfresh.unfolded⟩

/-- Edges unfold to the edges of the tree if what grows below each band unfolds to its child. -/
theorem growEdges_unfolds {below : Band → ByteRange → Store → Built Node} {child : Band → Node}
    {bands : List Band} (hstore : store.Faithful encoding width)
    (hbelow : ∀ band ∈ bands, ∀ range store, store.Faithful encoding width →
      (below band range store).Unfolds encoding width (child band)) :
    (growEdges below bands store).result.map (Edge.rename fun _ => 0) =
        bands.filterMap (Band.edge? child) ∧
      (growEdges below bands store).store.Faithful encoding width := by
  induction bands generalizing store with
  | nil => exact ⟨rfl, hstore⟩
  | cons band bands ih =>
      obtain ⟨hband, hbands⟩ := List.forall_mem_cons.mp hbelow
      cases hrange : band.range? with
      | none =>
          have hedge : band.edge? child = none := by rw [Band.edge?, hrange]; rfl
          rw [growEdges_cons_of_none hrange, List.filterMap_cons_none hedge]
          exact ih hstore hbands
      | some range =>
          have hedge : band.edge? child = some ⟨range, child band⟩ := by
            rw [Band.edge?, hrange]
            rfl
          obtain ⟨hchild, hnext⟩ := hband range store hstore
          obtain ⟨hrest, hlast⟩ := ih hnext hbands
          rw [growEdges_cons_of_some hrange, List.filterMap_cons_some hedge]
          refine ⟨?_, hlast⟩
          rw [List.map_cons, hrest, ← hchild]
          rfl

/-! ## The construction -/

/-- A node at the end of the values unfolds to the tree there. -/
theorem endNode_unfolds (hstore : store.Faithful options.encoding width) :
    (endNode options depth low high store).Unfolds options.encoding width
      (treeFor options.encoding 0 depth low high) := by
  refine ⟨?_, hstore⟩
  rw [treeFor_zero, endNode, Node.unfolded, Node.rename_mk]
  rfl

/-- What grows below a band unfolds to its child if building one level below does. -/
theorem growChild_unfolds {level : Level} {band : Band} (range : ByteRange)
    (hstore : store.Faithful options.encoding width)
    (hbuild : (build options levels (depth + 1) band.childLow band.childHigh store).Unfolds
      options.encoding width
      (treeFor options.encoding levels (depth + 1) band.childLow band.childHigh)) :
    (growChild options levels depth level band range store).Unfolds options.encoding width
      (childFor options.encoding levels depth level band) := by
  rw [growChild, childFor]
  split
  · refine ⟨?_, hstore.newNode true []⟩
    rw [growLeaf, Store.newNode, Node.unfolded, Node.rename_mk]
    rfl
  · exact ⟨hbuild.unfolded, hbuild.faithful⟩

/-- **The construction unfolds to the tree**, shared or not, and keeps the store faithful. -/
theorem build_unfolds (hplaced : Placed width levels depth low high)
    (hstore : store.Faithful options.encoding width) :
    (build options levels depth low high store).Unfolds options.encoding width
      (treeFor options.encoding levels depth low high) := by
  induction levels generalizing depth low high store with
  | zero =>
      rw [build_zero]
      exact share_unfolds hplaced hstore (endNode_unfolds hstore)
  | succ levels ih =>
      rw [build_succ]
      refine share_unfolds hplaced hstore ?_
      have hbelow : ∀ band ∈ (levelFor options.encoding levels depth low high).bands,
          ∀ range store, store.Faithful options.encoding width →
            (growChild options levels depth (levelFor options.encoding levels depth low high)
              band range store).Unfolds options.encoding width
              (childFor options.encoding levels depth
                (levelFor options.encoding levels depth low high) band) := by
        intro band hband range store hstore
        exact growChild_unfolds range hstore (ih (hplaced.child hband) hstore)
      obtain ⟨hedges, hlast⟩ := growEdges_unfolds hstore hbelow
      refine ⟨?_, hlast⟩
      rw [innerNode, treeFor_succ, Node.unfolded, Node.rename_mk, hedges]

end step

/-! ## Automata with one unfolding -/

namespace Automaton

/-- Two automata that differ at most in which occurrences of their graphs are one node. -/
structure Alike (a b : Automaton) : Prop where
  /-- Both recognise the same interval. -/
  interval_eq : a.interval = b.interval
  /-- Both read values in the same encoding. -/
  encoding_eq : a.encoding = b.encoding
  /-- Both have the same width. -/
  width_eq : a.width = b.width
  /-- Both unfold to one tree: at every path there are the same accept flags and the same edges in
  the same order. -/
  unfolded_eq : a.root.unfolded = b.root.unfolded

namespace Alike

variable {a b : Automaton}

/-- Automata that are alike have the same depth. -/
theorem depth_eq (h : a.Alike b) : a.depth = b.depth :=
  Node.eq_of_unfolded_eq Node.depth_rename h.unfolded_eq

/-- Automata that are alike have the same fault, if any. -/
theorem partitionFault?_eq (h : a.Alike b) :
    a.root.partitionFault? = b.root.partitionFault? :=
  Node.eq_of_unfolded_eq Node.partitionFault?_rename h.unfolded_eq

/-- Automata that are alike have the same outline. -/
theorem outlineText_eq (h : a.Alike b) (palette : Palette) :
    a.outlineText palette = b.outlineText palette := by
  have hroot : a.root.outline 1 = b.root.outline 1 := by
    refine Node.eq_of_unfolded_eq (g := fun node => node.outline 1) ?_ h.unfolded_eq
    intro f node
    exact Node.outline_rename f node 1
  rw [outlineText, outlineText, outline, outline, heading, heading, h.interval_eq, h.encoding_eq,
    hroot]

/-- Automata that are alike accept the same sequences of bytes. -/
theorem acceptsBytes_eq (h : a.Alike b) (bytes : List UInt8) :
    a.acceptsBytes bytes = b.acceptsBytes bytes := by
  refine Node.eq_of_unfolded_eq (g := fun node => node.accepts bytes) ?_ h.unfolded_eq
  intro f node
  exact Node.accepts_rename f node bytes

/-- Automata that are alike report the same of every sequence of bytes. -/
theorem walkBytes_eq (h : a.Alike b) (bytes : List UInt8) :
    a.walkBytes bytes = b.walkBytes bytes := by
  refine Node.eq_of_unfolded_eq (g := fun node => node.walkFrom 0 bytes) ?_ h.unfolded_eq
  intro f node
  exact Node.walkFrom_rename f node 0 bytes

/-- A value is encoded in the same bytes for both, and so they give one report. -/
theorem walk_eq (h : a.Alike b) (value : UInt64) : a.walk value = b.walk value := by
  rw [walk, walk, h.encoding_eq, h.width_eq]
  cases encode value b.encoding b.width with
  | none => rfl
  | some bytes =>
      dsimp only
      rw [h.walkBytes_eq bytes]

/-- Automata that are alike accept the same values. -/
theorem accepts_eq (h : a.Alike b) (value : UInt64) : a.accepts value = b.accepts value := by
  rw [← verdict_walk, ← verdict_walk, h.walk_eq value]

end Alike

/-! ## The automaton of an interval -/

section compile

variable {options : CompileOptions} {interval : Interval}

/-- A compiled automaton knows its interval. -/
@[simp] theorem interval_compile : (compile options interval).interval = interval := rfl

/-- A compiled automaton knows its encoding. -/
@[simp] theorem encoding_compile : (compile options interval).encoding = options.encoding := rfl

/-- A compiled automaton is as wide as the upper bound. -/
@[simp] theorem width_compile : (compile options interval).width = byteWidth interval.high := rfl

/-- The root unfolds to the tree for the interval. -/
theorem unfolded_root_compile :
    (compile options interval).root.unfolded =
      treeFor options.encoding (byteWidth interval.high) 0 interval.low interval.high :=
  (build_unfolds (Placed.ofInterval interval) (Store.faithful_forget _)).unfolded

/-- Options with one encoding lead to automata that are alike. -/
theorem alike_compile {options' : CompileOptions} (h : options.encoding = options'.encoding) :
    (compile options interval).Alike (compile options' interval) := by
  refine ⟨rfl, h, rfl, ?_⟩
  rw [unfolded_root_compile, unfolded_root_compile, h]

/-- **Sharing changes nothing but the number of nodes.** Without sharing the graph is a tree; with
it the graph unfolds to that tree, everything that is read from it stays the same, and it has no
more nodes. -/
theorem compile_memoize_alike (encoding : Encoding) (interval : Interval) :
    (compile ⟨encoding, false⟩ interval).root.ids.Nodup ∧
    (compile ⟨encoding, true⟩ interval).root.unfolded =
      (compile ⟨encoding, false⟩ interval).root.unfolded ∧
    (compile ⟨encoding, true⟩ interval).depth = (compile ⟨encoding, false⟩ interval).depth ∧
    (compile ⟨encoding, true⟩ interval).root.partitionFault? =
      (compile ⟨encoding, false⟩ interval).root.partitionFault? ∧
    (∀ palette, (compile ⟨encoding, true⟩ interval).outlineText palette =
      (compile ⟨encoding, false⟩ interval).outlineText palette) ∧
    (∀ bytes, (compile ⟨encoding, true⟩ interval).acceptsBytes bytes =
      (compile ⟨encoding, false⟩ interval).acceptsBytes bytes) ∧
    (∀ bytes, (compile ⟨encoding, true⟩ interval).walkBytes bytes =
      (compile ⟨encoding, false⟩ interval).walkBytes bytes) ∧
    (∀ value, (compile ⟨encoding, true⟩ interval).accepts value =
      (compile ⟨encoding, false⟩ interval).accepts value) ∧
    (∀ value, (compile ⟨encoding, true⟩ interval).walk value =
      (compile ⟨encoding, false⟩ interval).walk value) ∧
    (compile ⟨encoding, true⟩ interval).nodeCount ≤
      (compile ⟨encoding, false⟩ interval).nodeCount := by
  have halike : (compile ⟨encoding, true⟩ interval).Alike (compile ⟨encoding, false⟩ interval) :=
    alike_compile rfl
  have htree : (compile ⟨encoding, false⟩ interval).root.ids.Nodup := nodup_ids_build rfl
  exact ⟨htree, halike.unfolded_eq, halike.depth_eq, halike.partitionFault?_eq,
    halike.outlineText_eq, halike.acceptsBytes_eq, halike.walkBytes_eq, halike.accepts_eq,
    halike.walk_eq, Node.nodeCount_le_of_unfolded_eq halike.unfolded_eq htree⟩

end compile

end Automaton

end IntervalAutomata
