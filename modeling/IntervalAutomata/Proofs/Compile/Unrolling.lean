import IntervalAutomata.Proofs.Compile.Tree

/-!
# The construction unrolled

Equations of `share`, `growEdges` and `build` by the cases that they distinguish, for proofs that
follow the construction; `share_cases` has all cases of sharing at once. What `build` does afresh at
one node has a name of its own here: `endNode` where no level is left, and otherwise `innerNode`,
which grows a child below each band (`growChild`). Both directions of the recursion then read
`build_zero` and `build_succ`.
-/

namespace IntervalAutomata

/-! ## Sharing -/

section share

variable {options : CompileOptions} {depth low high : Nat} {fresh : Store → Built Node}
  {store : Store}

/-- The root and every node of an unshared construction are built afresh. -/
theorem share_of_fresh (h : depth = 0 ∨ options.memoize = false) :
    share options depth low high fresh store = fresh store := by
  rw [share, if_pos h]

/-- Where nodes are shared, a node below the root is looked for first. -/
theorem not_fresh (hmemo : options.memoize = true) (hdepth : 0 < depth) :
    ¬(depth = 0 ∨ options.memoize = false) := by
  rw [hmemo]
  simp only [Bool.true_eq_false, or_false]
  omega

/-- A node that is remembered is used again and reported as such. -/
theorem share_of_some {node : Node} (h : ¬(depth = 0 ∨ options.memoize = false))
    (hfind : store.find? (Key.of options.encoding depth low high) = some node) :
    share options depth low high fresh store = ⟨node, [.reuse depth low high], store⟩ := by
  rw [share, if_neg h]
  simp only [hfind]

/-- A node that is not remembered is built, and remembered then. -/
theorem share_of_none (h : ¬(depth = 0 ∨ options.memoize = false))
    (hfind : store.find? (Key.of options.encoding depth low high) = none) :
    share options depth low high fresh store =
      ⟨(fresh store).result, (fresh store).events,
        (fresh store).store.remember (Key.of options.encoding depth low high)
          (fresh store).result⟩ := by
  rw [share, if_neg h]
  simp only [hfind]

/-- All that sharing can do: a node is built afresh and not remembered, it is found, or it is built
and remembered. -/
theorem share_cases (options : CompileOptions) (depth low high : Nat)
    (fresh : Store → Built Node) (store : Store) :
    ((depth = 0 ∨ options.memoize = false) ∧
      share options depth low high fresh store = fresh store) ∨
    (∃ node, store.find? (Key.of options.encoding depth low high) = some node ∧
      share options depth low high fresh store = ⟨node, [.reuse depth low high], store⟩) ∨
    (store.find? (Key.of options.encoding depth low high) = none ∧
      share options depth low high fresh store =
        ⟨(fresh store).result, (fresh store).events,
          (fresh store).store.remember (Key.of options.encoding depth low high)
            (fresh store).result⟩) := by
  by_cases hroot : depth = 0 ∨ options.memoize = false
  · exact Or.inl ⟨hroot, share_of_fresh hroot⟩
  · cases hfind : store.find? (Key.of options.encoding depth low high) with
    | some node => exact Or.inr (Or.inl ⟨node, rfl, share_of_some hroot hfind⟩)
    | none => exact Or.inr (Or.inr ⟨rfl, share_of_none hroot hfind⟩)

end share

/-! ## Growing edges -/

section growEdges

variable {below : Band → ByteRange → Store → Built Node} {band : Band} {bands : List Band}
  {store : Store}

/-- Without bands there are no edges. -/
@[simp] theorem growEdges_nil : growEdges below [] store = ⟨[], [], store⟩ := rfl

/-- A band without bytes has no edge. -/
theorem growEdges_cons_of_none (h : band.range? = none) :
    growEdges below (band :: bands) store = growEdges below bands store := by
  simp only [growEdges, h]

/-- A band with bytes has an edge, which is built before the others. -/
theorem growEdges_cons_of_some {range : ByteRange} (h : band.range? = some range) :
    growEdges below (band :: bands) store =
      ⟨⟨range, (below band range store).result⟩ ::
          (growEdges below bands (below band range store).store).result,
        (below band range store).events ++
          (growEdges below bands (below band range store).store).events,
        (growEdges below bands (below band range store).store).store⟩ := by
  simp only [growEdges, h]

end growEdges

/-! ## Building -/

/-- A node at which no level is left. -/
def endNode (options : CompileOptions) (depth low high : Nat) (store : Store) : Built Node :=
  let accepting := acceptsAt options.encoding 0 depth low
  ⟨.mk store.next accepting [], [.enter depth low high accepting],
    { store with next := store.next + 1 }⟩

/-- What grows below a band of a level. -/
def growChild (options : CompileOptions) (levels depth : Nat) (level : Level) (band : Band)
    (range : ByteRange) (store : Store) : Built Node :=
  if level.layout = .singleByte ∧ options.encoding = .minimal then growLeaf depth range store
  else
    let built := build options levels (depth + 1) band.childLow band.childHigh store
    { built with events := .edge depth range band.childLow band.childHigh :: built.events }

/-- A node with the edges of its level. -/
def innerNode (options : CompileOptions) (levels depth low high : Nat) (store : Store) :
    Built Node :=
  let accepting := acceptsAt options.encoding (levels + 1) depth low
  let level := levelFor options.encoding levels depth low high
  let grown := growEdges (growChild options levels depth level) level.bands store
  ⟨.mk grown.store.next accepting grown.result,
    .enter depth low high accepting :: .laidOut depth level.layout :: grown.events,
    { grown.store with next := grown.store.next + 1 }⟩

/-- At the end of the values a node without edges is shared or built. -/
theorem build_zero (options : CompileOptions) (depth low high : Nat) (store : Store) :
    build options 0 depth low high store =
      share options depth low high (endNode options depth low high) store := rfl

/-- Before the end of the values a node with a row of edges is shared or built. -/
theorem build_succ (options : CompileOptions) (levels depth low high : Nat) (store : Store) :
    build options (levels + 1) depth low high store =
      share options depth low high (innerNode options levels depth low high) store := rfl

/-- The root is a fresh node. -/
theorem build_root (options : CompileOptions) (levels low high : Nat) (store : Store) :
    build options (levels + 1) 0 low high store = innerNode options levels 0 low high store := by
  rw [build_succ, share_of_fresh (Or.inl rfl)]

end IntervalAutomata
