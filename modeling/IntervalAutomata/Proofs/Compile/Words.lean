import IntervalAutomata.Proofs.Compile.Calls
import IntervalAutomata.Proofs.Compile.Residual
import IntervalAutomata.Proofs.Level.Words
import IntervalAutomata.Proofs.Node.Partition

/-!
# Compilation in the arithmetic of words

`build` reckons with natural numbers and descends through a number of levels that is given
beforehand. `wordBuild` is the same construction for words: levels, layouts, bands and ranges are
those of `Level.wordsOfBounds` and its neighbours, where a sum without room, a difference below zero
or an empty range stops the construction; and nothing but the bounds ends the recursion, whose calls
are counted from outside, so that one that lies too deep stops the construction as well. At the end
the graph has to pass the partition check (`Automaton.wordCompile`).

None of this ever happens (`Automaton.wordCompile_eq_ok`): every call has its bounds in order, none
lies deeper than the width, and the outcome is that of natural numbers, node for node and report for
report. The proof follows the recursion; what it needs to know of a call is `Asked`.
-/

namespace IntervalAutomata

/-! ## The construction for words -/

/-- The reuse of a remembered node, where building afresh may fail. -/
def wordShare (options : CompileOptions) (depth low high : Nat)
    (fresh : Store → Except CompileFault (Built Node)) (store : Store) :
    Except CompileFault (Built Node) :=
  if depth = 0 ∨ options.memoize = false then
    fresh store
  else
    let key := Key.of options.encoding depth low high
    match store.find? key with
    | some node => return ⟨node, [.reuse depth low high], store⟩
    | none => do
      let built ← fresh store
      return { built with store := built.store.remember key built.result }

/-- The edges for some bands of a level with the given layout. -/
def wordEdges (layout : Layout)
    (below : Band → ByteRange → Store → Except CompileFault (Built Node)) :
    List Band → Store → Except CompileFault (Built (List (Edge Node)))
  | [], store => return ⟨[], [], store⟩
  | band :: bands, store => do
    match ← band.wordRange layout with
    | none => wordEdges layout below bands store
    | some range =>
      let grown ← below band range store
      let rest ← wordEdges layout below bands grown.store
      return ⟨⟨range, grown.result⟩ :: rest.result, grown.events ++ rest.events, rest.store⟩

/-- What grows below a band of a level with the given layout, given how nodes one level below are
built. -/
def wordChild (options : CompileOptions) (depth : Nat) (layout : Layout)
    (build : (low high : Nat) → Store → Except CompileFault (Built Node)) (band : Band)
    (range : ByteRange) (store : Store) : Except CompileFault (Built Node) :=
  if layout = .singleByte ∧ options.encoding = .minimal then
    return growLeaf depth range store
  else do
    let built ← build band.childLow band.childHigh store
    return { built with events := .edge depth range band.childLow band.childHigh :: built.events }

/-- Whether a node accepts, seen from the root: under the padded encoding no byte is read at the
depth of the width. -/
def wordAccepts (encoding : Encoding) (width depth low : Nat) : Bool :=
  depth != 0 &&
    match encoding with
    | .minimal => low == 0
    | .padded => depth == width

/-- A fresh node, given how nodes one level below are built. -/
def wordNode (options : CompileOptions) (width depth low high : Nat)
    (build : (low high : Nat) → Store → Except CompileFault (Built Node)) (store : Store) :
    Except CompileFault (Built Node) :=
  let accepting := wordAccepts options.encoding width depth low
  if options.encoding = .padded ∧ accepting then
    let (node, store) := store.newNode accepting []
    return ⟨node, [.enter depth low high accepting], store⟩
  else do
    let level ← Level.wordsOfBounds low high accepting
    let layout ← level.wordLayout
    let bands ← level.wordBands layout
    let grown ← wordEdges layout (wordChild options depth layout build) bands store
    let (node, store) := grown.store.newNode accepting grown.result
    return ⟨node, .enter depth low high accepting :: .laidOut depth layout :: grown.events, store⟩

/-- Builds the node for two bounds at a depth, with at most the given number of calls one within the
other. -/
def wordBuild (options : CompileOptions) (width : Nat) :
    (calls depth low high : Nat) → Store → Except CompileFault (Built Node)
  | 0, _, _, _, _ => .error .tooDeep
  | calls + 1, depth, low, high, store =>
    wordShare options depth low high
      (wordNode options width depth low high (wordBuild options width calls (depth + 1))) store

/-- The automaton of an interval and the reports of its compilation. Calls may lie as deep as the
interval's upper bound has bytes. -/
def Automaton.wordCompile (options : CompileOptions) (interval : Interval) :
    Except CompileFault (Automaton × List CompileEvent) := do
  let width := byteWidth interval.high
  let built ← wordBuild options width (width + 1) 0 interval.low interval.high Store.empty
  match built.result.partitionFault? with
  | some fault => .error (.partition fault)
  | none =>
    return ({ root := built.result, interval, encoding := options.encoding, width }, built.events)

/-! ## No check fails -/

section words

variable {options : CompileOptions} {interval : Interval} {levels depth low high : Nat}
  {store : Store}

/-- Sharing on words agrees if the construction of a fresh node does. -/
theorem wordShare_eq {fresh : Store → Except CompileFault (Built Node)}
    {fresh' : Store → Built Node} (h : fresh store = .ok (fresh' store)) :
    wordShare options depth low high fresh store =
      .ok (share options depth low high fresh' store) := by
  unfold wordShare
  by_cases hroot : depth = 0 ∨ options.memoize = false
  · rw [if_pos hroot, share_of_fresh hroot, h]
  · rw [if_neg hroot]
    cases hfind : store.find? (Key.of options.encoding depth low high) with
    | some node =>
        rw [share_of_some hroot hfind]
        simp only [hfind]
        rfl
    | none =>
        rw [share_of_none hroot hfind]
        simp only [hfind, h]
        rfl

/-- A row of edges on words agrees if its ranges and children do. -/
theorem wordEdges_eq {layout : Layout}
    {below : Band → ByteRange → Store → Except CompileFault (Built Node)}
    {below' : Band → ByteRange → Store → Built Node} {bands : List Band}
    (hranges : ∀ band ∈ bands, band.wordRange layout = .ok band.range?)
    (hbelow : ∀ band ∈ bands, ∀ range, band.range? = some range → ∀ store,
      below band range store = .ok (below' band range store)) :
    wordEdges layout below bands store = .ok (growEdges below' bands store) := by
  induction bands generalizing store with
  | nil => rfl
  | cons band bands ih =>
      obtain ⟨hband, hbands⟩ := List.forall_mem_cons.mp hranges
      obtain ⟨hgrown, hrest⟩ := List.forall_mem_cons.mp hbelow
      unfold wordEdges
      rw [hband]
      cases hrange : band.range? with
      | none =>
          rw [growEdges_cons_of_none hrange]
          exact ih hbands hrest
      | some range =>
          rw [growEdges_cons_of_some hrange]
          simp only [bind, Except.bind, hgrown range hrange, ih hbands hrest]
          rfl

/-- The depth tells whether a node accepts as the levels that are left do. -/
theorem Asked.wordAccepts_eq {encoding : Encoding}
    (h : Asked encoding interval levels depth low high) :
    wordAccepts encoding (byteWidth interval.high) depth low =
      acceptsAt encoding levels depth low := by
  have hsum := h.placed.depth_add_levels
  unfold wordAccepts acceptsAt
  cases encoding with
  | minimal => rfl
  | padded =>
      have hend : (depth == byteWidth interval.high) = (levels == 0) := by
        rw [Bool.eq_iff_iff, beq_iff_eq, beq_iff_eq]
        omega
      dsimp only
      rw [hend]

/-- With no level left the node accepts under the padded encoding, and no call gets there under the
minimal one. -/
theorem Asked.wordNode_eq_endNode
    {build : (low high : Nat) → Store → Except CompileFault (Built Node)}
    (h : Asked options.encoding interval 0 depth low high) :
    wordNode options (byteWidth interval.high) depth low high build store =
      .ok (endNode options depth low high store) := by
  have hpadded : options.encoding = .padded := by
    cases hencoding : options.encoding with
    | minimal => exact absurd (h.levels_pos hencoding) (Nat.lt_irrefl 0)
    | padded => rfl
  have haccepts : acceptsAt options.encoding 0 depth low = true := by
    obtain ⟨-, -, hdepth⟩ := h.placed.eq_zero
    rw [hpadded]
    simp [acceptsAt, Nat.ne_of_gt hdepth]
  unfold wordNode endNode
  rw [h.wordAccepts_eq, haccepts]
  exact if_pos ⟨hpadded, rfl⟩

/-- Above the last level a fresh node is the same if the nodes below it are. -/
theorem Asked.wordNode_eq_innerNode
    {below : (low high : Nat) → Store → Except CompileFault (Built Node)}
    (h : Asked options.encoding interval (levels + 1) depth low high)
    (hbelow : ∀ low high, Asked options.encoding interval levels (depth + 1) low high →
      ∀ store, below low high store = .ok (build options levels (depth + 1) low high store)) :
    wordNode options (byteWidth interval.high) depth low high below store =
      .ok (innerNode options levels depth low high store) := by
  have hvalid : (levelFor options.encoding levels depth low high).Valid := h.placed.valid
  have hsize : (levelFor options.encoding levels depth low high).highRest < UInt64.size := by
    have hle := h.high_le
    have hdiv := Nat.div_le_self interval.high (256 ^ depth)
    have hword := interval.high_lt
    change high / 256 < UInt64.size
    omega
  have hgoes : ¬(options.encoding = .padded ∧
      acceptsAt options.encoding (levels + 1) depth low = true) := by
    rintro ⟨hpadded, haccepts⟩
    rw [(acceptsAt_succ_iff.mp haccepts).1] at hpadded
    cases hpadded
  have hlevel : Level.wordsOfBounds low high (acceptsAt options.encoding (levels + 1) depth low) =
      .ok (levelFor options.encoding levels depth low high) := by
    apply Level.wordsOfBounds_eq
    intro haccepts
    exact (acceptsAt_succ_iff.mp haccepts).2.2
  have hedges : wordEdges (levelFor options.encoding levels depth low high).layout
      (wordChild options depth (levelFor options.encoding levels depth low high).layout below)
      (levelFor options.encoding levels depth low high).bands store =
        .ok (growEdges (growChild options levels depth
          (levelFor options.encoding levels depth low high))
          (levelFor options.encoding levels depth low high).bands store) := by
    apply wordEdges_eq
    · intro band hband
      exact hvalid.wordRange_eq hband
    · intro band hband range hrange store
      unfold wordChild growChild
      split
      · rfl
      · rename_i hcalls
        rw [hbelow _ _ (Asked.inherited _ _ _ _ _ _ h band hband range hrange hcalls)]
        rfl
  unfold wordNode innerNode
  rw [h.wordAccepts_eq]
  dsimp only
  rw [if_neg hgoes, hlevel, Word.ok_bind, hvalid.wordLayout_eq hsize, Word.ok_bind,
    hvalid.wordBands_eq hsize, Word.ok_bind, hedges]
  rfl

/-- **Reckoning with words builds the same node**, from the same store and with the same reports. -/
theorem wordBuild_eq (h : Asked options.encoding interval levels depth low high) :
    wordBuild options (byteWidth interval.high) (levels + 1) depth low high store =
      .ok (build options levels depth low high store) := by
  induction levels generalizing depth low high store with
  | zero =>
      rw [build_zero, wordBuild]
      exact wordShare_eq h.wordNode_eq_endNode
  | succ levels ih =>
      rw [build_succ, wordBuild]
      refine wordShare_eq (h.wordNode_eq_innerNode ?_)
      intro low high hasked store
      exact ih hasked

end words

/-! ## The whole compilation -/

namespace Automaton

variable {options : CompileOptions} {interval : Interval}

/-- The edges of a compiled automaton ascend at every node, so that it passes the check. -/
theorem partitionFault?_compile : (compile options interval).root.partitionFault? = none := by
  rw [← Node.partitionFault?_rename fun _ => 0, ← Node.unfolded, unfolded_root_compile,
    Node.partitionFault?_eq_none_iff]
  rintro node ⟨ranges, hpath⟩
  obtain ⟨levels, low, high, hplaced, rfl⟩ :=
    exists_placed_of_path (Placed.ofInterval interval) hpath
  exact ascending_treeFor hplaced

/-- **No check ever fails.** Every call of a compilation has its bounds in order and below those of
the interval, and lies no deeper than the width; and reckoning with words, where a sum without room,
a difference below zero, an empty range, a call too deep or a graph that fails the partition check
would stop it, the compilation ends with the same automaton and the same reports. -/
theorem wordCompile_eq_ok (options : CompileOptions) (interval : Interval) :
    (∀ call ∈ calls options interval,
      call.low ≤ call.high ∧ call.high ≤ interval.high / 256 ^ call.depth ∧
        call.depth ≤ byteWidth interval.high) ∧
    wordCompile options interval =
      .ok (compile options interval, compileEvents options interval) := by
  constructor
  · intro call hcall
    obtain ⟨levels, hasked⟩ := exists_asked_of_mem_calls hcall
    exact ⟨hasked.placed.low_le_high, hasked.high_le, hasked.depth_le⟩
  · have hbuild : wordBuild options (byteWidth interval.high) (byteWidth interval.high + 1) 0
        interval.low interval.high Store.empty =
          .ok (build options (byteWidth interval.high) 0 interval.low interval.high Store.empty) :=
      wordBuild_eq (Asked.root options.encoding interval)
    have hcheck : (build options (byteWidth interval.high) 0 interval.low interval.high
        Store.empty).result.partitionFault? = none := partitionFault?_compile
    unfold wordCompile
    dsimp only
    rw [hbuild, Word.ok_bind, hcheck]
    rfl

/-- The padded compilation of `[0xff, 0x20100]`, with shared nodes, ends without a fault, and its
call for `[0x1, 0x2]` at depth 2 keeps the bounds. -/
theorem wordCompile_eq_ok_carry :
    (⟨2, 1, 2⟩ : Call) ∈ calls ⟨.padded, true⟩ ⟨0xff, 0x20100, by decide, by decide⟩ ∧
      (1 ≤ 2 ∧ 2 ≤ 0x20100 / 256 ^ 2 ∧ 2 ≤ byteWidth 0x20100) ∧
      wordCompile ⟨.padded, true⟩ ⟨0xff, 0x20100, by decide, by decide⟩ =
        .ok (compile ⟨.padded, true⟩ ⟨0xff, 0x20100, by decide, by decide⟩,
          compileEvents ⟨.padded, true⟩ ⟨0xff, 0x20100, by decide, by decide⟩) := by
  obtain ⟨hcalls, hok⟩ := wordCompile_eq_ok ⟨.padded, true⟩ ⟨0xff, 0x20100, by decide, by decide⟩
  have hmem : (⟨2, 1, 2⟩ : Call) ∈ calls ⟨.padded, true⟩ ⟨0xff, 0x20100, by decide, by decide⟩ := by
    decide
  exact ⟨hmem, hcalls ⟨2, 1, 2⟩ hmem, hok⟩

end Automaton

end IntervalAutomata
