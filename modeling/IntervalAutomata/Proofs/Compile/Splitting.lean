import IntervalAutomata.Proofs.Compile.Report
import Mathlib.Order.Bounds.Basic

/-!
# How a node splits its numbers

A number between the bounds of a node is a low byte and a rest. For every byte the rests that go
with it are consecutive, and the node that is built has exactly one edge for a byte that goes with
any (`build_splits`). The child of that edge is asked for the rests of the byte, no more and no
fewer: its bounds are the least of them and the greatest (`Band.Suits.restsOf_eq_Icc`).

What an edge asks for is seen from the reports of its node, which are those at the depth of the node
(`addedEdges`). They name the edges in their order, since all that is reported for a child lies
deeper (`addedEdges_growEdges`).

Zero is not split at a node that accepts it: such a node reads the numbers from 1 on (`leastRead`).
-/

namespace IntervalAutomata

/-! ## Rests of a byte -/

/-- The rests that go with a byte: together they make a number between two bounds. -/
def restsOf (least greatest : Nat) (byte : UInt8) : Set Nat :=
  {rest | least ≤ 256 * rest + byte.toNat ∧ 256 * rest + byte.toNat ≤ greatest}

/-- The least number whose bytes a node with the given lower bound reads. Below the root, zero is
spelled by no byte under the minimal encoding. -/
def leastRead (encoding : Encoding) (depth low : Nat) : Nat :=
  if encoding = .minimal ∧ depth ≠ 0 ∧ low = 0 then 1 else low

/-- A number is among the rests of a byte if the two together lie between the bounds. -/
theorem mem_restsOf_iff {least greatest rest : Nat} {byte : UInt8} :
    rest ∈ restsOf least greatest byte ↔
      least ≤ 256 * rest + byte.toNat ∧ 256 * rest + byte.toNat ≤ greatest :=
  Iff.rfl

/-- Below a single byte there is no rest but zero. -/
theorem restsOf_eq_zero {least greatest : Nat} {byte : UInt8} (h : greatest < 256)
    (hrests : (restsOf least greatest byte).Nonempty) : restsOf least greatest byte = {0} := by
  obtain ⟨rest, hrest⟩ := hrests
  rw [mem_restsOf_iff] at hrest
  ext other
  rw [mem_restsOf_iff, Set.mem_singleton_iff]
  omega

section levelFor

variable {encoding : Encoding} {levels depth low high : Nat}

/-- A node reads the numbers of its level. -/
theorem least_levelFor (encoding : Encoding) (levels depth low high : Nat) :
    (levelFor encoding levels depth low high).least = leastRead encoding depth low := by
  rw [levelFor, Level.least_ofBounds, leastRead]
  simp only [acceptsAt_succ_iff]
  split
  · omega
  · rfl

/-- The rests of a byte are those that the level holds with it. -/
theorem mem_restsOf_iff_holds (levels : Nat) {byte : UInt8} {rest : Nat} :
    rest ∈ restsOf (leastRead encoding depth low) high byte ↔
      (levelFor encoding levels depth low high).Holds byte.toNat rest := by
  rw [mem_restsOf_iff, Level.Holds, least_levelFor, levelFor, Level.greatest_ofBounds]

/-- The upper bound is a single byte exactly if the layout is that of single bytes. -/
theorem layout_levelFor_eq_singleByte_iff (h : low ≤ high) :
    (levelFor encoding levels depth low high).layout = .singleByte ↔ high < 256 := by
  have hrest : (levelFor encoding levels depth low high).highRest = high / 256 := rfl
  constructor
  · intro hlayout
    have hvalid := valid_levelFor encoding levels depth h
    have hsays := hvalid.layout_says
    rw [hlayout, Layout.Says, hrest] at hsays
    omega
  · intro hsmall
    have hzero : high / 256 = 0 := by omega
    rw [Level.layout, Layout.ofParts, hrest, if_pos hzero]

/-- The rests of a byte of a band are all that its child is asked for. -/
theorem Band.Suits.restsOf_eq_Icc {band : Band}
    (suits : band.Suits (levelFor encoding levels depth low high)) {byte : UInt8}
    (hlow : band.low ≤ byte.toNat) (hhigh : byte.toNat ≤ band.high) :
    restsOf (leastRead encoding depth low) high byte = Set.Icc band.childLow band.childHigh := by
  ext rest
  rw [mem_restsOf_iff_holds levels, suits.holds_iff byte.toNat hlow hhigh rest,
    Set.mem_Icc]

/-- A byte goes with some rest iff it lies in a band. -/
theorem restsOf_nonempty_iff (levels : Nat) (h : low ≤ high) {byte : UInt8} :
    (restsOf (leastRead encoding depth low) high byte).Nonempty ↔
      ∃ band ∈ (levelFor encoding levels depth low high).bands,
        band.low ≤ byte.toNat ∧ byte.toNat ≤ band.high := by
  have hvalid := valid_levelFor encoding levels depth h
  constructor
  · rintro ⟨rest, hrest⟩
    exact hvalid.exists_band_of_holds byte.toNat_lt ((mem_restsOf_iff_holds levels).mp hrest)
  · rintro ⟨band, hband, hlow, hhigh⟩
    have suits := hvalid.suits_of_mem hband
    rw [suits.restsOf_eq_Icc hlow hhigh]
    exact Set.nonempty_Icc.mpr suits.child_le

end levelFor

/-! ## Edges and their reports -/

/-- An edge as it is added to a node. -/
structure AddedEdge where
  /-- The bytes of the edge. -/
  range : ByteRange
  /-- The lower bound that the child is asked for. -/
  childLow : Nat
  /-- The upper bound that the child is asked for. -/
  childHigh : Nat
deriving DecidableEq

/-- The edge that an event reports for the node built at a depth. A leaf stands for the rest zero
alone. -/
def CompileEvent.added? (depth : Nat) : CompileEvent → Option AddedEdge
  | .edge depth' range childLow childHigh =>
    if depth' = depth then some ⟨range, childLow, childHigh⟩ else none
  | .leaf depth' range => if depth' = depth then some ⟨range, 0, 0⟩ else none
  | _ => none

/-- The edges that are reported for the node built at a depth, in order. -/
def addedEdges (depth : Nat) (events : List CompileEvent) : List AddedEdge :=
  events.filterMap (CompileEvent.added? depth)

/-- The edge of a band that has bytes. -/
def Band.added? (band : Band) : Option AddedEdge :=
  band.range?.map fun range => ⟨range, band.childLow, band.childHigh⟩

/-- What lies deeper is reported for other nodes. -/
theorem CompileEvent.added?_of_lt {depth : Nat} {event : CompileEvent} (h : depth < event.depth) :
    event.added? depth = none := by
  cases event with
  | enter | laidOut | reuse => rfl
  | edge depth' range childLow childHigh => exact if_neg (Nat.ne_of_gt h)
  | leaf depth' range => exact if_neg (Nat.ne_of_gt h)

section growEdges

variable {options : CompileOptions} {levels depth : Nat} {level : Level}
  {below : Band → ByteRange → Store → Built Node} {bands : List Band} {store : Store}

/-- The report of a band comes first, and all others are for nodes below. -/
theorem addedEdges_growChild {band : Band} {range : ByteRange}
    (hsingle : level.layout = .singleByte → band.childLow = 0 ∧ band.childHigh = 0) :
    addedEdges depth (growChild options levels depth level band range store).events =
      [⟨range, band.childLow, band.childHigh⟩] := by
  unfold growChild addedEdges
  split
  · rename_i hleaf
    obtain ⟨hlow, hhigh⟩ := hsingle hleaf.1
    rw [growLeaf, hlow, hhigh]
    simp [CompileEvent.added?]
  · have hbelow : (build options levels (depth + 1) band.childLow band.childHigh
        store).events.filterMap (CompileEvent.added? depth) = [] := by
      rw [List.filterMap_eq_nil_iff]
      intro event hevent
      exact CompileEvent.added?_of_lt (depth_le_of_mem_events_build hevent)
    simp [CompileEvent.added?, hbelow]

/-- **A row of edges reports the edge of every band with bytes**, in order. -/
theorem addedEdges_growEdges
    (hsingle : ∀ band ∈ bands, level.layout = .singleByte →
      band.childLow = 0 ∧ band.childHigh = 0) :
    addedEdges depth (growEdges (growChild options levels depth level) bands store).events =
      bands.filterMap Band.added? := by
  induction bands generalizing store with
  | nil => rfl
  | cons band bands ih =>
      obtain ⟨hband, hbands⟩ := List.forall_mem_cons.mp hsingle
      rw [List.filterMap_cons, Band.added?]
      cases hrange : band.range? with
      | none =>
          rw [growEdges_cons_of_none hrange]
          exact ih hbands
      | some range =>
          rw [growEdges_cons_of_some hrange]
          dsimp only [Option.map_some]
          rw [addedEdges, List.filterMap_append, ← addedEdges, ← addedEdges,
            addedEdges_growChild hband, ih hbands]
          rfl

/-- The edges of a row have the ranges of its bands. -/
theorem map_range_growEdges :
    (growEdges below bands store).result.map Edge.range = bands.filterMap Band.range? := by
  induction bands generalizing store with
  | nil => rfl
  | cons band bands ih =>
      rw [List.filterMap_cons]
      cases hrange : band.range? with
      | none =>
          rw [growEdges_cons_of_none hrange]
          exact ih
      | some range =>
          rw [growEdges_cons_of_some hrange, List.map_cons, ih]

/-- Below the edge of a band is what grows there. -/
theorem exists_edge_growEdges (below : Band → ByteRange → Store → Built Node) (store : Store)
    {band : Band} (hband : band ∈ bands) {range : ByteRange} (hrange : band.range? = some range) :
    ∃ edge ∈ (growEdges below bands store).result, edge.range = range ∧
      ∃ before, edge.child = (below band range before).result := by
  induction bands generalizing store with
  | nil => cases hband
  | cons first bands ih =>
      rcases List.mem_cons.mp hband with rfl | hband
      · rw [growEdges_cons_of_some hrange]
        exact ⟨_, List.mem_cons_self, rfl, store, rfl⟩
      · cases hfirst : first.range? with
        | none =>
            rw [growEdges_cons_of_none hfirst]
            exact ih store hband
        | some range' =>
            rw [growEdges_cons_of_some hfirst]
            obtain ⟨edge, hedge, hfacts⟩ := ih (below first range' store).store hband
            exact ⟨edge, List.mem_cons_of_mem _ hedge, hfacts⟩

end growEdges

/-- In an ascending row exactly one range has a byte, if any has. -/
theorem filter_contains_eq_singleton {α : Type} {range : α → ByteRange} {xs : List α}
    (hascending : (xs.map range).Pairwise fun first second => first.high < second.low) {x : α}
    (hx : x ∈ xs) {byte : UInt8} (hbyte : byte ∈ range x) :
    xs.filter (fun x => (range x).contains byte) = [x] := by
  induction xs with
  | nil => cases hx
  | cons first xs ih =>
      rw [List.map_cons, List.pairwise_cons] at hascending
      obtain ⟨hfirst, hrest⟩ := hascending
      have hlater : ∀ later ∈ xs, byte ∈ range first → byte ∉ range later := by
        intro later hlater hin hin'
        have hlt := hfirst (range later) (List.mem_map_of_mem hlater)
        rw [ByteRange.mem_iff] at hin hin'
        omega
      rcases List.mem_cons.mp hx with rfl | hx
      · have hin : (range x).contains byte = true := decide_eq_true hbyte
        have hnone : xs.filter (fun x => (range x).contains byte) = [] := by
          rw [List.filter_eq_nil_iff]
          intro later hmem hin'
          exact hlater later hmem hbyte (of_decide_eq_true hin')
        rw [List.filter_cons, if_pos hin, hnone]
      · have hout : ¬ (range first).contains byte = true := by
          intro hin
          exact hlater x hx (of_decide_eq_true hin) hbyte
        rw [List.filter_cons, if_neg hout, ih hrest hx]

/-! ## The node that is built -/

section build

variable {options : CompileOptions} {levels depth low high : Nat} {store : Store}

/-- A node that is not reused has the edges and the reports of a fresh one. -/
theorem build_of_not_reused (levels : Nat)
    (h : depth = 0 ∨ options.memoize = false ∨
      store.find? (Key.of options.encoding depth low high) = none) :
    (build options (levels + 1) depth low high store).result =
        (innerNode options levels depth low high store).result ∧
      (build options (levels + 1) depth low high store).events =
        (innerNode options levels depth low high store).events := by
  rw [build_succ]
  by_cases hfresh : depth = 0 ∨ options.memoize = false
  · rw [share_of_fresh hfresh]
    exact ⟨rfl, rfl⟩
  · have hfind : store.find? (Key.of options.encoding depth low high) = none := by
      rcases h with hdepth | hmemo | hfind
      · exact absurd (Or.inl hdepth) hfresh
      · exact absurd (Or.inr hmemo) hfresh
      · exact hfind
    rw [share_of_none hfresh hfind]
    exact ⟨rfl, rfl⟩

/-- The edges of a fresh node by its bands. -/
theorem map_range_innerNode (options : CompileOptions) (levels depth low high : Nat)
    (store : Store) :
    (innerNode options levels depth low high store).result.edges.map Edge.range =
      (levelFor options.encoding levels depth low high).bands.filterMap Band.range? :=
  map_range_growEdges

/-- The reports of a fresh node by its bands. -/
theorem addedEdges_innerNode (options : CompileOptions) (levels depth low high : Nat)
    (store : Store) :
    addedEdges depth (innerNode options levels depth low high store).events =
      (levelFor options.encoding levels depth low high).bands.filterMap Band.added? := by
  have hsingle : ∀ band ∈ (levelFor options.encoding levels depth low high).bands,
      (levelFor options.encoding levels depth low high).layout = .singleByte →
        band.childLow = 0 ∧ band.childHigh = 0 := by
    intro band hband hlayout
    exact Level.child_of_singleByte hlayout hband
  rw [innerNode, addedEdges, List.filterMap_cons_none rfl, List.filterMap_cons_none rfl]
  exact addedEdges_growEdges hsingle

/-- The edges that are added have the ranges of the bands. -/
theorem map_range_added? (bands : List Band) :
    (bands.filterMap Band.added?).map AddedEdge.range = bands.filterMap Band.range? := by
  have hrange : ∀ band : Band, band.added?.map AddedEdge.range = band.range? := by
    intro band
    rw [Band.added?, Option.map_map]
    exact Option.map_id'
  simp only [List.map_filterMap, hrange]

/-- The ranges of the bands of a level ascend. -/
theorem ascending_ranges (h : low ≤ high) (encoding : Encoding) (levels depth : Nat) :
    ((levelFor encoding levels depth low high).bands.filterMap Band.range?).Pairwise
      fun first second => first.high < second.low := by
  rw [List.pairwise_filterMap]
  refine (valid_levelFor encoding levels depth h).pairwise_bands.imp ?_
  intro first second hlt range hrange range' hrange'
  obtain ⟨-, hhigh⟩ := ByteRange.ofNat?_eq_some_iff.mp hrange
  obtain ⟨hlow, -⟩ := ByteRange.ofNat?_eq_some_iff.mp hrange'
  omega

/-- A byte is on the range of a band iff it lies in one. -/
theorem exists_range_iff (h : low ≤ high) {encoding : Encoding} {byte : UInt8} :
    (∃ range ∈ (levelFor encoding levels depth low high).bands.filterMap Band.range?,
        byte ∈ range) ↔
      ∃ band ∈ (levelFor encoding levels depth low high).bands,
        band.low ≤ byte.toNat ∧ byte.toNat ≤ band.high := by
  constructor
  · rintro ⟨range, hrange, hbyte⟩
    obtain ⟨band, hband, hrange⟩ := List.mem_filterMap.mp hrange
    obtain ⟨hlow, hhigh⟩ := ByteRange.ofNat?_eq_some_iff.mp hrange
    rw [ByteRange.mem_iff, hlow, hhigh] at hbyte
    exact ⟨band, hband, hbyte⟩
  · rintro ⟨band, hband, hbyte⟩
    have hlt := ((valid_levelFor encoding levels depth h).suits_of_mem hband).high_lt
    obtain ⟨range, hrange, hin⟩ := Band.exists_range?_of_mem hlt hbyte.1 hbyte.2
    exact ⟨range, List.mem_filterMap.mpr ⟨band, hband, hrange⟩, hin⟩

/-- What grows below a band, by the bounds of its node. -/
theorem result_growChild (hle : low ≤ high) (band : Band) (range : ByteRange) (store : Store) :
    (growChild options levels depth (levelFor options.encoding levels depth low high) band range
        store).result =
      (if high < 256 ∧ options.encoding = .minimal then growLeaf depth range store
        else build options levels (depth + 1) band.childLow band.childHigh store).result := by
  unfold growChild
  simp only [layout_levelFor_eq_singleByte_iff hle]
  split <;> rfl

/-- **A node splits its numbers by their low bytes.** Let a node be built for bounds in order, and
not be reused. Its edges are those that its reports name, in their order. A byte is on an edge iff
some rest goes with it, and then it is on exactly one; the child of that edge is asked for the
least and the greatest rest that go with the byte, and all between them do so too. Where the upper
bound is a single byte the rest is zero, and under the minimal encoding the child is a leaf. -/
theorem build_splits (options : CompileOptions) (levels depth : Nat) {low high : Nat}
    (hle : low ≤ high) (store : Store)
    (hbuilt : depth = 0 ∨ options.memoize = false ∨
      store.find? (Key.of options.encoding depth low high) = none) (byte : UInt8) :
    let built := build options (levels + 1) depth low high store
    let rests := restsOf (leastRead options.encoding depth low) high byte
    built.result.edges.map Edge.range = (addedEdges depth built.events).map AddedEdge.range ∧
    ((∃ edge ∈ built.result.edges, byte ∈ edge.range) ↔ rests.Nonempty) ∧
    (rests.Nonempty → ∃ edge added,
      built.result.edges.filter (·.range.contains byte) = [edge] ∧
      (addedEdges depth built.events).filter (·.range.contains byte) = [added] ∧
      (∃ before, edge.child =
        (if high < 256 ∧ options.encoding = .minimal then growLeaf depth edge.range before
          else build options levels (depth + 1) added.childLow added.childHigh before).result) ∧
      IsLeast rests added.childLow ∧ IsGreatest rests added.childHigh ∧
      rests = Set.Icc added.childLow added.childHigh ∧ (high < 256 → rests = {0})) := by
  intro built rests
  obtain ⟨hresult, hevents⟩ := build_of_not_reused levels hbuilt
  have hranges : built.result.edges.map Edge.range =
      (levelFor options.encoding levels depth low high).bands.filterMap Band.range? := by
    rw [hresult, map_range_innerNode]
  have hadded : addedEdges depth built.events =
      (levelFor options.encoding levels depth low high).bands.filterMap Band.added? := by
    rw [hevents, addedEdges_innerNode]
  have hascending := ascending_ranges hle options.encoding levels depth
  have hvalid := valid_levelFor options.encoding levels depth hle
  refine ⟨?_, ?_, ?_⟩
  · rw [hranges, hadded, map_range_added?]
  · rw [restsOf_nonempty_iff levels hle, ← exists_range_iff hle, ← hranges]
    simp only [List.mem_map, exists_exists_and_eq_and]
  · intro hrests
    obtain ⟨band, hband, hlow, hhigh⟩ := (restsOf_nonempty_iff levels hle).mp hrests
    have suits := hvalid.suits_of_mem hband
    obtain ⟨range, hrange, hbyte⟩ := Band.exists_range?_of_mem suits.high_lt hlow hhigh
    obtain ⟨edge, hedge, rfl, before, hchild⟩ := exists_edge_growEdges
      (growChild options levels depth (levelFor options.encoding levels depth low high)) store hband
      hrange
    have hreport : ⟨edge.range, band.childLow, band.childHigh⟩ ∈
        addedEdges depth built.events := by
      rw [hadded, List.mem_filterMap]
      exact ⟨band, hband, by rw [Band.added?, hrange, Option.map_some]⟩
    have hIcc : rests = Set.Icc band.childLow band.childHigh := suits.restsOf_eq_Icc hlow hhigh
    refine ⟨edge, ⟨edge.range, band.childLow, band.childHigh⟩, ?_, ?_, ⟨before, ?_⟩, ?_, ?_, hIcc,
      ?_⟩
    · rw [← hranges] at hascending
      exact filter_contains_eq_singleton hascending (hresult ▸ hedge) hbyte
    · rw [← map_range_added?, ← hadded] at hascending
      exact filter_contains_eq_singleton hascending hreport hbyte
    · rw [hchild, result_growChild hle]
    · rw [hIcc]
      exact isLeast_Icc suits.child_le
    · rw [hIcc]
      exact isGreatest_Icc suits.child_le
    · exact fun hsmall => restsOf_eq_zero hsmall hrests

/-- Below the root the node for `[0, 0x3ff]` accepts zero, so that to the byte `00` belong the rests
from 1 on. Between the bounds of `[0x1f0, 0x40f]` lies a gap, whose bytes neither go with the rest
of the lower bound nor with that of the upper. -/
theorem build_splits_gap :
    (0 ≤ 0x3ff ∧ Store.empty.find? (Key.of .minimal 1 0 0x3ff) = none ∧ ∃ edge added,
      (build ⟨.minimal, true⟩ 2 1 0 0x3ff .empty).result.edges.filter (·.range.contains 0) =
          [edge] ∧
        (addedEdges 1 (build ⟨.minimal, true⟩ 2 1 0 0x3ff .empty).events).filter
          (·.range.contains 0) = [added] ∧
        added.childLow = 1 ∧ added.childHigh = 3) ∧
    0x1f0 ≤ 0x40f ∧ ∃ edge added,
      (build ⟨.padded, false⟩ 2 0 0x1f0 0x40f .empty).result.edges.filter
          (·.range.contains 0x80) = [edge] ∧
        (addedEdges 0 (build ⟨.padded, false⟩ 2 0 0x1f0 0x40f .empty).events).filter
          (·.range.contains 0x80) = [added] ∧
        added.childLow = 2 ∧ added.childHigh = 3 := by
  constructor
  · have hrests : restsOf 1 0x3ff 0 = Set.Icc 1 3 := by
      ext rest
      have hbyte : (0 : UInt8).toNat = 0 := rfl
      rw [mem_restsOf_iff, Set.mem_Icc]
      omega
    have hnonempty : (restsOf 1 0x3ff 0).Nonempty := ⟨1, by decide, by decide⟩
    obtain ⟨-, -, hsplits⟩ := build_splits ⟨.minimal, true⟩ 1 1 (show 0 ≤ 0x3ff by decide) .empty
      (Or.inr (Or.inr rfl)) 0
    obtain ⟨edge, added, hedge, hadded, -, hleast, hgreatest, -⟩ := hsplits hnonempty
    refine ⟨by decide, rfl, edge, added, hedge, hadded, ?_, ?_⟩
    · exact hleast.unique (hrests ▸ isLeast_Icc (by decide))
    · exact hgreatest.unique (hrests ▸ isGreatest_Icc (by decide))
  · have hrests : restsOf 0x1f0 0x40f 0x80 = Set.Icc 2 3 := by
      ext rest
      have hbyte : (0x80 : UInt8).toNat = 0x80 := rfl
      rw [mem_restsOf_iff, Set.mem_Icc]
      omega
    have hnonempty : (restsOf 0x1f0 0x40f 0x80).Nonempty := ⟨2, by decide, by decide⟩
    obtain ⟨-, -, hsplits⟩ := build_splits ⟨.padded, false⟩ 1 0 (show 0x1f0 ≤ 0x40f by decide)
      .empty (Or.inl rfl) 0x80
    obtain ⟨edge, added, hedge, hadded, -, hleast, hgreatest, -⟩ := hsplits hnonempty
    refine ⟨by decide, edge, added, hedge, hadded, ?_, ?_⟩
    · exact hleast.unique (hrests ▸ isLeast_Icc (by decide))
    · exact hgreatest.unique (hrests ▸ isGreatest_Icc (by decide))

end build

end IntervalAutomata
