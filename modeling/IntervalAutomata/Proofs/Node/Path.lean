import IntervalAutomata.Proofs.Node.Identities

/-!
# Paths through a graph

A path leads from a node along edges, given by their ranges, to a node below it (`Node.Path`). The
nodes at the ends of all paths are those that make up the graph (`Node.Reaches`). A walk follows one
path, the one along the first edge that fits each byte (`Node.follow?`).

* **Accepting leaves** (`AcceptingLeaf`) accept the empty sequence and no other. Where every node
  accepts some sequence, no other node does so (`acceptingLeaf_of_accepts_iff`).
* **Reports** (`walkFrom_reports`): a walk reports one step for each byte up to the first one that
  has no edge, and then either that byte or the end of the sequence.
* **No dead ends** (`isSome_follow?_iff`): if every node of a graph accepts some sequence, a walk
  finds an edge for every byte of a sequence iff the sequence can be continued to an accepted one.
  So the walk stops at the earliest byte that rules acceptance out.
-/

namespace IntervalAutomata

/-- No range is empty. -/
theorem ByteRange.exists_mem (range : ByteRange) : ∃ byte : UInt8, byte ∈ range := by
  refine ⟨UInt8.ofNat range.low, ?_⟩
  have hle := range.low_le_high
  have hlt := range.high_lt
  rw [ByteRange.mem_iff, UInt8.toNat_ofNat_of_lt' (by simp only [UInt8.size]; omega)]
  exact ⟨Nat.le_refl _, hle⟩

namespace Node

/-! ## Paths -/

/-- The edges with these ranges, one below the other, lead from one node to another. -/
inductive Path : Node → List ByteRange → Node → Prop where
  /-- No edge leads from a node to itself. -/
  | here (node : Node) : Path node [] node
  /-- An edge and then a path from its child. -/
  | along {node target : Node} {edge : Edge Node} {ranges : List ByteRange}
      (mem : edge ∈ node.edges) (below : Path edge.child ranges target) :
      Path node (edge.range :: ranges) target

/-- The target is the node itself or lies below it. -/
def Reaches (node target : Node) : Prop :=
  ∃ ranges, node.Path ranges target

/-- A node is reached from itself. -/
theorem Reaches.refl (node : Node) : node.Reaches node :=
  ⟨[], .here node⟩

/-- What is reached from a child is reached from the node. -/
theorem Reaches.below {node target : Node} {edge : Edge Node} (hedge : edge ∈ node.edges)
    (h : edge.child.Reaches target) : node.Reaches target := by
  obtain ⟨ranges, hpath⟩ := h
  exact ⟨edge.range :: ranges, .along hedge hpath⟩

/-- The children of what is reached are reached. -/
theorem Reaches.child {node target : Node} {edge : Edge Node} (h : node.Reaches target)
    (hedge : edge ∈ target.edges) : node.Reaches edge.child := by
  obtain ⟨ranges, hpath⟩ := h
  induction hpath with
  | here node => exact .below hedge (.refl _)
  | along hmem _ ih => exact .below hmem (ih hedge)

/-- What holds of a node and passes from every node to its children, holds of all nodes that are
reached. -/
theorem Reaches.induct {motive : Node → Prop} {node target : Node} (h : node.Reaches target)
    (here : motive node)
    (child : ∀ node, motive node → ∀ edge ∈ node.edges, motive edge.child) : motive target := by
  obtain ⟨ranges, hpath⟩ := h
  induction hpath with
  | here node => exact here
  | along hedge _ ih => exact ih (child _ here _ hedge)

/-- A renaming keeps paths. -/
theorem Path.rename {node target : Node} {ranges : List ByteRange} (f : Nat → Nat)
    (h : node.Path ranges target) : (node.rename f).Path ranges (target.rename f) := by
  induction h with
  | here node => exact .here _
  | @along node target edge ranges hedge _ ih =>
      have hmem : edge.rename f ∈ (node.rename f).edges := by
        rw [edges_rename]
        exact List.mem_map_of_mem hedge
      exact @Path.along _ _ (edge.rename f) _ hmem ih

/-- Every identity of a graph is that of a node which is reached. -/
theorem exists_reaches_of_mem_ids {node : Node} {i : Nat} (h : i ∈ node.ids) :
    ∃ target, node.Reaches target ∧ target.id = i := by
  induction node using Node.induct with
  | step j a es ih =>
      rw [ids_mk, List.mem_cons, mem_idsBelow] at h
      rcases h with rfl | ⟨edge, hedge, hi⟩
      · exact ⟨_, Reaches.refl _, rfl⟩
      · obtain ⟨target, hreaches, hid⟩ := ih edge hedge hi
        exact ⟨target, Reaches.below hedge hreaches, hid⟩

/-! ## Following bytes -/

/-- The node at which a walk along some bytes arrives, if it finds an edge for each of them. -/
def follow? (node : Node) : List UInt8 → Option Node
  | [] => some node
  | byte :: bytes =>
    match node.edgeFor? byte with
    | none => none
    | some edge => edge.child.follow? bytes

variable {node : Node} {byte : UInt8} {bytes : List UInt8}

/-- The empty sequence leads to the node itself. -/
@[simp] theorem follow?_nil (node : Node) : node.follow? [] = some node := rfl

/-- Bytes lead nowhere if the first has no edge. -/
theorem follow?_cons_of_none (h : node.edgeFor? byte = none) (bytes : List UInt8) :
    node.follow? (byte :: bytes) = none := by
  simp only [follow?, h]

/-- Bytes lead to where the others lead from the child of the first. -/
theorem follow?_cons_of_some {edge : Edge Node} (h : node.edgeFor? byte = some edge)
    (bytes : List UInt8) : node.follow? (byte :: bytes) = edge.child.follow? bytes := by
  simp only [follow?, h]

/-- The edge that is found for a byte belongs to the node and contains the byte. -/
theorem mem_of_edgeFor? {edge : Edge Node} (h : node.edgeFor? byte = some edge) :
    edge ∈ node.edges ∧ byte ∈ edge.range := by
  unfold edgeFor? at h
  have hbyte := List.find?_some h
  exact ⟨List.mem_of_find?_eq_some h, of_decide_eq_true hbyte⟩

/-- A walk follows a path, edge by edge. -/
theorem exists_path_of_follow? {target : Node} (h : node.follow? bytes = some target) :
    ∃ ranges, node.Path ranges target ∧ ranges.length = bytes.length := by
  induction bytes generalizing node with
  | nil =>
      obtain rfl := Option.some.inj h
      exact ⟨[], .here node, rfl⟩
  | cons byte bytes ih =>
      cases hfor : node.edgeFor? byte with
      | none =>
          rw [follow?_cons_of_none hfor] at h
          cases h
      | some edge =>
          rw [follow?_cons_of_some hfor] at h
          obtain ⟨ranges, hpath, hlength⟩ := ih h
          refine ⟨edge.range :: ranges, .along (mem_of_edgeFor? hfor).1 hpath, ?_⟩
          rw [List.length_cons, List.length_cons, hlength]

/-- A node at which a walk arrives is reached. -/
theorem reaches_of_follow? {target : Node} (h : node.follow? bytes = some target) :
    node.Reaches target := by
  obtain ⟨ranges, hpath, -⟩ := exists_path_of_follow? h
  exact ⟨ranges, hpath⟩

/-- A sequence is accepted iff its first part leads to a node that accepts the rest. -/
theorem accepts_append_iff {rest : List UInt8} :
    node.accepts (bytes ++ rest) = true ↔
      ∃ target, node.follow? bytes = some target ∧ target.accepts rest = true := by
  induction bytes generalizing node with
  | nil => simp
  | cons byte bytes ih =>
      rw [List.cons_append]
      cases hfor : node.edgeFor? byte with
      | none =>
          rw [accepts_cons_of_none hfor, follow?_cons_of_none hfor]
          simp
      | some edge =>
          rw [accepts_cons_of_some hfor, follow?_cons_of_some hfor]
          exact ih

/-- Where every node accepts something, a walk goes on as long as what was read can be continued to
an accepted sequence. -/
theorem isSome_follow?_iff
    (halive : ∀ target, node.Reaches target → ∃ rest, target.accepts rest = true) :
    (node.follow? bytes).isSome = true ↔ ∃ rest, node.accepts (bytes ++ rest) = true := by
  rw [Option.isSome_iff_exists]
  constructor
  · rintro ⟨target, htarget⟩
    obtain ⟨rest, hrest⟩ := halive target (reaches_of_follow? htarget)
    exact ⟨rest, accepts_append_iff.mpr ⟨target, htarget, hrest⟩⟩
  · rintro ⟨rest, hrest⟩
    obtain ⟨target, htarget, -⟩ := accepts_append_iff.mp hrest
    exact ⟨target, htarget⟩

/-! ## Leaves -/

/-- A node at which a sequence may end and from which no byte leads on. -/
structure AcceptingLeaf (node : Node) : Prop where
  /-- A sequence may end. -/
  accepting : node.accepting = true
  /-- No byte leads on. -/
  isLeaf : node.isLeaf = true

/-- An accepting leaf has no edges. -/
theorem AcceptingLeaf.edges_eq_nil (h : node.AcceptingLeaf) : node.edges = [] :=
  List.isEmpty_iff.mp h.isLeaf

/-- A leaf accepts no sequence with a byte. -/
theorem eq_nil_of_accepts (hleaf : node.isLeaf = true) (h : node.accepts bytes = true) :
    bytes = [] := by
  cases bytes with
  | nil => rfl
  | cons byte bytes =>
      have hfor : node.edgeFor? byte = none := by
        rw [edgeFor?, List.isEmpty_iff.mp hleaf]
        rfl
      rw [accepts_cons_of_none hfor] at h
      cases h

/-- An accepting leaf accepts the empty sequence and no other. -/
theorem AcceptingLeaf.accepts_iff (h : node.AcceptingLeaf) (bytes : List UInt8) :
    node.accepts bytes = true ↔ bytes = [] := by
  constructor
  · exact eq_nil_of_accepts h.isLeaf
  · rintro rfl
    exact h.accepting

/-- Every byte of an edge finds an edge. -/
theorem isSome_edgeFor?_of_mem {edge : Edge Node} (hedge : edge ∈ node.edges)
    (hbyte : byte ∈ edge.range) : (node.edgeFor? byte).isSome = true := by
  rw [edgeFor?, List.find?_isSome]
  exact ⟨edge, hedge, decide_eq_true hbyte⟩

/-- A node that accepts the empty sequence and no other is an accepting leaf, if all its children
accept something. -/
theorem acceptingLeaf_of_accepts_iff
    (halive : ∀ edge ∈ node.edges, ∃ rest, edge.child.accepts rest = true)
    (h : ∀ bytes, node.accepts bytes = true ↔ bytes = []) : node.AcceptingLeaf where
  accepting := by simpa using h []
  isLeaf := by
    apply List.isEmpty_iff.mpr
    apply List.eq_nil_iff_forall_not_mem.mpr
    intro edge hedge
    obtain ⟨byte, hbyte⟩ := edge.range.exists_mem
    obtain ⟨edge', hfor⟩ := Option.isSome_iff_exists.mp (isSome_edgeFor?_of_mem hedge hbyte)
    obtain ⟨rest, hrest⟩ := halive edge' (mem_of_edgeFor? hfor).1
    have haccepts : node.accepts (byte :: rest) = true := by
      rw [accepts_cons_of_some hfor]
      exact hrest
    exact List.cons_ne_nil byte rest ((h _).mp haccepts)

end Node

/-! ## Reports -/

/-- The events of a walk that takes `taken` steps along the bytes, the first of which stands at
`position`: one event for each step, and a last one. -/
structure WalkEvent.Reports (position : Nat) (bytes : List UInt8) (taken : Nat) (verdict : Bool)
    (events : List WalkEvent) : Prop where
  /-- One event follows the steps. -/
  length_eq : events.length = taken + 1
  /-- Each step is along a range that contains its byte. -/
  step : ∀ i < taken, ∃ byte range, bytes[i]? = some byte ∧ byte ∈ range ∧
    events[i]? = some (.step (position + i) byte range)
  /-- The last event is the byte without an edge, or the verdict if there is no such byte. -/
  last : events[taken]? = some (match bytes[taken]? with
    | some byte => .stuck (position + taken) byte
    | none => .ended (position + taken) verdict)

namespace Node

/-- **What a walk reports**: a step for each byte of the longest part that can be followed from the
start, and then either the byte after it or the verdict. -/
theorem walkFrom_reports (node : Node) (position : Nat) (bytes : List UInt8) :
    ∃ taken ≤ bytes.length,
      (∀ n, (node.follow? (bytes.take n)).isSome = true ↔ min n bytes.length ≤ taken) ∧
      WalkEvent.Reports position bytes taken (node.accepts bytes)
        (node.walkFrom position bytes).events := by
  induction bytes generalizing node position with
  | nil =>
      refine ⟨0, Nat.le_refl 0, ?_, rfl, ?_, rfl⟩
      · intro n
        simp
      · intro i hi
        exact absurd hi (Nat.not_lt_zero i)
  | cons byte bytes ih =>
      cases hfor : node.edgeFor? byte with
      | none =>
          have hwalk : node.walkFrom position (byte :: bytes) =
              ⟨false, [.stuck position byte]⟩ := by
            simp only [walkFrom, hfor]
          rw [hwalk]
          refine ⟨0, Nat.zero_le _, ?_, rfl, ?_, rfl⟩
          · intro n
            cases n with
            | zero => simp
            | succ n => simp [follow?_cons_of_none hfor]
          · intro i hi
            exact absurd hi (Nat.not_lt_zero i)
      | some edge =>
          have hwalk : node.walkFrom position (byte :: bytes) =
              (edge.child.walkFrom (position + 1) bytes).after
                (.step position byte edge.range) := by
            simp only [walkFrom, hfor]
          obtain ⟨taken, hle, hfollow, hreports⟩ := ih edge.child (position + 1)
          rw [hwalk, Walk.after, accepts_cons_of_some hfor]
          refine ⟨taken + 1, Nat.succ_le_succ hle, ?_, ?_, ?_, ?_⟩
          · intro n
            cases n with
            | zero => simp
            | succ n =>
                rw [List.take_succ_cons, follow?_cons_of_some hfor, hfollow n, List.length_cons]
                omega
          · rw [List.length_cons, hreports.length_eq]
          · intro i hi
            cases i with
            | zero => exact ⟨byte, edge.range, rfl, (mem_of_edgeFor? hfor).2, rfl⟩
            | succ i =>
                obtain ⟨b, range, hb, hmem, hevent⟩ := hreports.step i (by omega)
                refine ⟨b, range, hb, hmem, ?_⟩
                rw [List.getElem?_cons_succ, hevent, Nat.add_right_comm, Nat.add_assoc]
          · rw [List.getElem?_cons_succ, List.getElem?_cons_succ, hreports.last,
              Nat.add_right_comm, Nat.add_assoc]

end Node

end IntervalAutomata
