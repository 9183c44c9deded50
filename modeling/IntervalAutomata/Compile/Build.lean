import IntervalAutomata.Compile.Event
import IntervalAutomata.Encoding
import IntervalAutomata.Level.Bands
import IntervalAutomata.Node.Basic

/-!
# Building nodes

The recursion that turns bounds into a node (`build`). A node for the bounds `low` and `high`
consumes the least significant byte of the values between them: each band of the level gives an
edge, and the child recognises the rests that go with the band.

The recursion descends through as many levels as the upper bound has bytes. It threads a `Store`,
which hands out identities and, if nodes are shared, remembers finished nodes under their bounds;
and it yields its reports in order, so that what a call reports is part of its result (`Built`).

## Main definitions

* `acceptsAt`: whether the node for a lower bound accepts;
* `Store.share`: the reuse of a remembered node;
* `growEdges`: the edges of one level, given what grows below each band;
* `build`: the node for given bounds.
-/

namespace IntervalAutomata

/-- What a compilation can be asked for. -/
structure CompileOptions where
  /-- The encoding of the values. -/
  encoding : Encoding := .minimal
  /-- Whether nodes for equal bounds are shared. -/
  memoize : Bool := false
deriving DecidableEq

/-! ## The store -/

/-- What a node is remembered under. -/
structure Key where
  /-- The lower bound. -/
  low : Nat
  /-- The upper bound. -/
  high : Nat
  /-- The depth, where it matters to what the node recognises. -/
  depth : Nat
deriving DecidableEq

/-- The key for bounds at a depth. The padded encoding tells depths apart, since the number of bytes
still to come is part of what a node recognises; the minimal encoding does not. -/
def Key.of (encoding : Encoding) (depth low high : Nat) : Key :=
  match encoding with
  | .minimal => ⟨low, high, 0⟩
  | .padded => ⟨low, high, depth⟩

/-- What the compilation knows from the nodes it has finished. -/
structure Store where
  /-- The identity of the next node. -/
  next : Nat
  /-- Finished nodes by key, the latest first. -/
  finished : List (Key × Node)

namespace Store

/-- The store before any node is built. -/
def empty : Store := ⟨0, []⟩

/-- The store without its finished nodes. Identities that were handed out stay taken. -/
def forget (store : Store) : Store := { store with finished := [] }

/-- The finished node under a key. -/
def find? (store : Store) (key : Key) : Option Node :=
  (store.finished.find? (·.1 = key)).map Prod.snd

/-- Keeps a node under a key. -/
def remember (store : Store) (key : Key) (node : Node) : Store :=
  { store with finished := (key, node) :: store.finished }

/-- A new node, with an identity of its own. -/
def newNode (store : Store) (accepting : Bool) (edges : List (Edge Node)) : Node × Store :=
  (.mk store.next accepting edges, { store with next := store.next + 1 })

end Store

/-- What a part of the construction yields. -/
structure Built (α : Type) where
  /-- What was built. -/
  result : α
  /-- What was reported meanwhile, in order. -/
  events : List CompileEvent
  /-- The store afterwards. -/
  store : Store

/-! ## One node -/

/-- Whether a node accepts. The root does not, since no value has an empty encoding. Below it, a
node accepts under the minimal encoding if nothing remains of the least value, and under the padded
encoding if no byte remains to be read. -/
def acceptsAt (encoding : Encoding) (levels depth low : Nat) : Bool :=
  depth != 0 &&
    match encoding with
    | .minimal => low == 0
    | .padded => levels == 0

/-- Answers with the remembered node for these bounds if nodes are shared and there is one.
Otherwise the node is built afresh and, if nodes are shared, remembered. The root stands apart: it
is neither looked for nor remembered. -/
def share (options : CompileOptions) (depth low high : Nat) (fresh : Store → Built Node)
    (store : Store) : Built Node :=
  if depth = 0 ∨ options.memoize = false then
    fresh store
  else
    let key := Key.of options.encoding depth low high
    match store.find? key with
    | some node => ⟨node, [.reuse depth low high], store⟩
    | none =>
      let built := fresh store
      { built with store := built.store.remember key built.result }

/-- The edges for some bands, given what grows below each. A band without bytes has no edge. -/
def growEdges (below : Band → ByteRange → Store → Built Node) :
    List Band → Store → Built (List (Edge Node))
  | [], store => ⟨[], [], store⟩
  | band :: bands, store =>
    match band.range? with
    | none => growEdges below bands store
    | some range =>
      let grown := below band range store
      let rest := growEdges below bands grown.store
      ⟨⟨range, grown.result⟩ :: rest.result, grown.events ++ rest.events, rest.store⟩

/-- An edge straight to an accepting node without edges. -/
def growLeaf (depth : Nat) (range : ByteRange) (store : Store) : Built Node :=
  let (node, store) := store.newNode true []
  ⟨node, [.leaf depth range], store⟩

/-! ## The recursion -/

/-- Builds the node for the bounds `low` and `high` at a depth, with the given number of levels from
there to the last byte of the upper bound.

With no level left no byte is read. Otherwise every band of the level gets its edge; if the upper
bound is a single byte, the values end there, and under the minimal encoding so do their
encodings. -/
def build (options : CompileOptions) : (levels depth low high : Nat) → Store → Built Node
  | 0, depth, low, high, store =>
    share options depth low high
      (fun store =>
        let accepting := acceptsAt options.encoding 0 depth low
        let (node, store) := store.newNode accepting []
        ⟨node, [.enter depth low high accepting], store⟩)
      store
  | levels + 1, depth, low, high, store =>
    share options depth low high
      (fun store =>
        let accepting := acceptsAt options.encoding (levels + 1) depth low
        let level := Level.ofBounds low high accepting
        let grown := growEdges
          (fun band range store =>
            if level.layout = .singleByte ∧ options.encoding = .minimal then
              growLeaf depth range store
            else
              let built := build options levels (depth + 1) band.childLow band.childHigh store
              { built with
                events := .edge depth range band.childLow band.childHigh :: built.events })
          level.bands store
        let (node, store) := grown.store.newNode accepting grown.result
        ⟨node, .enter depth low high accepting :: .laidOut depth level.layout :: grown.events,
          store⟩)
      store

end IntervalAutomata
