import IntervalAutomata.Automaton.Basic
import IntervalAutomata.Text.Line

/-!
# Walks and their reports

Matching as it is shown to a user: what happened at each byte (`WalkEvent`), how that is printed
(`WalkEvent.line`), and the verdict together with the report (`Automaton.walk`). The verdict of a
walk is the answer of `Automaton.accepts`, which keeps no report (`verdict_walk`).
-/

namespace IntervalAutomata

/-- What a walk reports. -/
inductive WalkEvent where
  /-- The value was encoded in these bytes. -/
  | encoded (value : UInt64) (bytes : List UInt8)
  /-- The value has no encoding of the automaton's width. -/
  | unencodable (value : UInt64) (width : Nat)
  /-- The byte at a position led along the edge with this range. -/
  | step (position : Nat) (byte : UInt8) (range : ByteRange)
  /-- No edge contains the byte at a position. -/
  | stuck (position : Nat) (byte : UInt8)
  /-- All bytes were read; the node reached accepts or does not. -/
  | ended (position : Nat) (accepting : Bool)
deriving DecidableEq

/-- Bytes in hexadecimal, separated by blanks. -/
def bytesText (bytes : List UInt8) : String :=
  " ".intercalate (bytes.map fun byte => Numeral.byteHex byte.toNat)

/-- The printed line of an event. -/
def WalkEvent.line : WalkEvent → Line
  | .encoded value bytes =>
    [.plain (Numeral.hex value.toNat ++ " "), .painted .dim ("[" ++ bytesText bytes ++ "]")]
  | .unencodable value width =>
    [.plain (Numeral.hex value.toNat ++ " "),
      .painted .red ("does not fit in " ++ Numeral.decimal width ++ " bytes")]
  | .step position byte range =>
    Line.atDepth (position + 1)
      [.plain (Numeral.byteHex byte.toNat ++ " in "), .painted .blue range.text]
  | .stuck position byte =>
    Line.atDepth (position + 1)
      [.plain (Numeral.byteHex byte.toNat ++ " "), .painted .red "no edge"]
  | .ended position accepting =>
    Line.atDepth (position + 1)
      [if accepting then .painted .green "accept" else .painted .red "reject"]

/-- The outcome of a walk. -/
structure Walk where
  /-- Whether the automaton accepts. -/
  verdict : Bool
  /-- What happened, in order. -/
  events : List WalkEvent

/-- The walk with an event before all others. -/
def Walk.after (event : WalkEvent) (walk : Walk) : Walk :=
  ⟨walk.verdict, event :: walk.events⟩

/-- The walk from a node along bytes, the first of which stands at `position`. -/
def Node.walkFrom (node : Node) (position : Nat) : List UInt8 → Walk
  | [] => ⟨node.accepting, [.ended position node.accepting]⟩
  | byte :: bytes =>
    match node.edgeFor? byte with
    | none => ⟨false, [.stuck position byte]⟩
    | some edge => (edge.child.walkFrom (position + 1) bytes).after (.step position byte edge.range)

namespace Automaton

/-- The walk along a byte sequence. -/
def walkBytes (automaton : Automaton) (bytes : List UInt8) : Walk :=
  automaton.root.walkFrom 0 bytes

/-- The walk along the encoding of a value. -/
def walk (automaton : Automaton) (value : UInt64) : Walk :=
  match encode value automaton.encoding automaton.width with
  | none => ⟨false, [.unencodable value automaton.width]⟩
  | some bytes => (automaton.walkBytes bytes).after (.encoded value bytes)

end Automaton

/-! ## The verdict of a walk -/

/-- The verdict of a walk from a node is whether the node accepts the bytes. -/
theorem Node.verdict_walkFrom (node : Node) (position : Nat) (bytes : List UInt8) :
    (node.walkFrom position bytes).verdict = node.accepts bytes := by
  induction bytes generalizing node position with
  | nil => rfl
  | cons byte bytes ih =>
    cases h : node.edgeFor? byte with
    | none => simp [walkFrom, accepts, h]
    | some edge => simp [walkFrom, accepts, h, Walk.after, ih]

/-- The verdict of a walk along bytes is whether the automaton accepts them. -/
theorem Automaton.verdict_walkBytes (automaton : Automaton) (bytes : List UInt8) :
    (automaton.walkBytes bytes).verdict = automaton.acceptsBytes bytes :=
  automaton.root.verdict_walkFrom 0 bytes

/-- Keeping a report does not change the verdict. -/
theorem Automaton.verdict_walk (automaton : Automaton) (value : UInt64) :
    (automaton.walk value).verdict = automaton.accepts value := by
  cases h : encode value automaton.encoding automaton.width with
  | none => simp [walk, accepts, h]
  | some bytes => simp [walk, accepts, h, Walk.after, verdict_walkBytes]

end IntervalAutomata
