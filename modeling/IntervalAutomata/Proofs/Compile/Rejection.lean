import IntervalAutomata.Proofs.Compile.Recognition
import IntervalAutomata.Proofs.Compile.Residual

/-!
# Walks stop at the earliest byte

A walk through a compiled automaton goes on exactly as long as the bytes it has read begin the
encoding of some value of the interval (`Interval.Begins`). So it is refused at the first byte that
rules every value out, and not later: no edge leads to nodes from which nothing is accepted.

The main statement (`Automaton.walkBytes_compile_reports`) says this of the walk and of its report:
one step for each byte of the longest part that begins an encoding, then the byte after it or, if
there is none, the verdict. It rests on two facts: a sequence can be continued to an accepted one
iff it begins an encoding (`Automaton.exists_acceptsBytes_append_iff`), and every node accepts
something (`Automaton.exists_accepts_of_reaches`).
-/

namespace IntervalAutomata

/-- Some value of the interval has an encoding that starts with these bytes. -/
def Interval.Begins (interval : Interval) (encoding : Encoding) (bytes : List UInt8) : Prop :=
  ∃ value : UInt64, value.toNat ∈ interval ∧
    ∃ code, encode value encoding (byteWidth interval.high) = some code ∧ bytes <+: code

namespace Automaton

variable {options : CompileOptions} {interval : Interval} {bytes : List UInt8}

/-- The sequences that can be continued to an accepted one begin an encoding. -/
theorem exists_acceptsBytes_append_iff :
    (∃ rest, (compile options interval).acceptsBytes (bytes ++ rest) = true) ↔
      interval.Begins options.encoding bytes := by
  simp only [acceptsBytes_compile_iff_spells, spells_root_iff]
  constructor
  · rintro ⟨rest, value, hvalue, hencode⟩
    exact ⟨value, hvalue, bytes ++ rest, hencode, List.prefix_append bytes rest⟩
  · rintro ⟨value, hvalue, code, hencode, rest, rfl⟩
    exact ⟨rest, value, hvalue, hencode⟩

/-- A walk finds an edge for every byte iff the bytes begin an encoding. -/
theorem isSome_follow?_compile_iff :
    ((compile options interval).root.follow? bytes).isSome = true ↔
      interval.Begins options.encoding bytes := by
  rw [← exists_acceptsBytes_append_iff]
  apply Node.isSome_follow?_iff
  intro target hreaches
  exact exists_accepts_of_reaches hreaches

/-- **Walks stop at the earliest byte.** No node is a dead end; a walk finds an edge for every byte
of a sequence iff the sequence begins the encoding of a value of the interval; and of a longer
sequence the report has one step for each byte of the longest part that does so, followed by the
byte without an edge or, if all bytes were read, by the verdict. -/
theorem walkBytes_compile_reports (options : CompileOptions) (interval : Interval)
    (bytes : List UInt8) :
    (∀ node, (compile options interval).root.Reaches node → ∃ rest, node.accepts rest = true) ∧
    (((compile options interval).root.follow? bytes).isSome = true ↔
      interval.Begins options.encoding bytes) ∧
    ∃ taken ≤ bytes.length,
      (∀ n, interval.Begins options.encoding (bytes.take n) ↔ min n bytes.length ≤ taken) ∧
      WalkEvent.Reports 0 bytes taken ((compile options interval).acceptsBytes bytes)
        ((compile options interval).walkBytes bytes).events := by
  refine ⟨?_, isSome_follow?_compile_iff, ?_⟩
  · intro node hreaches
    exact exists_accepts_of_reaches hreaches
  · obtain ⟨taken, hle, hfollow, hreports⟩ :=
      (compile options interval).root.walkFrom_reports 0 bytes
    refine ⟨taken, hle, ?_, hreports⟩
    intro n
    rw [← hfollow n]
    exact isSome_follow?_compile_iff.symm

/-- In the padded automaton for `[0xff, 0x20100]` the root accepts something, and the bytes `01 01`
can be followed, since they begin the encoding of `0x10101`. -/
theorem walkBytes_compile_reports_carry :
    (∃ rest,
      (compile ⟨.padded, true⟩ ⟨0xff, 0x20100, by decide, by decide⟩).root.accepts rest = true) ∧
      ((compile ⟨.padded, true⟩ ⟨0xff, 0x20100, by decide, by decide⟩).root.follow? [1, 1]).isSome =
        true := by
  obtain ⟨halive, hfollow, -⟩ :=
    walkBytes_compile_reports ⟨.padded, true⟩ ⟨0xff, 0x20100, by decide, by decide⟩ [1, 1]
  constructor
  · exact halive _ (Node.Reaches.refl _)
  · exact hfollow.mpr ⟨0x10101, by decide, [1, 1, 1], by decide, [1], rfl⟩

end Automaton

end IntervalAutomata
