import IntervalAutomata.Automaton.Basic
import IntervalAutomata.Compile.Build

/-!
# Compile sessions

A `Session` compiles intervals one after the other with fixed options and collects their reports. It
keeps its store from one compilation to the next, but each compilation begins by forgetting the
finished nodes, so that no automaton depends on those compiled before it. `Automaton.compile` is the
compilation of a single interval in a session of its own.
-/

namespace IntervalAutomata

/-- Compilations with common options. The width of the numbers compiled is no part of the state,
since every compilation sets it from its own interval before anything uses it. -/
structure Session where
  /-- What every compilation is asked for. -/
  options : CompileOptions
  /-- The store after the latest compilation. -/
  store : Store
  /-- All reports so far, in order. -/
  trace : List CompileEvent

namespace Session

/-- A session in which nothing has been compiled. -/
def start (options : CompileOptions) : Session := ⟨options, .empty, []⟩

/-- Compiles an interval. -/
def compileInterval (session : Session) (interval : Interval) : Automaton × Session :=
  let width := byteWidth interval.high
  let built := build session.options width 0 interval.low interval.high session.store.forget
  ({ root := built.result, interval, encoding := session.options.encoding, width },
    { session with store := built.store, trace := session.trace ++ built.events })

/-- Compiles the interval between two bounds. Bounds out of order are refused, and the session stays
as it is. -/
def compile (session : Session) (low high : UInt64) :
    Except InvalidRange Automaton × Session :=
  match Interval.ofBounds low high with
  | .error e => (.error e, session)
  | .ok interval =>
    let (automaton, session) := session.compileInterval interval
    (.ok automaton, session)

end Session

/-- The automaton of an interval. -/
def Automaton.compile (options : CompileOptions) (interval : Interval) : Automaton :=
  ((Session.start options).compileInterval interval).1

/-- What the compilation of an interval reports. -/
def Automaton.compileEvents (options : CompileOptions) (interval : Interval) : List CompileEvent :=
  ((Session.start options).compileInterval interval).2.trace

end IntervalAutomata
