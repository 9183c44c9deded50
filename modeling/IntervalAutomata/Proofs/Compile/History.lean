import IntervalAutomata.Compile.Session
import IntervalAutomata.Proofs.Compile.Unrolling
import IntervalAutomata.Proofs.Node.Identities

/-!
# No compilation depends on the history of its session

A session keeps its store from one compilation to the next, so that later nodes have other
identities than those of a new session, and what a compilation remembers must not leak into the
next. Here it is shown that nothing but the names of the nodes differs.

* **The construction commutes with a shift of identities** (`build_shift`): from a store whose
  identities are all raised by `k` it makes the same graph with all identities raised by `k`, and
  reports the same events. The proof has one lemma for each part of the construction.
* **Each compilation starts from a shifted empty store** (`Store.forget_eq_shift`), since the
  finished nodes are forgotten first.
* **After any history** (`Session.answer_after_start`) a request for an interval is answered with an
  automaton that is isomorphic to that of a new session, and the same events are added to the trace;
  a request for bounds out of order is refused and leaves the session as it is.
-/

namespace IntervalAutomata

/-! ## Isomorphic automata -/

/-- Two automata that differ in the names of their nodes at most. The renaming tells nodes of the
first apart, so that two occurrences are one node in both or in neither. -/
structure Automaton.Isomorphic (a b : Automaton) : Prop where
  /-- Both recognise the same interval. -/
  interval_eq : a.interval = b.interval
  /-- Both read values in the same encoding. -/
  encoding_eq : a.encoding = b.encoding
  /-- Both have the same width. -/
  width_eq : a.width = b.width
  /-- The second graph is the first one under other names. -/
  exists_rename : ∃ f : Nat → Nat,
    (∀ i ∈ a.root.ids, ∀ j ∈ a.root.ids, f i = f j → i = j) ∧ a.root.rename f = b.root

/-! ## Requests -/

/-- What a session can be asked for. -/
inductive CompileRequest where
  /-- To compile the interval between two bounds, if they are in order. -/
  | bounds (low high : UInt64)
  /-- To compile an interval. -/
  | interval (i : Interval)

/-- The interval that is asked for. -/
def CompileRequest.target : CompileRequest → Except InvalidRange Interval
  | .bounds low high => Interval.ofBounds low high
  | .interval i => .ok i

namespace Session

/-- The answer to a request, and the session afterwards. -/
def answer (session : Session) : CompileRequest → Except InvalidRange Automaton × Session
  | .bounds low high => session.compile low high
  | .interval i =>
    let (automaton, session) := session.compileInterval i
    (.ok automaton, session)

/-- The session after some requests, answered in order. -/
def after (session : Session) (requests : List CompileRequest) : Session :=
  requests.foldl (fun session request => (session.answer request).2) session

/-- The printed lines of all reports so far. -/
def lines (session : Session) (palette : Palette) : List String :=
  session.trace.map fun event => event.line.render palette

end Session

/-! ## Shifted identities -/

/-- The store with all identities raised by `k`. -/
def Store.shift (k : Nat) (store : Store) : Store where
  next := store.next + k
  finished := store.finished.map fun entry => (entry.1, entry.2.rename (· + k))

/-- A node that was built, with all identities raised by `k`. -/
def Built.shift (k : Nat) (built : Built Node) : Built Node :=
  ⟨built.result.rename (· + k), built.events, built.store.shift k⟩

/-- Edges that were grown, with all identities raised by `k`. -/
def Built.shiftEdges (k : Nat) (built : Built (List (Edge Node))) : Built (List (Edge Node)) :=
  ⟨built.result.map (Edge.rename (· + k)), built.events, built.store.shift k⟩

/-- A store without finished nodes is an empty store with raised identities. -/
theorem Store.forget_eq_shift (store : Store) :
    store.forget = Store.empty.forget.shift store.next := by
  rw [forget, shift, forget, empty, List.map_nil, Nat.zero_add]

section shift

variable {options : CompileOptions} {levels depth low high : Nat} {store : Store} (k : Nat)

/-- A node that is remembered is found with its identities raised. -/
theorem Store.find?_shift (key : Key) :
    (store.shift k).find? key = (store.find? key).map (Node.rename (· + k)) := by
  rw [find?, find?, shift, List.find?_map, Option.map_map, Option.map_map]
  rfl

/-- Sharing raises identities if the construction of a fresh node does. -/
theorem share_shift {fresh : Store → Built Node}
    (hfresh : fresh (store.shift k) = (fresh store).shift k) :
    share options depth low high fresh (store.shift k) =
      (share options depth low high fresh store).shift k := by
  by_cases hroot : depth = 0 ∨ options.memoize = false
  · rw [share_of_fresh hroot, share_of_fresh hroot, hfresh]
  · have hshift := store.find?_shift k (Key.of options.encoding depth low high)
    cases hfind : store.find? (Key.of options.encoding depth low high) with
    | some node =>
        rw [hfind, Option.map_some] at hshift
        rw [share_of_some hroot hfind, share_of_some hroot hshift]
        rfl
    | none =>
        rw [hfind, Option.map_none] at hshift
        rw [share_of_none hroot hfind, share_of_none hroot hshift, hfresh]
        rfl

/-- A row of edges raises identities if its children do. -/
theorem growEdges_shift {below : Band → ByteRange → Store → Built Node} {bands : List Band}
    (hbelow : ∀ band ∈ bands, ∀ range store,
      below band range (store.shift k) = (below band range store).shift k) :
    growEdges below bands (store.shift k) = (growEdges below bands store).shiftEdges k := by
  induction bands generalizing store with
  | nil => rfl
  | cons band bands ih =>
      obtain ⟨hband, hbands⟩ := List.forall_mem_cons.mp hbelow
      cases hrange : band.range? with
      | none =>
          rw [growEdges_cons_of_none hrange, growEdges_cons_of_none hrange]
          exact ih hbands
      | some range =>
          rw [growEdges_cons_of_some hrange, growEdges_cons_of_some hrange,
            hband range store, Built.shift]
          dsimp only
          rw [ih hbands]
          rfl

/-- A node at the end of the values is built with its identity raised. -/
theorem endNode_shift :
    endNode options depth low high (store.shift k) =
      (endNode options depth low high store).shift k := by
  simp only [endNode, Built.shift, Store.shift, Node.rename_mk, List.map_nil,
    Nat.add_right_comm store.next k 1]

/-- A leaf is built with its identity raised. -/
theorem growLeaf_shift (range : ByteRange) :
    growLeaf depth range (store.shift k) = (growLeaf depth range store).shift k := by
  simp only [growLeaf, Store.newNode, Built.shift, Store.shift, Node.rename_mk, List.map_nil,
    Nat.add_right_comm store.next k 1]

/-- **The construction commutes with a shift of identities.** -/
theorem build_shift :
    build options levels depth low high (store.shift k) =
      (build options levels depth low high store).shift k := by
  induction levels generalizing depth low high store with
  | zero =>
      rw [build_zero, build_zero]
      exact share_shift k (endNode_shift k)
  | succ levels ih =>
      rw [build_succ, build_succ]
      refine share_shift k ?_
      have hchild : ∀ band ∈ (levelFor options.encoding levels depth low high).bands,
          ∀ range store,
            growChild options levels depth (levelFor options.encoding levels depth low high)
                band range (store.shift k) =
              (growChild options levels depth (levelFor options.encoding levels depth low high)
                band range store).shift k := by
        intro band _ range store
        rw [growChild, growChild]
        split
        · exact growLeaf_shift k range
        · rw [ih]
          rfl
      rw [innerNode, innerNode]
      dsimp only
      rw [growEdges_shift k hchild]
      simp only [Built.shift, Built.shiftEdges, Node.rename_mk, Store.shift,
        Nat.add_right_comm _ k 1]

/-- From a store that has forgotten its nodes the construction makes the graph of a new store, with
other identities. -/
theorem build_forget (store : Store) :
    build options levels depth low high store.forget =
      (build options levels depth low high Store.empty.forget).shift store.next := by
  rw [Store.forget_eq_shift store]
  exact build_shift store.next

end shift

/-! ## One compilation -/

namespace Session

variable {session : Session}

/-- What a session answers for an interval and what it reports meanwhile are what a new session
answers and reports, under other identities. -/
theorem compileInterval_eq (session : Session) (interval : Interval) :
    session.compileInterval interval =
      ({ Automaton.compile session.options interval with
          root := (Automaton.compile session.options interval).root.rename
            (· + session.store.next) },
        { session with
          store := (build session.options (byteWidth interval.high) 0 interval.low interval.high
            Store.empty.forget).store.shift session.store.next
          trace := session.trace ++ Automaton.compileEvents session.options interval }) := by
  rw [compileInterval]
  dsimp only
  rw [build_forget]
  rfl

/-- A session whose identities start elsewhere compiles an isomorphic automaton. -/
theorem isomorphic_compileInterval (session : Session) (interval : Interval) :
    (session.compileInterval interval).1.Isomorphic
      (Automaton.compile session.options interval) := by
  rw [compileInterval_eq]
  refine ⟨rfl, rfl, rfl, (· - session.store.next), ?_, ?_⟩
  · -- all identities are at least `session.store.next`, so that subtracting it loses nothing
    intro i hi j hj hij
    rw [Node.ids_rename, List.mem_map] at hi hj
    obtain ⟨i', -, rfl⟩ := hi
    obtain ⟨j', -, rfl⟩ := hj
    dsimp only at hij
    omega
  · rw [Node.rename_rename]
    have hself : (· - session.store.next) ∘ (· + session.store.next) = fun i => i := by
      funext i
      exact Nat.add_sub_cancel i session.store.next
    rw [hself, Node.rename_self]

/-- A compilation adds the reports of its interval to those before. -/
theorem trace_compileInterval (session : Session) (interval : Interval) :
    (session.compileInterval interval).2.trace =
      session.trace ++ Automaton.compileEvents session.options interval := by
  rw [compileInterval_eq]

/-- What a compilation adds to the printed lines are the lines of a new session. -/
theorem lines_compileInterval (session : Session) (interval : Interval) (palette : Palette) :
    (session.compileInterval interval).2.lines palette =
      session.lines palette ++
        ((start session.options).compileInterval interval).2.lines palette := by
  rw [lines, trace_compileInterval, List.map_append, lines, lines]
  rfl

/-! ## Any history -/

/-- No request changes the options. -/
theorem options_answer (session : Session) (request : CompileRequest) :
    (session.answer request).2.options = session.options := by
  cases request with
  | bounds low high =>
      rw [answer, compile]
      split <;> rfl
  | interval i => rfl

/-- No request changes the options. -/
theorem options_after (session : Session) (requests : List CompileRequest) :
    (session.after requests).options = session.options := by
  induction requests generalizing session with
  | nil => rfl
  | cons request requests ih =>
      rw [after, List.foldl_cons, ← after, ih, options_answer]

/-- A request for an interval is answered with the automaton that the session compiles. -/
theorem answer_of_target {request : CompileRequest} {interval : Interval}
    (h : request.target = .ok interval) :
    session.answer request =
      (.ok (session.compileInterval interval).1, (session.compileInterval interval).2) := by
  cases request with
  | bounds low high =>
      rw [CompileRequest.target] at h
      simp only [answer, compile, h]
  | interval i =>
      cases h
      rfl

/-- Bounds out of order are refused, and the session stays as it is. -/
theorem answer_of_lt {low high : UInt64} (h : high < low) :
    session.answer (.bounds low high) = (.error ⟨low, high⟩, session) := by
  simp only [answer, compile, Interval.ofBounds_of_lt h]

/-- **Answers do not depend on the history.** After any requests, a request for an interval is
answered with an automaton isomorphic to that of a new session, and the lines that are printed
meanwhile are those of a new session. Bounds out of order are refused; nothing is printed, and every
later request finds the session as it was. -/
theorem answer_after_start (options : CompileOptions) (earlier : List CompileRequest) :
    (∀ request interval, CompileRequest.target request = .ok interval →
      ∃ automaton later,
        ((start options).after earlier).answer request = (.ok automaton, later) ∧
        automaton.Isomorphic ((start options).compileInterval interval).1 ∧
        ∀ palette, later.lines palette =
          ((start options).after earlier).lines palette ++
            ((start options).compileInterval interval).2.lines palette) ∧
    (∀ low high, high < low →
      ((start options).after earlier).answer (.bounds low high) =
        (.error ⟨low, high⟩, (start options).after earlier)) := by
  have hoptions : ((start options).after earlier).options = options :=
    options_after (start options) earlier
  constructor
  · intro request interval htarget
    refine ⟨_, _, answer_of_target htarget, ?_, ?_⟩
    · have hiso := isomorphic_compileInterval ((start options).after earlier) interval
      rwa [hoptions] at hiso
    · intro palette
      rw [lines_compileInterval, hoptions]
  · intro low high h
    exact answer_of_lt h

/-- After an interval of another width and a refusal, the padded automaton for `[0xff, 0x20100]` is
that of a new session, and bounds out of order are refused again. -/
theorem answer_after_start_mixed :
    (∃ automaton later,
      ((start ⟨.padded, true⟩).after [.bounds 0 0x1ff, .bounds 5 4]).answer
          (.bounds 0xff 0x20100) = (.ok automaton, later) ∧
      automaton.Isomorphic
        ((start ⟨.padded, true⟩).compileInterval { low := 0xff, high := 0x20100 }).1 ∧
      ∀ palette, later.lines palette =
        ((start ⟨.padded, true⟩).after [.bounds 0 0x1ff, .bounds 5 4]).lines palette ++
          ((start ⟨.padded, true⟩).compileInterval
            { low := 0xff, high := 0x20100 }).2.lines palette) ∧
    ((start ⟨.padded, true⟩).after [.bounds 0 0x1ff, .bounds 5 4]).answer (.bounds 5 4) =
      (.error ⟨5, 4⟩, (start ⟨.padded, true⟩).after [.bounds 0 0x1ff, .bounds 5 4]) := by
  obtain ⟨hok, hrefused⟩ := answer_after_start ⟨.padded, true⟩ [.bounds 0 0x1ff, .bounds 5 4]
  constructor
  · exact hok (.bounds 0xff 0x20100) { low := 0xff, high := 0x20100 } (by decide)
  · exact hrefused 5 4 (by decide)

end Session

end IntervalAutomata
