import IntervalAutomata.Proofs.Compile.Begun
import IntervalAutomata.Proofs.Compile.Report
import IntervalAutomata.Proofs.Text.Lines

/-!
# A trace with sharing abbreviates the trace without

Where a remembered node is shared, the trace says so in one line. The reports that are left out can
be read off from the trace itself: an earlier part of it, from the beginning of the node up to the
first report that is less deep, is all that was reported for the node when it was built
(`Completed`). To expand a trace is to put these parts in the place of the reuses, moved to their
depth, after reuses in the parts themselves have been replaced (`Expands`).

* **An expansion is unique** (`Expands.unique`), because no node is begun twice and a part is
  delimited by its depths.
* **The invariant** (`Settled`): for each remembered node the trace has a completed part, whose
  expansion is what a construction without sharing reports at the place where the node was built.
  A part is completed only when something less deep is reported, which for a node that was just
  finished is still to come.
* **The construction** with sharing reports what expands to the reports of the one without
  (`build_abbreviates`), so that the trace of an interval with sharing expands to the trace without,
  and to nothing else (`Automaton.expands_compileEvents_iff`).
-/

namespace IntervalAutomata

/-! ## Completed parts and expansions -/

/-- In the trace of what was reported earlier, `block` is all that was reported for a node with the
bounds `low` and `high` at depth `source`, after `before`. It ends where something less deep is
reported. -/
def Completed (earlier : List CompileEvent) (low high : Nat) (before : List CompileEvent)
    (source : Nat) (block : List CompileEvent) : Prop :=
  ∃ accepting body next after, block = .enter source low high accepting :: body ∧
    earlier = before ++ (block ++ next :: after) ∧ (∀ event ∈ body, source ≤ event.depth) ∧
    next.depth < source

/-- Some events that are reported after others expand to a sequence of events: every reuse is
replaced by a completed part for the same bounds, at the same depth under the padded encoding, which
is expanded itself and moved to the depth of the reuse. All other events stay. -/
inductive Expands (encoding : Encoding) :
    (earlier events expanded : List CompileEvent) → Prop where
  /-- Nothing expands to nothing. -/
  | nil (earlier : List CompileEvent) : Expands encoding earlier [] []
  /-- An event that is no reuse stays. -/
  | keep {earlier events expanded : List CompileEvent} {event : CompileEvent}
      (report : ∀ depth low high, event ≠ .reuse depth low high)
      (rest : Expands encoding (earlier ++ [event]) events expanded) :
      Expands encoding earlier (event :: events) (event :: expanded)
  /-- A reuse is replaced. -/
  | reuse {earlier events expanded before block inner : List CompileEvent}
      {depth low high source : Nat} (completed : Completed earlier low high before source block)
      (same : encoding = .padded → source = depth) (unfold : Expands encoding before block inner)
      (rest : Expands encoding (earlier ++ [.reuse depth low high]) events expanded) :
      Expands encoding earlier (.reuse depth low high :: events)
        (inner.map (.moved source depth) ++ expanded)

variable {encoding : Encoding} {earlier later events events' expanded expanded' before before' block
  block' : List CompileEvent} {low high source source' : Nat}

/-- What is completed stays so. -/
theorem Completed.append (h : Completed earlier low high before source block)
    (later : List CompileEvent) : Completed (earlier ++ later) low high before source block := by
  obtain ⟨accepting, body, next, after, hblock, rfl, hbody, hnext⟩ := h
  refine ⟨accepting, body, next, after ++ later, hblock, ?_, hbody, hnext⟩
  rw [List.append_assoc, List.append_assoc, List.cons_append]

/-- For one key there is one completed part. -/
theorem Completed.unique (h : Completed earlier low high before source block)
    (h' : Completed earlier low high before' source' block')
    (hkey : Key.of encoding source low high = Key.of encoding source' low high)
    (hnodup : (begunKeys encoding earlier).Nodup) :
    before = before' ∧ source = source' ∧ block = block' := by
  obtain ⟨accepting, body, next, after, rfl, rfl, hbody, hnext⟩ := h
  obtain ⟨accepting', body', next', after', rfl, hsplit, hbody', hnext'⟩ := h'
  have hbegun' : (CompileEvent.enter source' low high accepting').begun? encoding =
      some (Key.of encoding source low high) := congrArg some hkey.symm
  obtain ⟨hbefore, hhead, htail⟩ := eq_of_begun?_eq rfl hbegun' hnodup hsplit
  rw [CompileEvent.enter.injEq] at hhead
  obtain ⟨rfl, -, -, rfl⟩ := hhead
  obtain ⟨hblock, -⟩ := Text.eq_of_append_eq (p := fun event => source ≤ event.depth) hbody hbody'
    (by intro x hx; obtain rfl := Option.some.inj hx; omega)
    (by intro x hx; obtain rfl := Option.some.inj hx; omega) htail
  exact ⟨hbefore, rfl, by rw [hblock]⟩

namespace Expands

/-- Events that follow each other are expanded one after the other. -/
theorem append (h : Expands encoding earlier events expanded)
    (h' : Expands encoding (earlier ++ events) events' expanded') :
    Expands encoding earlier (events ++ events') (expanded ++ expanded') := by
  induction h with
  | nil earlier =>
      rw [List.append_nil] at h'
      exact h'
  | keep report _ ih =>
      rw [List.append_cons] at h'
      exact .keep report (ih h')
  | reuse completed same inner _ _ ih =>
      rw [List.append_cons] at h'
      rw [List.cons_append, List.append_assoc]
      exact .reuse completed same inner (ih h')

/-- What can be expanded has a completed part before every reuse. -/
theorem exists_completed (h : Expands encoding earlier events expanded) {depth : Nat}
    (hevents : events = events' ++ .reuse depth low high :: later) :
    ∃ before source block, Completed (earlier ++ events') low high before source block ∧
      (encoding = .padded → source = depth) := by
  induction h generalizing events' with
  | nil earlier => simp at hevents
  | @keep earlier events expanded event report _ ih =>
      cases events' with
      | nil =>
          obtain ⟨rfl, -⟩ := List.cons_eq_cons.mp hevents
          exact absurd rfl (report depth low high)
      | cons first events' =>
          obtain ⟨rfl, hrest⟩ := List.cons_eq_cons.mp hevents
          rw [List.append_cons]
          exact ih hrest
  | @reuse earlier events expanded before block inner depth' low' high' source completed same _ _ _
      ih =>
      cases events' with
      | nil =>
          obtain ⟨hreuse, -⟩ := List.cons_eq_cons.mp hevents
          rw [CompileEvent.reuse.injEq] at hreuse
          obtain ⟨rfl, rfl, rfl⟩ := hreuse
          rw [List.append_nil]
          exact ⟨before, source, block, completed, same⟩
      | cons first events' =>
          obtain ⟨rfl, hrest⟩ := List.cons_eq_cons.mp hevents
          rw [List.append_cons]
          exact ih hrest

/-- **An expansion is unique** where no node is begun twice. -/
theorem unique (h : Expands encoding earlier events expanded)
    (h' : Expands encoding earlier events expanded')
    (hnodup : (begunKeys encoding (earlier ++ events)).Nodup) : expanded = expanded' := by
  induction h generalizing expanded' with
  | nil earlier =>
      cases h'
      rfl
  | keep report _ ih =>
      rw [List.append_cons] at hnodup
      cases h' with
      | keep _ rest => rw [ih rest hnodup]
      | reuse _ _ _ _ => exact absurd rfl (report _ _ _)
  | @reuse earlier events expanded before block inner depth low high source completed same _ _
      ihInner ih =>
      cases h' with
      | keep report _ => exact absurd rfl (report _ _ _)
      | @reuse _ _ _ before' block' inner' _ _ _ source' completed' same' unfold' rest =>
          have hsource : encoding = .padded → source = source' :=
            fun hpadded => (same hpadded).trans (same' hpadded).symm
          have hkey : Key.of encoding source low high = Key.of encoding source' low high :=
            Key.of_eq_of_iff.mpr ⟨rfl, rfl, hsource⟩
          have hearlier : (begunKeys encoding earlier).Nodup :=
            hnodup.sublist ((List.sublist_append_left _ _).filterMap _)
          obtain ⟨rfl, rfl, rfl⟩ := completed.unique completed' hkey hearlier
          have hpart : (begunKeys encoding (before ++ block)).Nodup := by
            obtain ⟨_, _, next, after, -, rfl, -⟩ := completed
            rw [← List.append_assoc] at hearlier
            exact hearlier.sublist ((List.sublist_append_left _ _).filterMap _)
          rw [List.append_cons] at hnodup
          rw [ihInner unfold' hpart, ih rest hnodup]

end Expands

/-! ## The invariant -/

section build

variable {options : CompileOptions} {width levels depth : Nat}
  {trace plain plain' : List CompileEvent} {finished finished' : Finished} {store : Store}

/-- A remembered node has a completed part in the trace, which expands to the reports of an unshared
construction. -/
def Recorded (encoding : Encoding) (width : Nat) (trace : List CompileEvent) (key : Key) : Prop :=
  ∃ levels source low high before block, key = Key.of encoding source low high ∧ 0 < source ∧
    Called encoding width levels source low high ∧ Completed trace low high before source block ∧
    Expands encoding before block (reportsFor encoding levels source low high)

/-- All that is remembered is recorded. -/
def Settled (encoding : Encoding) (width : Nat) (trace : List CompileEvent) (finished : Finished) :
    Prop :=
  ∀ entry ∈ finished, Recorded encoding width trace entry.1

/-- Some events abbreviate others: they expand to them, and with whatever is reported next at the
given depth or above, all that is remembered is recorded. -/
structure Abbreviates (encoding : Encoding) (width depth : Nat) (trace events : List CompileEvent)
    (finished : Finished) (plain : List CompileEvent) : Prop where
  /-- The events expand to the others. -/
  expands : Expands encoding trace events plain
  /-- The next report completes what was just finished. -/
  settled : ∀ next : CompileEvent, next.depth ≤ depth →
    Settled encoding width (trace ++ events ++ [next]) finished

/-- What is recorded stays recorded, whatever is reported later. -/
theorem Settled.append (h : Settled encoding width trace finished) (later : List CompileEvent) :
    Settled encoding width (trace ++ later) finished := by
  intro entry hentry
  obtain ⟨levels, source, low, high, before, block, hkey, hpos, hcalled, hcompleted, hexpands⟩ :=
    h entry hentry
  exact ⟨levels, source, low, high, before, block, hkey, hpos, hcalled, hcompleted.append later,
    hexpands⟩

/-- A reuse of a recorded node expands to what an unshared construction reports in its place. -/
theorem Recorded.expands_reuse (h : Recorded encoding width trace (Key.of encoding depth low high))
    (hcalled : Called encoding width levels depth low high) (hdepth : 0 < depth) :
    Expands encoding trace [.reuse depth low high] (reportsFor encoding levels depth low high) := by
  obtain ⟨levels', source, low', high', before, block, hkey, hpos, hcalled', hcompleted,
    hexpands⟩ := h
  obtain ⟨rfl, rfl, hsame⟩ := Key.of_eq_of_iff.mp hkey
  have hreuse := Expands.reuse hcompleted (fun hpadded => (hsame hpadded).symm) hexpands (.nil _)
  rwa [List.append_nil, map_moved_reportsFor hcalled' hcalled hpos hdepth hkey.symm] at hreuse

namespace Abbreviates

/-- The empty row of events abbreviates itself. -/
theorem nil (h : ∀ next : CompileEvent, next.depth ≤ depth →
    Settled encoding width (trace ++ [next]) finished) :
    Abbreviates encoding width depth trace [] finished [] where
  expands := .nil trace
  settled := by
    rw [List.append_nil]
    exact h

/-- Parts that follow each other make one part. -/
theorem append (h : Abbreviates encoding width depth trace events finished plain)
    (h' : Abbreviates encoding width depth (trace ++ events) events' finished' plain') :
    Abbreviates encoding width depth trace (events ++ events') finished' (plain ++ plain') where
  expands := h.expands.append h'.expands
  settled := by
    rw [← List.append_assoc]
    exact h'.settled

/-- An event that is no reuse stays. -/
theorem cons {event : CompileEvent} (report : ∀ depth low high, event ≠ .reuse depth low high)
    (h : Abbreviates encoding width depth (trace ++ [event]) events finished plain) :
    Abbreviates encoding width depth trace (event :: events) finished (event :: plain) where
  expands := .keep report h.expands
  settled := by
    rw [List.append_cons]
    exact h.settled

/-- A finished node is remembered: whatever is less deep and is reported next completes its part. -/
theorem remember (h : Abbreviates encoding width (depth + 1) trace events finished
      (reportsFor encoding levels (depth + 1) low high))
    (hcalled : Called encoding width levels (depth + 1) low high)
    (hhead : ∃ accepting body, events = .enter (depth + 1) low high accepting :: body)
    (hdeep : ∀ event ∈ events, depth + 1 ≤ event.depth) (node : Node) :
    Abbreviates encoding width depth trace events
      ((Key.of encoding (depth + 1) low high, node) :: finished)
      (reportsFor encoding levels (depth + 1) low high) where
  expands := h.expands
  settled := by
    intro next hnext entry hentry
    rcases List.mem_cons.mp hentry with rfl | hentry
    · obtain ⟨accepting, body, hblock⟩ := hhead
      rw [hblock] at hdeep
      have hcompleted : Completed (trace ++ events ++ [next]) low high trace (depth + 1) events :=
        ⟨accepting, body, next, [], hblock, List.append_assoc _ _ _,
          (List.forall_mem_cons.mp hdeep).2, Nat.lt_succ_of_le hnext⟩
      exact ⟨levels, depth + 1, low, high, trace, events, rfl, Nat.succ_pos depth, hcalled,
        hcompleted, h.expands⟩
    · exact h.settled next (Nat.le_succ_of_le hnext) entry hentry

end Abbreviates

/-! ## The construction -/

/-- Looking a node up, or building it and remembering it. -/
theorem share_abbreviates {fresh : Store → Built Node} (hmemo : options.memoize = true)
    (hcalled : Called options.encoding width levels (depth + 1) low high)
    (hstore : Settled options.encoding width trace store.finished)
    (hfresh : Abbreviates options.encoding width (depth + 1) trace (fresh store).events
      (fresh store).store.finished (reportsFor options.encoding levels (depth + 1) low high))
    (hhead : ∃ accepting body, (fresh store).events = .enter (depth + 1) low high accepting :: body)
    (hdeep : ∀ event ∈ (share options (depth + 1) low high fresh store).events,
      depth + 1 ≤ event.depth) :
    Abbreviates options.encoding width depth trace
      (share options (depth + 1) low high fresh store).events
      (share options (depth + 1) low high fresh store).store.finished
      (reportsFor options.encoding levels (depth + 1) low high) := by
  rcases share_cases options (depth + 1) low high fresh store with
    ⟨hroot, -⟩ | ⟨node, hfind, hshare⟩ | ⟨-, hshare⟩
  · exact absurd hroot (not_fresh hmemo (Nat.succ_pos depth))
  · rw [hshare]
    obtain ⟨entry, hentry, rfl⟩ := Option.map_eq_some_iff.mp hfind
    have hkey : entry.1 = Key.of options.encoding (depth + 1) low high := by
      simpa using List.find?_some hentry
    have hrecorded := hstore entry (List.mem_of_find?_eq_some hentry)
    rw [hkey] at hrecorded
    exact ⟨hrecorded.expands_reuse hcalled (Nat.succ_pos depth),
      fun next _ => (hstore.append _).append _⟩
  · rw [hshare] at hdeep ⊢
    exact hfresh.remember hcalled hhead hdeep _

/-- If the children's events abbreviate their reports, those of a row of edges abbreviate the
reports of the row. -/
theorem growEdges_abbreviates {below : Band → ByteRange → Store → Built Node}
    {reports : Band → ByteRange → List CompileEvent} {bands : List Band}
    (hstore : ∀ next : CompileEvent, next.depth ≤ depth →
      Settled encoding width (trace ++ [next]) store.finished)
    (hbelow : ∀ band ∈ bands, ∀ range (trace : List CompileEvent) (store : Store),
      (∀ next : CompileEvent, next.depth ≤ depth →
        Settled encoding width (trace ++ [next]) store.finished) →
      Abbreviates encoding width depth trace (below band range store).events
        (below band range store).store.finished (reports band range)) :
    Abbreviates encoding width depth trace (growEdges below bands store).events
      (growEdges below bands store).store.finished (rowReports reports bands) := by
  induction bands generalizing trace store with
  | nil => exact .nil hstore
  | cons band bands ih =>
      obtain ⟨hband, hbands⟩ := List.forall_mem_cons.mp hbelow
      cases hrange : band.range? with
      | none =>
          rw [growEdges_cons_of_none hrange, rowReports_cons_of_none hrange]
          exact ih hstore hbands
      | some range =>
          rw [growEdges_cons_of_some hrange, rowReports_cons_of_some hrange]
          have hfirst := hband range trace store hstore
          exact hfirst.append (ih hfirst.settled hbands)

/-- A fresh node abbreviates, if building one level below does. -/
theorem innerNode_abbreviates (options : CompileOptions)
    (hcalled : Called options.encoding width (levels + 1) depth low high)
    (hstore : Settled options.encoding width trace store.finished)
    (hbuild : ∀ (low high : Nat) (trace : List CompileEvent) (store : Store),
      Called options.encoding width levels (depth + 1) low high →
      Settled options.encoding width trace store.finished →
      Abbreviates options.encoding width depth trace
        (build options levels (depth + 1) low high store).events
        (build options levels (depth + 1) low high store).store.finished
        (reportsFor options.encoding levels (depth + 1) low high)) :
    Abbreviates options.encoding width depth trace
      (innerNode options levels depth low high store).events
      (innerNode options levels depth low high store).store.finished
      (reportsFor options.encoding (levels + 1) depth low high) := by
  rw [reportsFor_succ]
  refine .cons (by simp) (.cons (by simp) ?_)
  apply growEdges_abbreviates
  · intro next _
    exact ((hstore.append _).append _).append _
  · intro band hband range trace store hstore
    unfold growChild childReports
    split
    · refine .cons (by simp) (.nil ?_)
      intro next _
      exact (hstore (.leaf depth range) (Nat.le_refl depth)).append _
    · rename_i hcalls
      refine .cons (by simp) (hbuild _ _ _ _ (hcalled.child hband hcalls) ?_)
      exact hstore (.edge depth range band.childLow band.childHigh) (Nat.le_refl depth)

/-- **The construction with sharing abbreviates the one without** at every place below the root. -/
theorem build_abbreviates (hmemo : options.memoize = true)
    (hcalled : Called options.encoding width levels (depth + 1) low high)
    (hstore : Settled options.encoding width trace store.finished) :
    Abbreviates options.encoding width depth trace
      (build options levels (depth + 1) low high store).events
      (build options levels (depth + 1) low high store).store.finished
      (reportsFor options.encoding levels (depth + 1) low high) := by
  have hdeep : ∀ event ∈ (build options levels (depth + 1) low high store).events,
      depth + 1 ≤ event.depth := fun event => depth_le_of_mem_events_build
  induction levels generalizing depth low high trace store with
  | zero =>
      rw [build_zero] at hdeep ⊢
      refine share_abbreviates hmemo hcalled hstore ?_ ⟨_, _, rfl⟩ hdeep
      rw [reportsFor_zero]
      refine .cons (by simp) (.nil ?_)
      intro next _
      exact (hstore.append _).append _
  | succ levels ih =>
      rw [build_succ] at hdeep ⊢
      refine share_abbreviates hmemo hcalled hstore ?_ ⟨_, _, rfl⟩ hdeep
      apply innerNode_abbreviates options hcalled hstore
      intro low high trace store hcalled hstore
      exact ih hcalled hstore fun event => depth_le_of_mem_events_build

end build

/-! ## The trace of an interval -/

namespace Automaton

/-- Without sharing a compilation reports every call in full. -/
theorem compileEvents_eq_reportsFor (encoding : Encoding) (interval : Interval) :
    compileEvents ⟨encoding, false⟩ interval =
      reportsFor encoding (byteWidth interval.high) 0 interval.low interval.high :=
  events_build rfl

/-- The trace with sharing expands to the trace without. -/
theorem expands_compileEvents (encoding : Encoding) (interval : Interval) :
    Expands encoding [] (compileEvents ⟨encoding, true⟩ interval)
      (compileEvents ⟨encoding, false⟩ interval) := by
  obtain ⟨levels, hlevels⟩ : ∃ levels, byteWidth interval.high = levels + 1 := ⟨_, rfl⟩
  have hcalled := Called.root encoding interval
  rw [hlevels] at hcalled
  have hmemo : (⟨encoding, true⟩ : CompileOptions).memoize = true := rfl
  have hnothing : Settled encoding (levels + 1) [] Store.empty.finished := by
    intro entry hentry
    cases hentry
  have hroot := innerNode_abbreviates ⟨encoding, true⟩ hcalled hnothing
    fun low high trace store hcalled hstore => build_abbreviates hmemo hcalled hstore
  have hexpands := hroot.expands
  rw [← build_root, ← hlevels] at hexpands
  rw [compileEvents_eq_reportsFor]
  exact hexpands

/-- **A trace with sharing is a faithful abbreviation**: before every reuse stands a completed part
for the same bounds, and to replace the reuses by these parts gives the trace without sharing, and
nothing else. -/
theorem expands_compileEvents_iff (encoding : Encoding) (interval : Interval) :
    (∀ earlier later depth low high,
      compileEvents ⟨encoding, true⟩ interval = earlier ++ .reuse depth low high :: later →
      ∃ before source block, Completed earlier low high before source block ∧
        (encoding = .padded → source = depth)) ∧
    ∀ expanded, Expands encoding [] (compileEvents ⟨encoding, true⟩ interval) expanded ↔
      expanded = compileEvents ⟨encoding, false⟩ interval := by
  have hexpands := expands_compileEvents encoding interval
  refine ⟨?_, ?_⟩
  · intro earlier later depth low high hevents
    exact hexpands.exists_completed hevents
  · intro expanded
    constructor
    · intro h
      exact h.unique hexpands (nodup_begunKeys encoding interval)
    · rintro rfl
      exact hexpands

/-- A node that is shared in the padded automaton for `[0x1, 0xffffff]`. When it was built, a node
was shared below it. -/
theorem expands_compileEvents_iff_nested :
    ∃ trace earlier later,
      trace = compileEvents ⟨.padded, true⟩ ⟨1, 0xffffff, by decide, by decide⟩ ∧
      trace = earlier ++ .reuse 2 0 0xff :: later ∧
      (∃ before block, Completed earlier 0 0xff before 2 block) ∧
      Expands .padded [] trace
        (compileEvents ⟨.padded, false⟩ ⟨1, 0xffffff, by decide, by decide⟩) := by
  obtain ⟨hcompleted, hexpands⟩ :=
    expands_compileEvents_iff .padded ⟨1, 0xffffff, by decide, by decide⟩
  have hsplit : compileEvents ⟨.padded, true⟩ ⟨1, 0xffffff, by decide, by decide⟩ =
      (compileEvents ⟨.padded, true⟩ ⟨1, 0xffffff, by decide, by decide⟩).take 19 ++
        .reuse 2 0 0xff ::
          (compileEvents ⟨.padded, true⟩ ⟨1, 0xffffff, by decide, by decide⟩).drop 20 := by
    decide
  obtain ⟨before, source, block, hblock, hsource⟩ := hcompleted _ _ _ _ _ hsplit
  obtain rfl := hsource rfl
  exact ⟨_, _, _, rfl, hsplit, ⟨before, block, hblock⟩, (hexpands _).mpr rfl⟩

end Automaton

end IntervalAutomata
