import IntervalAutomata.Proofs.Compile.Remembered

/-!
# Where nodes are shared, none is begun twice

A sharing construction begins a node only if none is remembered under its key, and remembers it when
it is finished. So the keys that are remembered in the end are, up to order, those that were
remembered before together with those of the nodes that were begun meanwhile (`Finished.Begins`). No
key is remembered twice (`Finished.Closed`), and therefore no node is begun twice.

For a whole compilation this says that its trace begins each node once
(`Automaton.nodup_begunKeys`). The root is not remembered; but the nodes below it have other keys
than its own (`key_ne_of_mem_callsOf_growEdges`).
-/

namespace IntervalAutomata

/-! ## Nodes that are begun -/

/-- The key of the node that an event begins, if it begins one. -/
def CompileEvent.begun? (encoding : Encoding) : CompileEvent → Option Key
  | .enter depth low high _ => some (Key.of encoding depth low high)
  | _ => none

/-- The keys of the nodes that are begun among some reports, in order. -/
def begunKeys (encoding : Encoding) (events : List CompileEvent) : List Key :=
  events.filterMap (CompileEvent.begun? encoding)

/-- A node that is begun is called for. -/
theorem exists_call_of_mem_begunKeys {encoding : Encoding} {events : List CompileEvent} {key : Key}
    (h : key ∈ begunKeys encoding events) : ∃ call ∈ callsOf events, call.key encoding = key := by
  obtain ⟨event, hevent, hbegun⟩ := List.mem_filterMap.mp h
  cases event with
  | enter depth low high accepting =>
      obtain rfl := Option.some.inj hbegun
      exact ⟨⟨depth, low, high⟩, mem_callsOf.mpr ⟨_, hevent, rfl⟩, rfl⟩
  | laidOut | edge | leaf | reuse => cases hbegun

/-- A trace that begins each node once is split before a node in one way. -/
theorem eq_of_begun?_eq {encoding : Encoding} {xs xs' ys ys' : List CompileEvent}
    {x x' : CompileEvent} {key : Key} (hx : x.begun? encoding = some key)
    (hx' : x'.begun? encoding = some key) (hnodup : (begunKeys encoding (xs ++ x :: ys)).Nodup)
    (h : xs ++ x :: ys = xs' ++ x' :: ys') : xs = xs' ∧ x = x' ∧ ys = ys' := by
  have hmem : ∀ {events others : List CompileEvent} {event : CompileEvent},
      event.begun? encoding = some key → key ∈ begunKeys encoding (events ++ event :: others) :=
    fun hevent => List.mem_filterMap.mpr
      ⟨_, List.mem_append_right _ List.mem_cons_self, hevent⟩
  induction xs generalizing xs' with
  | nil =>
      cases xs' with
      | nil =>
          obtain ⟨hhead, htail⟩ := List.cons_eq_cons.mp h
          exact ⟨rfl, hhead, htail⟩
      | cons first xs' =>
          obtain ⟨-, htail⟩ := List.cons_eq_cons.mp h
          rw [List.nil_append, begunKeys, List.filterMap_cons_some hx, List.nodup_cons] at hnodup
          rw [htail] at hnodup
          exact absurd (hmem hx') hnodup.1
  | cons first xs ih =>
      cases xs' with
      | nil =>
          obtain ⟨rfl, -⟩ := List.cons_eq_cons.mp h
          rw [List.cons_append, begunKeys, List.filterMap_cons_some hx', List.nodup_cons] at hnodup
          exact absurd (hmem hx) hnodup.1
      | cons first' xs' =>
          obtain ⟨rfl, htail⟩ := List.cons_eq_cons.mp h
          have hrest : (begunKeys encoding (xs ++ x :: ys)).Nodup :=
            hnodup.sublist ((List.sublist_cons_self first _).filterMap _)
          obtain ⟨hbefore, hevent, hafter⟩ := ih hrest htail
          exact ⟨by rw [hbefore], hevent, hafter⟩

/-! ## One step -/

/-- The keys of a table after a part of the construction: those before, and one for each node that
was begun. -/
def Finished.Begins (encoding : Encoding) (before : Finished) (events : List CompileEvent)
    (after : Finished) : Prop :=
  (after.map Prod.fst).Perm (begunKeys encoding events ++ before.map Prod.fst)

namespace Finished.Begins

variable {encoding : Encoding} {before middle after : Finished}
  {events later : List CompileEvent} {key : Key}

/-- Where no node is begun, the table may stay as it is. -/
theorem of_begunKeys_eq_nil (h : begunKeys encoding events = []) (finished : Finished) :
    Begins encoding finished events finished := by
  rw [Begins, h, List.nil_append]

/-- Parts that follow each other make one part. -/
theorem append (h : Begins encoding before events middle)
    (h' : Begins encoding middle later after) : Begins encoding before (events ++ later) after := by
  have hkeys : begunKeys encoding (events ++ later) =
      begunKeys encoding events ++ begunKeys encoding later := List.filterMap_append
  rw [Begins] at h h' ⊢
  have hswap : (begunKeys encoding later ++ begunKeys encoding events).Perm
      (begunKeys encoding (events ++ later)) := by
    rw [hkeys]
    exact List.perm_append_comm
  refine (h'.trans (h.append_left _)).trans ?_
  rw [← List.append_assoc]
  exact hswap.append_right _

/-- A node is begun before those below it and remembered after them. -/
theorem remember (h : Begins encoding before events after) (node : Node)
    (hkeys : begunKeys encoding later = key :: begunKeys encoding events) :
    Begins encoding before later ((key, node) :: after) := by
  rw [Begins, hkeys, List.map_cons, List.cons_append]
  exact h.cons key

end Finished.Begins

section build

open Finished

variable {options : CompileOptions} {width levels depth low high : Nat} {store : Store}

/-- Looking a node up, or beginning it and remembering it under its key. -/
theorem share_begins {fresh : Store → Built Node} {events : List CompileEvent}
    (hmemo : options.memoize = true) (hdepth : 0 < depth)
    (hbegins : Begins options.encoding store.finished events (fresh store).store.finished)
    (hkeys : begunKeys options.encoding (fresh store).events =
      Key.of options.encoding depth low high :: begunKeys options.encoding events) :
    Begins options.encoding store.finished (share options depth low high fresh store).events
      (share options depth low high fresh store).store.finished := by
  rcases share_cases options depth low high fresh store with
    ⟨hroot, -⟩ | ⟨node, -, hshare⟩ | ⟨-, hshare⟩
  · exact absurd hroot (not_fresh hmemo hdepth)
  · rw [hshare]
    exact .of_begunKeys_eq_nil rfl _
  · rw [hshare]
    exact hbegins.remember _ hkeys

/-- A row of edges begins calls as its children do. -/
theorem growEdges_begins {encoding : Encoding} {below : Band → ByteRange → Store → Built Node}
    {bands : List Band}
    (hbelow : ∀ band ∈ bands, ∀ range store,
      Begins encoding store.finished (below band range store).events
        (below band range store).store.finished) :
    Begins encoding store.finished (growEdges below bands store).events
      (growEdges below bands store).store.finished := by
  induction bands generalizing store with
  | nil => exact .of_begunKeys_eq_nil rfl _
  | cons band bands ih =>
      obtain ⟨hband, hbands⟩ := List.forall_mem_cons.mp hbelow
      cases hrange : band.range? with
      | none =>
          rw [growEdges_cons_of_none hrange]
          exact ih hbands
      | some range =>
          rw [growEdges_cons_of_some hrange]
          exact (hband range store).append (ih hbands)

/-- The edges of a fresh node begin what is built one level below. -/
theorem growChild_begins (levels depth low high : Nat) (store : Store)
    (hbuild : ∀ low high store, Begins options.encoding store.finished
      (build options levels (depth + 1) low high store).events
      (build options levels (depth + 1) low high store).store.finished) :
    Begins options.encoding store.finished
      (growEdges (growChild options levels depth (levelFor options.encoding levels depth low high))
        (levelFor options.encoding levels depth low high).bands store).events
      (growEdges (growChild options levels depth (levelFor options.encoding levels depth low high))
        (levelFor options.encoding levels depth low high).bands store).store.finished := by
  apply growEdges_begins
  intro band _ range store
  unfold growChild
  split
  · exact .of_begunKeys_eq_nil rfl _
  · have hedge : Begins options.encoding store.finished
        [.edge depth range band.childLow band.childHigh] store.finished :=
      .of_begunKeys_eq_nil rfl _
    exact hedge.append (hbuild _ _ store)

/-! ## The construction -/

/-- A fresh node is begun before the nodes below it. -/
theorem begunKeys_innerNode :
    begunKeys options.encoding (innerNode options levels depth low high store).events =
      Key.of options.encoding depth low high ::
        begunKeys options.encoding (growEdges
          (growChild options levels depth (levelFor options.encoding levels depth low high))
          (levelFor options.encoding levels depth low high).bands store).events := rfl

/-- **What is begun below the root is remembered**, and nothing else. -/
theorem build_begins (hmemo : options.memoize = true) (hdepth : 0 < depth) :
    Begins options.encoding store.finished (build options levels depth low high store).events
      (build options levels depth low high store).store.finished := by
  induction levels generalizing depth low high store with
  | zero =>
      rw [build_zero]
      have hnothing : Begins options.encoding store.finished [] store.finished :=
        .of_begunKeys_eq_nil rfl _
      exact share_begins hmemo hdepth hnothing rfl
  | succ levels ih =>
      rw [build_succ]
      have hgrown := growChild_begins levels depth low high store
        fun low high store => ih (Nat.succ_pos depth)
      exact share_begins hmemo hdepth hgrown begunKeys_innerNode

/-- The nodes below a node are begun under other keys than its own. -/
theorem key_not_mem_begunKeys_growEdges (hplaced : Placed width (levels + 1) depth low high) :
    Key.of options.encoding depth low high ∉ begunKeys options.encoding (growEdges
      (growChild options levels depth (levelFor options.encoding levels depth low high))
      (levelFor options.encoding levels depth low high).bands store).events := by
  intro hmem
  obtain ⟨call, hcall, hkey⟩ := exists_call_of_mem_begunKeys hmem
  exact key_ne_of_mem_callsOf_growEdges hplaced hcall hkey

/-- A fresh node is begun once, and so are all below it, if no key is remembered twice. -/
theorem nodup_begunKeys_innerNode (hmemo : options.memoize = true)
    (hplaced : Placed width (levels + 1) depth low high)
    (hnodup : ((innerNode options levels depth low high store).store.finished.map Prod.fst).Nodup) :
    (begunKeys options.encoding (innerNode options levels depth low high store).events).Nodup := by
  have hgrown := growChild_begins levels depth low high store
    fun low high store => build_begins hmemo (Nat.succ_pos depth)
  rw [begunKeys_innerNode, List.nodup_cons]
  exact ⟨key_not_mem_begunKeys_growEdges hplaced, (List.nodup_append.mp (hgrown.nodup hnodup)).1⟩

end build

/-- **A trace with sharing begins each node once**, the root included. -/
theorem Automaton.nodup_begunKeys (encoding : Encoding) (interval : Interval) :
    (begunKeys encoding (compileEvents ⟨encoding, true⟩ interval)).Nodup := by
  obtain ⟨levels, hlevels⟩ : ∃ levels, byteWidth interval.high = levels + 1 := ⟨_, rfl⟩
  have hplaced := Placed.ofInterval interval
  rw [hlevels] at hplaced
  have hmemo : (⟨encoding, true⟩ : CompileOptions).memoize = true := rfl
  have hbuild : compileEvents ⟨encoding, true⟩ interval =
      (innerNode ⟨encoding, true⟩ levels 0 interval.low interval.high Store.empty).events := by
    rw [← build_root, ← hlevels]
    rfl
  have hstore : storeAfter ⟨encoding, true⟩ interval =
      (innerNode ⟨encoding, true⟩ levels 0 interval.low interval.high Store.empty).store := by
    rw [← build_root, ← hlevels]
    rfl
  have hnodup := (compile_files encoding interval).closed.nodup_keys
  rw [hstore] at hnodup
  rw [hbuild]
  exact nodup_begunKeys_innerNode hmemo hplaced hnodup

end IntervalAutomata
