import IntervalAutomata.Proofs.Compile.Calls
import IntervalAutomata.Proofs.Compile.Rows

/-!
# What a sharing construction remembers

Where nodes are shared, every node below the root is remembered under the key of its call, with one
exception: under the minimal encoding a value ends at an accepting leaf, which is made anew each
time. A table of finished nodes is *closed* (`Finished.Closed`) if it has one node for each key, and
if the children of its nodes are remembered or such leaves (`Finished.Holds`).

* **One step.** A part of the construction leaves a table that is closed again, keeps what it found,
  adds entries only under the keys of calls that it reports, and answers with nodes that the table
  holds (`Finished.Files`). Parts that follow each other make one part (`Files.append`); a new node
  whose children are held may be remembered under a key that is not taken (`Files.remember`).
* **No key is taken twice.** The calls that a node makes have other keys than its own, since they
  lie deeper and their upper bounds are smaller (`key_ne_of_mem_callsOf_growEdges`).
* **The construction** files what it builds (`build_files`), so that all nodes below the root of a
  shared automaton are held by the table at its end (`Automaton.holds_of_reaches`).
-/

namespace IntervalAutomata

/-- Finished nodes by key. -/
abbrev Finished := List (Key × Node)

namespace Finished

variable {encoding : Encoding}

/-- A node is remembered, or it is an accepting leaf of the minimal encoding. -/
def Holds (encoding : Encoding) (finished : Finished) (node : Node) : Prop :=
  (∃ key, (key, node) ∈ finished) ∨
    (encoding = .minimal ∧ node.AcceptingLeaf)

/-- One node stands under each key, and the children of all nodes are held. -/
structure Closed (encoding : Encoding) (finished : Finished) : Prop where
  /-- No key is taken twice. -/
  nodup_keys : (finished.map Prod.fst).Nodup
  /-- Children are held. -/
  child_holds : ∀ entry ∈ finished, ∀ edge ∈ entry.2.edges, Holds encoding finished edge.child

/-- A part of the construction, from its table before to that afterwards, with its reports and the
nodes that it answers with. -/
structure Files (encoding : Encoding) (before : Finished) (events : List CompileEvent)
    (after : Finished) (nodes : List Node) : Prop where
  /-- The table afterwards is closed. -/
  closed : Closed encoding after
  /-- Nothing is forgotten. -/
  kept : before ⊆ after
  /-- New entries stand under the keys of calls below the root. -/
  added : ∀ entry ∈ after, entry ∈ before ∨
    ∃ call ∈ callsOf events, 0 < call.depth ∧ entry.1 = call.key encoding
  /-- The answers are held. -/
  holds : ∀ node ∈ nodes, Holds encoding after node

variable {before middle after : Finished} {events later : List CompileEvent}
  {nodes others : List Node} {node : Node}

/-- The empty table is closed. -/
theorem closed_nil : Closed encoding [] where
  nodup_keys := List.nodup_nil
  child_holds := by simp

/-- What a table holds is held by every table that has its entries. -/
theorem Holds.mono (h : Holds encoding before node) (hkept : before ⊆ after) :
    Holds encoding after node := by
  rcases h with ⟨key, hmem⟩ | hleaf
  · exact Or.inl ⟨key, hkept hmem⟩
  · exact Or.inr hleaf

/-- All that is reached from a node which a closed table holds is held too. -/
theorem Closed.holds_of_reaches (h : Closed encoding after) {target : Node}
    (hnode : Holds encoding after node) (hreaches : node.Reaches target) :
    Holds encoding after target := by
  refine hreaches.induct hnode ?_
  intro node hnode edge hedge
  rcases hnode with ⟨key, hmem⟩ | ⟨-, hleaf⟩
  · exact h.child_holds (key, node) hmem edge hedge
  · rw [hleaf.edges_eq_nil] at hedge
    cases hedge

/-- Entries under one key are one entry. -/
theorem Closed.eq_of_key_eq (h : Closed encoding after) {m n : Key × Node} (hm : m ∈ after)
    (hn : n ∈ after) (hkey : m.1 = n.1) : m = n :=
  List.inj_on_of_nodup_map h.nodup_keys hm hn hkey

/-! ## Steps -/

/-- Where nothing happens, a closed table stays closed. -/
theorem Closed.files (h : Closed encoding after) (events : List CompileEvent)
    (hnodes : ∀ node ∈ nodes, Holds encoding after node) :
    Files encoding after events after nodes where
  closed := h
  kept := List.Subset.refl after
  added := fun _ hentry => Or.inl hentry
  holds := hnodes

/-- Parts that follow each other make one part. -/
theorem Files.append (h : Files encoding before events middle nodes)
    (h' : Files encoding middle later after others) :
    Files encoding before (events ++ later) after (nodes ++ others) where
  closed := h'.closed
  kept := fun _ hentry => h'.kept (h.kept hentry)
  added := by
    intro entry hentry
    unfold callsOf
    rw [List.filterMap_append]
    rcases h'.added entry hentry with hentry | ⟨call, hcall, hdepth, hkey⟩
    · rcases h.added entry hentry with hentry | ⟨call, hcall, hdepth, hkey⟩
      · exact Or.inl hentry
      · exact Or.inr ⟨call, List.mem_append_left _ hcall, hdepth, hkey⟩
    · exact Or.inr ⟨call, List.mem_append_right _ hcall, hdepth, hkey⟩
  holds := by
    intro node hnode
    rcases List.mem_append.mp hnode with hnode | hnode
    · exact (h.holds node hnode).mono h'.kept
    · exact h'.holds node hnode

/-- Reports may be added. -/
theorem Files.mono (h : Files encoding before events after nodes)
    (hcalls : callsOf events ⊆ callsOf later) : Files encoding before later after nodes where
  closed := h.closed
  kept := h.kept
  added := by
    intro entry hentry
    rcases h.added entry hentry with hentry | ⟨call, hcall, hdepth, hkey⟩
    · exact Or.inl hentry
    · exact Or.inr ⟨call, hcalls hcall, hdepth, hkey⟩
  holds := h.holds

/-- A new node whose children are held is remembered under the key of its call, which must not be
taken. -/
theorem Files.remember (h : Files encoding before events after nodes) {call : Call}
    (hcalls : callsOf later = call :: callsOf events) (hdepth : 0 < call.depth)
    (hnew : ∀ entry ∈ after, entry.1 ≠ call.key encoding)
    (hedges : ∀ edge ∈ node.edges, edge.child ∈ nodes) :
    Files encoding before later ((call.key encoding, node) :: after) [node] where
  closed := by
    have hkept : after ⊆ (call.key encoding, node) :: after := List.subset_cons_self _ _
    constructor
    · rw [List.map_cons, List.nodup_cons]
      refine ⟨?_, h.closed.nodup_keys⟩
      intro hmem
      obtain ⟨entry, hentry, hkey⟩ := List.mem_map.mp hmem
      exact hnew entry hentry hkey
    · intro entry hentry edge hedge
      rcases List.mem_cons.mp hentry with rfl | hentry
      · exact (h.holds _ (hedges edge hedge)).mono hkept
      · exact (h.closed.child_holds entry hentry edge hedge).mono hkept
  kept := fun _ hentry => List.mem_cons_of_mem _ (h.kept hentry)
  added := by
    intro entry hentry
    rw [hcalls]
    rcases List.mem_cons.mp hentry with rfl | hentry
    · exact Or.inr ⟨call, List.mem_cons_self, hdepth, rfl⟩
    · rcases h.added entry hentry with hentry | ⟨call', hcall', hdepth', hkey⟩
      · exact Or.inl hentry
      · exact Or.inr ⟨call', List.mem_cons_of_mem _ hcall', hdepth', hkey⟩
  holds := by
    intro node' hnode'
    obtain rfl := List.mem_singleton.mp hnode'
    exact Or.inl ⟨_, List.mem_cons_self⟩

end Finished

/-! ## No key is taken twice -/

section build

variable {options : CompileOptions} {width levels depth low high : Nat} {store : Store}

/-- Below a place all calls lie deeper, and their upper bounds are at most its own without its first
byte. -/
theorem inherited_below (encoding : Encoding) (width depth high : Nat) :
    Inherited encoding fun levels depth' low' high' =>
      Placed width levels depth' low' high' ∧ depth < depth' ∧ high' ≤ high / 256 := by
  rintro levels depth' low' high' ⟨hplaced, hdepth, hhigh⟩ band hband - - -
  have hle := (hplaced.valid.suits_of_mem hband).childHigh_le
  change band.childHigh ≤ high' / 256 at hle
  exact ⟨hplaced.child hband, by omega, by omega⟩

/-- The calls that a node makes have other keys than its own. -/
theorem key_ne_of_mem_callsOf_growEdges (hplaced : Placed width (levels + 1) depth low high)
    {call : Call}
    (hcall : call ∈ callsOf (growEdges
      (growChild options levels depth (levelFor options.encoding levels depth low high))
      (levelFor options.encoding levels depth low high).bands store).events) :
    call.key options.encoding ≠ Key.of options.encoding depth low high := by
  obtain ⟨hcalls, band, hband, -, -, store', hbuild⟩ := mem_callsOf_growEdges hcall
  have hle := (hplaced.valid.suits_of_mem hband).childHigh_le
  obtain ⟨levels', -, hdepth, hhigh⟩ :=
    (inherited_below options.encoding width depth high).of_mem_calls
      ⟨hplaced.child hband, Nat.lt_succ_self depth, hle⟩ hbuild
  intro hkey
  cases hencoding : options.encoding with
  | padded =>
      rw [hencoding] at hkey
      simp only [Call.key, Key.of, Key.mk.injEq] at hkey
      omega
  | minimal =>
      rw [hencoding] at hkey
      simp only [Call.key, Key.of, Key.mk.injEq] at hkey
      -- the level has more than one byte, or the node would make no call
      have hrest : high / 256 ≠ 0 := by
        intro hzero
        apply hcalls
        refine ⟨?_, hencoding⟩
        rw [levelFor, Level.layout, Level.ofBounds, hzero]
        exact if_pos rfl
      omega

/-! ## The construction -/

/-- A row of edges files nodes as its children do. -/
theorem growEdges_files {encoding : Encoding} {below : Band → ByteRange → Store → Built Node}
    {bands : List Band} (hstore : Finished.Closed encoding store.finished)
    (hbelow : ∀ band ∈ bands, ∀ range store, Finished.Closed encoding store.finished →
      Finished.Files encoding store.finished (below band range store).events
        (below band range store).store.finished [(below band range store).result]) :
    Finished.Files encoding store.finished (growEdges below bands store).events
      (growEdges below bands store).store.finished
      ((growEdges below bands store).result.map Edge.child) := by
  induction bands generalizing store with
  | nil => exact hstore.files [] (by simp)
  | cons band bands ih =>
      obtain ⟨hband, hbands⟩ := List.forall_mem_cons.mp hbelow
      cases hrange : band.range? with
      | none =>
          rw [growEdges_cons_of_none hrange]
          exact ih hstore hbands
      | some range =>
          rw [growEdges_cons_of_some hrange]
          have hfirst := hband range store hstore
          exact hfirst.append (ih hfirst.closed hbands)

/-- Looking a node up or remembering it under its key, which is not taken meanwhile. -/
theorem share_files {fresh : Store → Built Node} {events : List CompileEvent} {nodes : List Node}
    (hmemo : options.memoize = true) (hdepth : 0 < depth)
    (hstore : Finished.Closed options.encoding store.finished)
    (hfiles : Finished.Files options.encoding store.finished events (fresh store).store.finished
      nodes)
    (hcalls : callsOf (fresh store).events = ⟨depth, low, high⟩ :: callsOf events)
    (hkeys : ∀ call ∈ callsOf events,
      call.key options.encoding ≠ Key.of options.encoding depth low high)
    (hedges : ∀ edge ∈ (fresh store).result.edges, edge.child ∈ nodes) :
    Finished.Files options.encoding store.finished
      (share options depth low high fresh store).events
      (share options depth low high fresh store).store.finished
      [(share options depth low high fresh store).result] := by
  rcases share_cases options depth low high fresh store with
    ⟨hroot, -⟩ | ⟨node, hfind, hshare⟩ | ⟨hfind, hshare⟩
  · exact absurd hroot (not_fresh hmemo hdepth)
  · rw [hshare]
    apply hstore.files
    intro node' hnode'
    obtain rfl := List.mem_singleton.mp hnode'
    obtain ⟨entry, hentry, rfl⟩ := Option.map_eq_some_iff.mp hfind
    exact Or.inl ⟨entry.1, List.mem_of_find?_eq_some hentry⟩
  · rw [hshare]
    have hfree : ∀ entry ∈ store.finished,
        entry.1 ≠ Key.of options.encoding depth low high := by
      have hnone := Option.map_eq_none_iff.mp hfind
      simpa using List.find?_eq_none.mp hnone
    have hnew : ∀ entry ∈ (fresh store).store.finished,
        entry.1 ≠ (⟨depth, low, high⟩ : Call).key options.encoding := by
      intro entry hentry
      rcases hfiles.added entry hentry with hold | ⟨call, hcall, -, hkey⟩
      · exact hfree entry hold
      · rw [hkey]
        exact hkeys call hcall
    exact hfiles.remember hcalls hdepth hnew hedges

/-- The edges of a fresh node file what lies below them, if building one level below does. -/
theorem growChild_files (hplaced : Placed width (levels + 1) depth low high)
    (hstore : Finished.Closed options.encoding store.finished)
    (hbuild : ∀ low high store, Placed width levels (depth + 1) low high →
      Finished.Closed options.encoding store.finished →
      Finished.Files options.encoding store.finished
        (build options levels (depth + 1) low high store).events
        (build options levels (depth + 1) low high store).store.finished
        [(build options levels (depth + 1) low high store).result]) :
    Finished.Files options.encoding store.finished
      (growEdges (growChild options levels depth (levelFor options.encoding levels depth low high))
        (levelFor options.encoding levels depth low high).bands store).events
      (growEdges (growChild options levels depth (levelFor options.encoding levels depth low high))
        (levelFor options.encoding levels depth low high).bands store).store.finished
      ((growEdges (growChild options levels depth (levelFor options.encoding levels depth low high))
        (levelFor options.encoding levels depth low high).bands store).result.map Edge.child) := by
  apply growEdges_files hstore
  intro band hband range store hstore
  unfold growChild
  split
  · rename_i hlast
    apply hstore.files
    intro node hnode
    obtain rfl := List.mem_singleton.mp hnode
    exact Or.inr ⟨hlast.2, ⟨rfl, rfl⟩⟩
  · exact (hbuild _ _ store (hplaced.child hband) hstore).mono fun _ hcall => hcall

/-- **The construction files what it builds**: from a closed table it makes a closed one, and what
it answers with is held. -/
theorem build_files (hmemo : options.memoize = true) (hdepth : 0 < depth)
    (hplaced : Placed width levels depth low high)
    (hstore : Finished.Closed options.encoding store.finished) :
    Finished.Files options.encoding store.finished
      (build options levels depth low high store).events
      (build options levels depth low high store).store.finished
      [(build options levels depth low high store).result] := by
  induction levels generalizing depth low high store with
  | zero =>
      rw [build_zero]
      have hnothing : Finished.Files options.encoding store.finished [] store.finished [] :=
        hstore.files [] (by simp)
      exact share_files hmemo hdepth hstore hnothing rfl (by simp [callsOf]) (by simp [endNode])
  | succ levels ih =>
      rw [build_succ]
      have hgrown := growChild_files hplaced hstore fun low high store =>
        ih (Nat.succ_pos depth)
      refine share_files hmemo hdepth hstore hgrown callsOf_innerNode ?_ ?_
      · intro call hcall
        exact key_ne_of_mem_callsOf_growEdges hplaced hcall
      · intro edge hedge
        exact List.mem_map_of_mem hedge

end build

/-! ## The nodes of a shared automaton -/

namespace Automaton

variable {encoding : Encoding} {interval : Interval}

/-- The compilation of an interval files the children of its root. -/
theorem compile_files (encoding : Encoding) (interval : Interval) :
    Finished.Files encoding [] (compileEvents ⟨encoding, true⟩ interval)
      (storeAfter ⟨encoding, true⟩ interval).finished
      ((compile ⟨encoding, true⟩ interval).root.edges.map Edge.child) := by
  obtain ⟨levels, hlevels⟩ : ∃ levels, byteWidth interval.high = levels + 1 := ⟨_, rfl⟩
  have hplaced := Placed.ofInterval interval
  have hgrown : Finished.Files encoding []
      (innerNode ⟨encoding, true⟩ levels 0 interval.low interval.high Store.empty).events
      (innerNode ⟨encoding, true⟩ levels 0 interval.low interval.high Store.empty).store.finished
      ((innerNode ⟨encoding, true⟩ levels 0 interval.low interval.high
        Store.empty).result.edges.map Edge.child) := by
    rw [hlevels] at hplaced
    have hstore : Finished.Closed encoding Store.empty.finished := Finished.closed_nil
    have hmemo : (⟨encoding, true⟩ : CompileOptions).memoize = true := rfl
    refine (growChild_files hplaced hstore fun low high store =>
      build_files hmemo (Nat.succ_pos 0)).mono ?_
    rw [callsOf_innerNode]
    exact List.subset_cons_self _ _
  rw [← build_root, ← hlevels] at hgrown
  exact hgrown

/-- What is remembered was asked for below the root. -/
theorem exists_asked_of_mem_finished {entry : Key × Node}
    (h : entry ∈ (storeAfter ⟨encoding, true⟩ interval).finished) :
    ∃ levels depth low high, Asked encoding interval levels depth low high ∧ 0 < depth ∧
      entry.1 = Key.of encoding depth low high := by
  rcases (compile_files encoding interval).added entry h with hnil | ⟨call, hcall, hdepth, hkey⟩
  · cases hnil
  · obtain ⟨levels, hasked⟩ := exists_asked_of_mem_calls hcall
    exact ⟨levels, call.depth, call.low, call.high, hasked, hdepth, hkey⟩

/-- **All nodes below the root of a shared automaton are held** by what is remembered in the end. -/
theorem holds_of_reaches {node : Node}
    (h : (compile ⟨encoding, true⟩ interval).root.Reaches node) :
    node = (compile ⟨encoding, true⟩ interval).root ∨
      Finished.Holds encoding (storeAfter ⟨encoding, true⟩ interval).finished node := by
  have hfiles := compile_files encoding interval
  refine h.induct (motive := fun node => node = (compile ⟨encoding, true⟩ interval).root ∨
    Finished.Holds encoding (storeAfter ⟨encoding, true⟩ interval).finished node) (Or.inl rfl) ?_
  rintro node (rfl | hnode) edge hedge
  · exact Or.inr (hfiles.holds _ (List.mem_map_of_mem hedge))
  · exact Or.inr (hfiles.closed.holds_of_reaches hnode (.below hedge (.refl _)))

end Automaton

end IntervalAutomata
