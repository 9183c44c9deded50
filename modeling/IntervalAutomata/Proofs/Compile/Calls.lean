import IntervalAutomata.Compile.Session
import IntervalAutomata.Proofs.Compile.Unrolling

/-!
# The calls of a compilation

A compilation calls for nodes, each at a depth and for two bounds. A call is reported first of all,
as the beginning of a node or as the reuse of one (`Automaton.calls`, `exists_head_events_build`).

* **What a call passes on to the calls that it makes holds of all calls** (`Inherited`,
  `Inherited.of_mem_calls`). This is the induction along the recursion, done once; the reports of a
  row of edges are those of what grows below its bands (`mem_events_growEdges`), and sharing only
  leaves reports out (`mem_events_share`).
* **Calls stay near the interval** (`Asked`): at depth `d` the lower bound of a call is
  `low / 256 ^ d` or one more, and the upper bound is `high / 256 ^ d` or one less. Carries and
  borrows do not add up: the child of a band has the least and the greatest rest that go with the
  band's bytes, and those are found by division (`Band.Suits.childLow_bounds`,
  `Band.Suits.childHigh_bounds`).
-/

namespace IntervalAutomata

/-! ## Calls and reports -/

/-- What the recursion is called for. -/
structure Call where
  /-- The depth of the node. -/
  depth : Nat
  /-- The lower bound. -/
  low : Nat
  /-- The upper bound. -/
  high : Nat
deriving DecidableEq

/-- The key under which the node of a call is remembered. -/
def Call.key (encoding : Encoding) (call : Call) : Key :=
  Key.of encoding call.depth call.low call.high

/-- The call that an event reports, if it does: either its node is begun or it is answered with a
node that was finished before. -/
def CompileEvent.call? : CompileEvent → Option Call
  | .enter depth low high _ => some ⟨depth, low, high⟩
  | .reuse depth low high => some ⟨depth, low, high⟩
  | _ => none

/-- The calls among some reports, in order. -/
def callsOf (events : List CompileEvent) : List Call :=
  events.filterMap CompileEvent.call?

/-- The calls of a compilation, in order. -/
def Automaton.calls (options : CompileOptions) (interval : Interval) : List Call :=
  callsOf (compileEvents options interval)

/-- The calls of some reports are those that one of them reports. -/
theorem mem_callsOf {call : Call} {events : List CompileEvent} :
    call ∈ callsOf events ↔ ∃ event ∈ events, event.call? = some call :=
  List.mem_filterMap

section reports

variable {options : CompileOptions} {levels depth low high : Nat} {store : Store}

/-- Sharing reports what building afresh reports, or a reuse and nothing else. -/
theorem mem_events_share {fresh : Store → Built Node} {event : CompileEvent}
    (h : event ∈ (share options depth low high fresh store).events) :
    event = .reuse depth low high ∨ event ∈ (fresh store).events := by
  rcases share_cases options depth low high fresh store with
    ⟨-, hshare⟩ | ⟨node, -, hshare⟩ | ⟨-, hshare⟩ <;> rw [hshare] at h
  · exact Or.inr h
  · exact Or.inl (List.mem_singleton.mp h)
  · exact Or.inr h

/-- A row of edges reports what grows below its bands. -/
theorem mem_events_growEdges {below : Band → ByteRange → Store → Built Node} {bands : List Band}
    {event : CompileEvent} (h : event ∈ (growEdges below bands store).events) :
    ∃ band ∈ bands, ∃ range, band.range? = some range ∧
      ∃ store, event ∈ (below band range store).events := by
  induction bands generalizing store with
  | nil => cases h
  | cons band bands ih =>
      cases hrange : band.range? with
      | none =>
          rw [growEdges_cons_of_none hrange] at h
          obtain ⟨band', hband', hbelow⟩ := ih h
          exact ⟨band', List.mem_cons_of_mem _ hband', hbelow⟩
      | some range =>
          rw [growEdges_cons_of_some hrange] at h
          rcases List.mem_append.mp h with h | h
          · exact ⟨band, List.mem_cons_self, range, hrange, store, h⟩
          · obtain ⟨band', hband', hbelow⟩ := ih h
            exact ⟨band', List.mem_cons_of_mem _ hband', hbelow⟩

/-- Every call reports itself first. -/
theorem exists_head_events_build (options : CompileOptions) (levels depth low high : Nat)
    (store : Store) :
    ∃ event rest, (build options levels depth low high store).events = event :: rest ∧
      event.call? = some ⟨depth, low, high⟩ := by
  have hshare : ∀ fresh : Store → Built Node,
      (∃ event rest, (fresh store).events = event :: rest ∧
        event.call? = some ⟨depth, low, high⟩) →
      ∃ event rest, (share options depth low high fresh store).events = event :: rest ∧
        event.call? = some ⟨depth, low, high⟩ := by
    intro fresh hfresh
    rcases share_cases options depth low high fresh store with
      ⟨-, hshare⟩ | ⟨node, -, hshare⟩ | ⟨-, hshare⟩ <;> rw [hshare]
    · exact hfresh
    · exact ⟨_, _, rfl, rfl⟩
    · exact hfresh
  cases levels with
  | zero =>
      rw [build_zero]
      exact hshare _ ⟨_, _, rfl, rfl⟩
  | succ levels =>
      rw [build_succ]
      exact hshare _ ⟨_, _, rfl, rfl⟩

/-! ## From a call to those that it makes -/

/-- A property of calls that every call passes on to the calls that it makes: one for each band with
bytes, unless a value ends there and its encoding too. -/
def Inherited (encoding : Encoding) (P : (levels depth low high : Nat) → Prop) : Prop :=
  ∀ levels depth low high, P (levels + 1) depth low high →
    ∀ band ∈ (levelFor encoding levels depth low high).bands, ∀ range, band.range? = some range →
      ¬((levelFor encoding levels depth low high).layout = .singleByte ∧ encoding = .minimal) →
      P levels (depth + 1) band.childLow band.childHigh

/-- What is reported below a band: the edge, and what the child reports, if it is called for. -/
theorem mem_callsOf_growChild {level : Level} {band : Band} {range : ByteRange} {call : Call}
    (h : call ∈ callsOf (growChild options levels depth level band range store).events) :
    ¬(level.layout = .singleByte ∧ options.encoding = .minimal) ∧
      call ∈ callsOf
        (build options levels (depth + 1) band.childLow band.childHigh store).events := by
  unfold growChild at h
  split at h
  · rw [growLeaf, Store.newNode, callsOf] at h
    cases h
  · rename_i hcalls
    refine ⟨hcalls, ?_⟩
    rwa [callsOf, List.filterMap_cons_none rfl] at h

/-- A row of edges makes the calls for the children of its bands. -/
theorem mem_callsOf_growEdges {level : Level} {bands : List Band} {call : Call}
    (h : call ∈ callsOf (growEdges (growChild options levels depth level) bands store).events) :
    ¬(level.layout = .singleByte ∧ options.encoding = .minimal) ∧
      ∃ band ∈ bands, ∃ range, band.range? = some range ∧
        ∃ store, call ∈ callsOf
          (build options levels (depth + 1) band.childLow band.childHigh store).events := by
  obtain ⟨event, hevent, hcall⟩ := mem_callsOf.mp h
  obtain ⟨band, hband, range, hrange, store', hbelow⟩ := mem_events_growEdges hevent
  obtain ⟨hcalls, hbuild⟩ := mem_callsOf_growChild (mem_callsOf.mpr ⟨event, hbelow, hcall⟩)
  exact ⟨hcalls, band, hband, range, hrange, store', hbuild⟩

/-- A fresh node makes the calls of its edges after its own. -/
theorem callsOf_innerNode :
    callsOf (innerNode options levels depth low high store).events =
      ⟨depth, low, high⟩ ::
        callsOf (growEdges
          (growChild options levels depth (levelFor options.encoding levels depth low high))
          (levelFor options.encoding levels depth low high).bands store).events := rfl

/-- **What is passed on holds of every call** that is made while a node is built. -/
theorem Inherited.of_mem_calls {P : (levels depth low high : Nat) → Prop}
    (hP : Inherited options.encoding P) (h : P levels depth low high) {call : Call}
    (hcall : call ∈ callsOf (build options levels depth low high store).events) :
    ∃ levels', P levels' call.depth call.low call.high := by
  induction levels generalizing depth low high store with
  | zero =>
      obtain ⟨event, hevent, hcall⟩ := mem_callsOf.mp hcall
      rw [build_zero] at hevent
      rcases mem_events_share hevent with rfl | hevent
      · obtain rfl := Option.some.inj hcall
        exact ⟨0, h⟩
      · obtain rfl := List.mem_singleton.mp hevent
        obtain rfl := Option.some.inj hcall
        exact ⟨0, h⟩
  | succ levels ih =>
      obtain ⟨event, hevent, hcall⟩ := mem_callsOf.mp hcall
      rw [build_succ] at hevent
      rcases mem_events_share hevent with rfl | hevent
      · obtain rfl := Option.some.inj hcall
        exact ⟨levels + 1, h⟩
      · have hfresh := mem_callsOf.mpr ⟨event, hevent, hcall⟩
        rw [callsOf_innerNode] at hfresh
        rcases List.mem_cons.mp hfresh with rfl | hbelow
        · exact ⟨levels + 1, h⟩
        · obtain ⟨hcalls, band, hband, range, hrange, store', hbuild⟩ :=
            mem_callsOf_growEdges hbelow
          exact ih (hP levels depth low high h band hband range hrange hcalls) hbuild

end reports

/-- Under the minimal encoding a node calls for children only while a byte is left for them. -/
theorem Placed.levels_pos {encoding : Encoding} {width levels depth low high : Nat}
    (h : Placed width (levels + 1) depth low high)
    (hcalls : ¬((levelFor encoding levels depth low high).layout = .singleByte ∧
      encoding = .minimal)) (hminimal : encoding = .minimal) : 0 < levels := by
  apply Nat.pos_of_ne_zero
  rintro rfl
  apply hcalls
  refine ⟨?_, hminimal⟩
  have hlt := h.high_lt
  have hrest : high / 256 = 0 := by
    rw [Nat.pow_succ, Nat.pow_zero] at hlt
    omega
  rw [levelFor, Level.layout, Level.ofBounds, hrest]
  exact if_pos rfl

/-! ## Calls stay near the interval -/

namespace Band.Suits

variable {level : Level} {band : Band}

/-- The least rest that goes with a byte of the band, found by division. -/
theorem childLow_bounds (suits : band.Suits level) (hband : band.low ≤ band.high) :
    level.least ≤ 256 * band.childLow + 255 ∧
      (0 < band.childLow → 256 * band.childLow < level.least + 256) := by
  have hbyte := suits.high_lt
  have hle := suits.child_le
  have hholds := (suits.holds_iff band.low (Nat.le_refl _) hband band.childLow).mpr
    ⟨Nat.le_refl _, hle⟩
  have hbefore := suits.holds_iff band.low (Nat.le_refl _) hband (band.childLow - 1)
  unfold Level.Holds at hholds hbefore
  omega

/-- The greatest rest that goes with a byte of the band, found by division. -/
theorem childHigh_bounds (suits : band.Suits level) (hband : band.low ≤ band.high) :
    256 * band.childHigh ≤ level.greatest ∧ level.greatest < 256 * band.childHigh + 511 := by
  have hbyte := suits.high_lt
  have hle := suits.child_le
  have hholds := (suits.holds_iff band.low (Nat.le_refl _) hband band.childHigh).mpr
    ⟨hle, Nat.le_refl _⟩
  have hafter := suits.holds_iff band.low (Nat.le_refl _) hband (band.childHigh + 1)
  unfold Level.Holds at hholds hafter
  omega

end Band.Suits

/-- What a call is asked for while an interval is compiled. -/
structure Asked (encoding : Encoding) (interval : Interval) (levels depth low high : Nat) :
    Prop where
  /-- The call has a place in the compilation. -/
  placed : Placed (byteWidth interval.high) levels depth low high
  /-- The lower bound is that of the interval without its first bytes, or one more. -/
  low_near : low = interval.low / 256 ^ depth ∨ low = interval.low / 256 ^ depth + 1
  /-- The upper bound is that of the interval without its first bytes, or one less. -/
  high_near : high = interval.high / 256 ^ depth ∨ high + 1 = interval.high / 256 ^ depth
  /-- Under the minimal encoding a byte is left to be read. -/
  levels_pos : encoding = .minimal → 0 < levels

namespace Asked

variable {encoding : Encoding} {interval : Interval} {levels depth low high : Nat}

/-- The call for the root. -/
theorem root (encoding : Encoding) (interval : Interval) :
    Asked encoding interval (byteWidth interval.high) 0 interval.low interval.high where
  placed := Placed.ofInterval interval
  low_near := Or.inl (Nat.div_one _).symm
  high_near := Or.inl (Nat.div_one _).symm
  levels_pos := fun _ => byteWidth_pos interval.high

/-- The upper bound of a call is at most what is left of the interval's at this depth. -/
theorem high_le (h : Asked encoding interval levels depth low high) :
    high ≤ interval.high / 256 ^ depth := by
  have hnear := h.high_near
  omega

/-- Below the root the upper bound is smaller than that of the interval, unless it is zero. -/
theorem high_lt_of_pos (h : Asked encoding interval levels depth low high) (hdepth : 0 < depth) :
    high = 0 ∨ high < interval.high := by
  have hle := h.high_le
  rcases Nat.eq_zero_or_pos interval.high with hzero | hpos
  · rw [hzero, Nat.zero_div] at hle
    exact Or.inl (Nat.le_zero.mp hle)
  · have hpow : 1 < 256 ^ depth := Nat.one_lt_pow (Nat.ne_of_gt hdepth) (by omega)
    exact Or.inr (Nat.lt_of_le_of_lt hle (Nat.div_lt_self hpos hpow))

/-- No call is deeper than the width of the interval. -/
theorem depth_le (h : Asked encoding interval levels depth low high) :
    depth ≤ byteWidth interval.high := by
  have hsum := h.placed.depth_add_levels
  omega

/-- **Calls stay near the interval** from one depth to the next. -/
theorem inherited (encoding : Encoding) (interval : Interval) :
    Inherited encoding (Asked encoding interval) := by
  intro levels depth low high h band hband range hrange hcalls
  have suits := h.placed.valid.suits_of_mem hband
  have hbytes : band.low ≤ band.high := by
    obtain ⟨hlow, hhigh⟩ := ByteRange.ofNat?_eq_some_iff.mp hrange
    rw [← hlow, ← hhigh]
    exact range.low_le_high
  have hdiv : ∀ n : Nat, n / 256 ^ (depth + 1) = n / 256 ^ depth / 256 := by
    intro n
    rw [Nat.pow_succ, Nat.div_div_eq_div_mul]
  have hplaced := h.placed.child hband
  refine ⟨hplaced, ?_, ?_, ?_⟩
  · have hnear := h.low_near
    have hbounds := suits.childLow_bounds hbytes
    rw [levelFor, Level.least_ofBounds] at hbounds
    rw [hdiv]
    generalize interval.low / 256 ^ depth = start at hnear ⊢
    by_cases haccepts : acceptsAt encoding (levels + 1) depth low = true
    · obtain ⟨-, -, hzero⟩ := acceptsAt_succ_iff.mp haccepts
      rw [if_pos haccepts] at hbounds
      omega
    · rw [if_neg haccepts] at hbounds
      omega
  · have hnear := h.high_near
    have hbounds := suits.childHigh_bounds hbytes
    rw [levelFor, Level.greatest_ofBounds] at hbounds
    rw [hdiv]
    generalize interval.high / 256 ^ depth = stop at hnear ⊢
    omega
  · exact h.placed.levels_pos hcalls

end Asked

/-- Every call of a compilation has been asked for. -/
theorem Automaton.exists_asked_of_mem_calls {options : CompileOptions} {interval : Interval}
    {call : Call} (h : call ∈ calls options interval) :
    ∃ levels, Asked options.encoding interval levels call.depth call.low call.high :=
  (Asked.inherited options.encoding interval).of_mem_calls (Asked.root options.encoding interval) h

end IntervalAutomata
