import IntervalAutomata.Proofs.Compile.Calls

/-!
# The reports of an unshared construction

`reportsFor` is the recursion of `build` without store and nodes: what a construction that shares
nothing reports for given bounds (`events_build`).

Every report carries the depth of the node that is being built. What is reported for a node is
reported at its depth or deeper (`depth_le_of_mem_events_build`), shared or not. Below the root,
places with one key have the same reports but for the depth, which is moved as a whole from the one
place to the other (`map_moved_reportsFor`). Under the padded encoding they are one place, under the
minimal encoding this rests on what is called for (`Called`): at the last level a node would not
report its layout, but there no node is called for.
-/

namespace IntervalAutomata

/-! ## Depths of reports -/

namespace CompileEvent

/-- The depth of the node that is being built. -/
def depth : CompileEvent → Nat
  | enter depth _ _ _ => depth
  | laidOut depth _ => depth
  | edge depth _ _ _ => depth
  | leaf depth _ => depth
  | reuse depth _ _ => depth

/-- The event as it is reported where a node at depth `source` is built at depth `target`. -/
def moved (source target : Nat) : CompileEvent → CompileEvent
  | enter depth low high accepting => enter (depth + target - source) low high accepting
  | laidOut depth layout => laidOut (depth + target - source) layout
  | edge depth range childLow childHigh => edge (depth + target - source) range childLow childHigh
  | leaf depth range => leaf (depth + target - source) range
  | reuse depth low high => reuse (depth + target - source) low high

/-- A move depends on how far it goes. -/
theorem moved_succ (source target : Nat) :
    moved (source + 1) (target + 1) = moved source target := by
  have hdepth : ∀ depth, depth + (target + 1) - (source + 1) = depth + target - source := by
    intro depth
    omega
  funext event
  cases event <;> simp only [moved, hdepth]

/-- An event that is moved to its own depth stays. -/
theorem moved_self (depth : Nat) (event : CompileEvent) : event.moved depth depth = event := by
  cases event <;> simp only [moved, Nat.add_sub_cancel]

end CompileEvent

/-- Keys tell bounds apart, and under the padded encoding depths too. -/
theorem Key.of_eq_of_iff {encoding : Encoding} {depth low high depth' low' high' : Nat} :
    Key.of encoding depth low high = Key.of encoding depth' low' high' ↔
      low = low' ∧ high = high' ∧ (encoding = .padded → depth = depth') := by
  cases encoding <;> simp [Key.of]

/-! ## Definitions -/

/-- The reports of a row of edges, given what is reported for each band with bytes. -/
def rowReports (below : Band → ByteRange → List CompileEvent) : List Band → List CompileEvent
  | [] => []
  | band :: bands =>
    match band.range? with
    | none => rowReports below bands
    | some range => below band range ++ rowReports below bands

/-- The reports for the bounds `low` and `high` at a depth, with the given number of levels from
there to the last byte of the upper bound. -/
def reportsFor (encoding : Encoding) : (levels depth low high : Nat) → List CompileEvent
  | 0, depth, low, high => [.enter depth low high (acceptsAt encoding 0 depth low)]
  | levels + 1, depth, low, high =>
    let level := levelFor encoding levels depth low high
    .enter depth low high (acceptsAt encoding (levels + 1) depth low) ::
      .laidOut depth level.layout ::
        rowReports (fun band range =>
          if level.layout = .singleByte ∧ encoding = .minimal then [.leaf depth range]
          else .edge depth range band.childLow band.childHigh ::
            reportsFor encoding levels (depth + 1) band.childLow band.childHigh) level.bands

/-- What is reported for a band of a level. -/
def childReports (encoding : Encoding) (levels depth : Nat) (level : Level) (band : Band)
    (range : ByteRange) : List CompileEvent :=
  if level.layout = .singleByte ∧ encoding = .minimal then [.leaf depth range]
  else .edge depth range band.childLow band.childHigh ::
    reportsFor encoding levels (depth + 1) band.childLow band.childHigh

/-- At the end of the values a call reports nothing but itself. -/
theorem reportsFor_zero (encoding : Encoding) (depth low high : Nat) :
    reportsFor encoding 0 depth low high =
      [.enter depth low high (acceptsAt encoding 0 depth low)] := rfl

/-- A call reports itself, its layout and then its row of edges. -/
theorem reportsFor_succ (encoding : Encoding) (levels depth low high : Nat) :
    reportsFor encoding (levels + 1) depth low high =
      .enter depth low high (acceptsAt encoding (levels + 1) depth low) ::
        .laidOut depth (levelFor encoding levels depth low high).layout ::
          rowReports (childReports encoding levels depth (levelFor encoding levels depth low high))
            (levelFor encoding levels depth low high).bands := rfl

/-- The place of a call: where a node is called for under the minimal encoding, a byte is left to be
read. -/
structure Called (encoding : Encoding) (width levels depth low high : Nat) : Prop
    extends Placed width levels depth low high where
  /-- A byte is left. -/
  levels_pos : encoding = .minimal → 0 < levels

section rowReports

variable {below below' : Band → ByteRange → List CompileEvent} {band : Band} {bands : List Band}

/-- A band without bytes has no reports. -/
theorem rowReports_cons_of_none (h : band.range? = none) :
    rowReports below (band :: bands) = rowReports below bands := by
  simp only [rowReports, h]

/-- A band with bytes is reported before the others. -/
theorem rowReports_cons_of_some {range : ByteRange} (h : band.range? = some range) :
    rowReports below (band :: bands) = below band range ++ rowReports below bands := by
  simp only [rowReports, h]

/-- What is done to the reports of each band is done to those of the row. -/
theorem map_rowReports {f : CompileEvent → CompileEvent}
    (h : ∀ band ∈ bands, ∀ range, band.range? = some range →
      (below band range).map f = below' band range) :
    (rowReports below bands).map f = rowReports below' bands := by
  induction bands with
  | nil => rfl
  | cons band bands ih =>
      obtain ⟨hband, hbands⟩ := List.forall_mem_cons.mp h
      cases hrange : band.range? with
      | none =>
          rw [rowReports_cons_of_none hrange, rowReports_cons_of_none hrange]
          exact ih hbands
      | some range =>
          rw [rowReports_cons_of_some hrange, rowReports_cons_of_some hrange, List.map_append,
            hband range hrange, ih hbands]

/-- A row of edges reports what its bands report. -/
theorem events_growEdges {grow : Band → ByteRange → Store → Built Node}
    (h : ∀ band ∈ bands, ∀ range store, (grow band range store).events = below band range)
    (store : Store) : (growEdges grow bands store).events = rowReports below bands := by
  induction bands generalizing store with
  | nil => rfl
  | cons band bands ih =>
      obtain ⟨hband, hbands⟩ := List.forall_mem_cons.mp h
      cases hrange : band.range? with
      | none =>
          rw [rowReports_cons_of_none hrange, growEdges_cons_of_none hrange]
          exact ih hbands store
      | some range =>
          rw [rowReports_cons_of_some hrange, growEdges_cons_of_some hrange]
          dsimp only
          rw [hband range store, ih hbands]

end rowReports

section reports

variable {encoding : Encoding} {options : CompileOptions}
  {width width' levels levels' depth depth' low low' high high' : Nat} {store : Store}

/-! ## Reports of the construction -/

/-- Without sharing everything is reported. -/
theorem events_build (h : options.memoize = false) :
    (build options levels depth low high store).events =
      reportsFor options.encoding levels depth low high := by
  induction levels generalizing depth low high store with
  | zero =>
      rw [build_zero, share_of_fresh (Or.inr h)]
      rfl
  | succ levels ih =>
      rw [build_succ, share_of_fresh (Or.inr h), reportsFor_succ, innerNode]
      dsimp only
      rw [events_growEdges]
      intro band _ range store
      rw [growChild, childReports]
      split
      · rfl
      · rw [← ih]

/-- What is reported for a node is reported at its depth or deeper. -/
theorem depth_le_of_mem_events_build {event : CompileEvent}
    (h : event ∈ (build options levels depth low high store).events) : depth ≤ event.depth := by
  induction levels generalizing depth low high store with
  | zero =>
      rw [build_zero] at h
      rcases mem_events_share h with rfl | h
      · exact Nat.le_refl _
      · obtain rfl := List.mem_singleton.mp h
        exact Nat.le_refl _
  | succ levels ih =>
      rw [build_succ] at h
      rcases mem_events_share h with rfl | h
      · exact Nat.le_refl _
      · rcases List.mem_cons.mp h with rfl | h
        · exact Nat.le_refl _
        · rcases List.mem_cons.mp h with rfl | h
          · exact Nat.le_refl _
          · obtain ⟨band, -, range, -, store', hbelow⟩ := mem_events_growEdges h
            unfold growChild at hbelow
            split at hbelow
            · obtain rfl := List.mem_singleton.mp hbelow
              exact Nat.le_refl _
            · rcases List.mem_cons.mp hbelow with rfl | hbelow
              · exact Nat.le_refl _
              · exact Nat.le_of_succ_le (ih hbelow)

/-! ## Reports at other places -/

namespace Called

/-- The call for the root. -/
theorem root (encoding : Encoding) (i : Interval) :
    Called encoding (byteWidth i.high) (byteWidth i.high) 0 i.low i.high where
  toPlaced := Placed.ofInterval i
  levels_pos := fun _ => byteWidth_pos i.high

/-- The calls for the children of a node. -/
theorem child (h : Called encoding width (levels + 1) depth low high) {band : Band}
    (hband : band ∈ (levelFor encoding levels depth low high).bands)
    (hcalls : ¬((levelFor encoding levels depth low high).layout = .singleByte ∧
      encoding = .minimal)) :
    Called encoding width levels (depth + 1) band.childLow band.childHigh where
  toPlaced := h.toPlaced.child hband
  levels_pos := h.toPlaced.levels_pos hcalls

end Called

/-- Under the minimal encoding only the depth tells reports for the same bounds apart. -/
theorem map_moved_reportsFor_minimal (h : Called .minimal width levels depth low high)
    (h' : Called .minimal width' levels' depth' low high) (hdepth : 0 < depth)
    (hdepth' : 0 < depth') :
    (reportsFor .minimal levels depth low high).map (CompileEvent.moved depth depth') =
      reportsFor .minimal levels' depth' low high := by
  induction levels generalizing levels' depth depth' low high with
  | zero => exact absurd (h.levels_pos rfl) (Nat.lt_irrefl 0)
  | succ levels ih =>
      cases levels' with
      | zero => exact absurd (h'.levels_pos rfl) (Nat.lt_irrefl 0)
      | succ levels' =>
          have haccepts : acceptsAt .minimal (levels + 1) depth low =
              acceptsAt .minimal (levels' + 1) depth' low := by
            rw [Bool.eq_iff_iff, acceptsAt_succ_iff, acceptsAt_succ_iff]
            simp only [true_and]
            omega
          have hlevel : levelFor .minimal levels depth low high =
              levelFor .minimal levels' depth' low high := by
            rw [levelFor, levelFor, haccepts]
          have hnode : depth + depth' - depth = depth' := Nat.add_sub_cancel_left depth depth'
          rw [reportsFor_succ, reportsFor_succ, ← haccepts, ← hlevel, List.map_cons, List.map_cons,
            CompileEvent.moved, CompileEvent.moved, hnode, map_rowReports]
          intro band hband range _
          have hband' := hband
          rw [hlevel] at hband'
          unfold childReports
          split
          · rw [List.map_singleton, CompileEvent.moved, hnode]
          · rename_i hcalls
            have hcalls' := hcalls
            rw [hlevel] at hcalls'
            rw [List.map_cons, CompileEvent.moved, hnode, ← CompileEvent.moved_succ,
              ih (h.child hband hcalls) (h'.child hband' hcalls') (Nat.succ_pos _)
                (Nat.succ_pos _)]

/-- **Places with one key have the same reports** below the root, but for the depth. -/
theorem map_moved_reportsFor (h : Called encoding width levels depth low high)
    (h' : Called encoding width levels' depth' low' high') (hdepth : 0 < depth)
    (hdepth' : 0 < depth')
    (hkey : Key.of encoding depth low high = Key.of encoding depth' low' high') :
    (reportsFor encoding levels depth low high).map (CompileEvent.moved depth depth') =
      reportsFor encoding levels' depth' low' high' := by
  obtain ⟨rfl, rfl, hsame⟩ := Key.of_eq_of_iff.mp hkey
  cases encoding with
  | minimal => exact map_moved_reportsFor_minimal h h' hdepth hdepth'
  | padded =>
      obtain rfl := hsame rfl
      have hlevels : levels = levels' := by
        have hsum := h.depth_add_levels
        have hsum' := h'.depth_add_levels
        omega
      rw [hlevels, List.map_congr_left fun event _ => event.moved_self depth, List.map_id']

end reports

end IntervalAutomata
