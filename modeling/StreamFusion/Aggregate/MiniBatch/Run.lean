import StreamFusion.Aggregate.MiniBatch.Correct

/-!
# Cutting a stream into batches

Between two batches the backend has the current state of every group, and the pending groups are
those of the open bundle (`Between`).  A batch reads the groups it needs, runs the loop and writes
the groups that were flushed; the control event at the end closes the last bundle.

The result does not mention the batches any more: the events are those of the consecutive bundles of
the whole stream.  It needs that the states which the bundles leave are settled.  Without it the way
the stream is cut can be seen (`cut_within_an_overflow`).
-/

namespace StreamFusion.Aggregate

open Wire State Grouped Changelog List Except

namespace GroupAggregate

variable {operator : GroupAggregate} {schema : Schema} {D : DataFusion} {size : Nat}

/-- The working copies at the start of a batch. -/
def MiniState.work (D : DataFusion) (state : MiniState)
    (working : StateKey → Option (Option AccumulatorState)) : MiniWork D :=
  ⟨state.pending, state.pendingOrder, state.pendingElements, working, [], fun _ => none, []⟩

/-- The operator between two batches, with the rows `tail` in the open bundle. -/
structure Between (operator : GroupAggregate) (D : DataFusion) (state : MiniState)
    (groups : Groups) (tail : List InputRow) : Prop where
  stored : ∀ key, ∃ stored, operator.loadState state.store key = .ok stored ∧
    Agrees operator.calls stored (groups key)
  tracks : operator.Tracks (MiniState.work D state fun _ => none) groups
    (keysOf InputRow.key tail) fun key => rowsOf InputRow.key key tail
  elements : state.pendingElements = tail.length
  alive : ∀ key state, groups key = some state →
    state.rowCount ≠ 0 ∧ state.Settled operator.calls

theorem Between.empty : operator.Between D .empty (fun _ => none) [] := by
  refine ⟨fun key => ⟨none, rfl, trivial⟩, ⟨rfl, fun key _ => ⟨rfl, rfl⟩, ?_, ?_⟩, rfl, ?_⟩
  · intro key hkey
    simp [keysOf] at hkey
  · intro key kernels hkernels
    cases hkernels
  · intro key state hstate
    cases hstate

variable {keys : List StateKey}

variable {state : MiniState} {groups : Groups} {tail : List InputRow}

/-- The groups of the batch that are not pending are read. -/
theorem prefetch_ok (h : operator.Between D state groups tail) (keys : List StateKey) :
    ∃ loaded, operator.prefetch state keys = .ok loaded ∧
      operator.Holds state.store (fun key => key ∈ keys)
        (MiniState.work D state fun key => loaded.lookup key) groups tail := by
  choose stored hload hagrees using h.stored
  refine ⟨_, mapM_of_ok (g := fun key => (key, stored key)) fun key _ => by
    rw [hload]; rfl, ⟨?_, ?_, ?_, ?_, h.alive⟩, h.tracks.congr rfl rfl rfl, h.elements⟩
  · intro key value hvalue
    have hlookup : (if key ∈ keys.filter fun key => (state.pending key).isNone then
        some (stored key) else none) = some value := lookup_map.symm.trans hvalue
    split at hlookup
    · cases hlookup
      exact hagrees key
    · cases hlookup
  · intro key hkey hnone
    have hmem : key ∈ keys.filter fun key => (state.pending key).isNone :=
      mem_filter.mpr ⟨hkey, by
        have : state.pending key = none := hnone
        rw [this]
        rfl⟩
    show (List.lookup key _).isSome = true
    rw [lookup_map, if_pos hmem]
    rfl
  · intro key hkey
    cases hkey
  · intro key _
    exact ⟨stored key, hload key, hagrees key⟩

/-- The flushed groups are written, and the backend is current again. -/
theorem miniMutations_ok (hplan : operator.Planned schema) {incoming : StateKey → Prop}
    {store : Store} {work : MiniWork D}
    (h : operator.Consistent store incoming work groups) :
    ∃ mutations, miniMutations work = .ok mutations ∧
      ∀ key, ∃ stored, operator.loadState (store.writeBatch mutations) key = .ok stored ∧
        Agrees operator.calls stored (groups key) := by
  let value : StateKey → Option AccumulatorState := fun key => (work.working key).getD none
  have hworking : ∀ key ∈ work.dirty, work.working key = some (value key) := by
    intro key hkey
    obtain ⟨state, hstate⟩ := Option.isSome_iff_exists.mp (h.dirty key hkey)
    simp [value, hstate]
  refine ⟨work.dirty.map fun key => ⟨key, (value key).map encodeState⟩,
    mapM_of_ok fun key hkey => by rw [hworking key hkey], fun key => ?_⟩
  by_cases hkey : key ∈ work.dirty
  · have hagrees := h.working key _ (hworking key hkey)
    rw [loadState, Store.get_writeBatch_map, if_pos hkey]
    rcases hvalue : value key with _ | state
    · rw [hvalue] at hagrees
      exact ⟨none, rfl, hagrees⟩
    · rw [hvalue] at hagrees
      obtain ⟨group, hgroup⟩ : ∃ group, groups key = some group := by
        rw [← Option.isSome_iff_exists, ← hagrees.isSome_eq]
        rfl
      rw [hgroup] at hagrees ⊢
      obtain ⟨hsame, htyped, hgroupTyped⟩ := hagrees
      obtain ⟨restored, hdecode, hrestored, hrestoredTyped⟩ := decodeState_of_settled
        hplan.admitted hplan.length htyped
        (AccumulatorState.Settled.of_same htyped hsame (h.alive key group hgroup).2)
      exact ⟨some restored, by rw [Option.map_some]; dsimp only; rw [hdecode]; rfl,
        hrestored.trans hsame, hrestoredTyped, hgroupTyped⟩
  · obtain ⟨stored, hload, hagrees⟩ := h.clean key hkey
    refine ⟨stored, ?_, hagrees⟩
    rw [loadState, Store.get_writeBatch_map, if_neg hkey]
    exact hload

variable {rows : List InputRow}

/-- The choice between the two ways through a batch. -/
theorem appendOnly_ok (hrows : ∀ row ∈ rows, row.Admissible schema) :
    operator.appendOnly (rows.map fun row => (row, none)) =
      .ok (!operator.calls.isEmpty && rows.all operator.adds) := by
  have hany : (rows.map fun row => ((row, none) : MiniInput)).any (fun input => input.2.isSome) =
      false := by
    simp
  rw [appendOnly, hany, Bool.false_or]
  by_cases hcalls : operator.calls.isEmpty = true
  · rw [if_pos hcalls, hcalls]
    rfl
  · have hadds : (rows.map fun row => ((row, none) : MiniInput)).mapM
        (fun input => operator.accumulates input.1) =
        .ok ((rows.map fun row => ((row, none) : MiniInput)).map fun input =>
            operator.adds input.1) := by
      refine mapM_of_ok fun input hinput => ?_
      obtain ⟨row, hrow, rfl⟩ := mem_map.mp hinput
      exact accumulates_eq _ (hrows row hrow).change
    rw [if_neg hcalls, hadds]
    simp only [Bool.not_eq_true] at hcalls
    rw [hcalls]
    simp [Function.comp_def, all_map]

/-- **A batch.**  Both ways through it feed its rows to the bundles. -/
theorem processMiniInput_ok (hash : Bytes → UInt32) (hplan : operator.Planned schema)
    (hrows : ∀ row ∈ rows, row.Admissible schema)
    (hlength : rows.length ≤ 2 ^ 32) (h : operator.Between D state groups tail)
    (htail : tail.length < size) (hsettled : operator.SettledFeed size groups tail rows) :
    ∃ state', operator.processMiniInput D schema hash size state (rows.map fun row => (row, none)) =
        .ok (state', (operator.feed hash size groups tail rows).2) ∧
      operator.Between D state' (operator.feed hash size groups tail rows).1.1
        (operator.feed hash size groups tail rows).1.2 := by
  obtain ⟨loaded, hprefetch, hholds⟩ := prefetch_ok h
    (keysOf (fun input : MiniInput => input.1.key) (rows.map fun row => (row, none)))
  have hincoming : ∀ row ∈ rows, row.key ∈ keysOf (fun input : MiniInput => input.1.key)
      (rows.map fun row => (row, none)) := by
    intro row hrow
    exact mem_keysOf.mpr ⟨(row, none), mem_map.mpr ⟨row, hrow, rfl⟩, rfl⟩
  obtain ⟨work, hwork, hevents, hholds'⟩ : ∃ work : MiniWork D,
      (if !operator.calls.isEmpty && rows.all operator.adds then
        operator.appendLoop schema hash size (rows.map fun row => ((row, none) : MiniInput)).length
          (MiniState.work D state fun key => loaded.lookup key)
          ((rows.map fun row => ((row, none) : MiniInput)).map Prod.fst).zipIdx
        else (rows.map fun row => ((row, none) : MiniInput)).foldlM
          (operator.miniRow schema hash size)
          (MiniState.work D state fun key => loaded.lookup key)) = .ok work ∧
      work.events = [] ++ (operator.feed hash size groups tail rows).2 ∧
      operator.Holds state.store _ work (operator.feed hash size groups tail rows).1.1
        (operator.feed hash size groups tail rows).1.2 := by
    split
    next happend =>
      rw [Bool.and_eq_true, Bool.not_eq_true', all_eq_true] at happend
      have hfst : (rows.map fun row => ((row, none) : MiniInput)).map Prod.fst = rows := by
        rw [map_map]
        exact map_id rows
      have hzip : rows.zipIdx.map Prod.fst = rows := by simp
      have hmem : ∀ entry ∈ rows.zipIdx, entry.1 ∈ rows := fun entry hentry => by
        have := mem_map_of_mem (f := Prod.fst) hentry
        rwa [hzip] at this
      have := appendLoop_ok hash hplan happend.1
        (rows.map fun row => ((row, none) : MiniInput)).length rows.zipIdx (by simp)
        (fun entry hentry => {
          typed := (hrows _ (hmem entry hentry)).typed
          index := by
            have := snd_lt_of_mem_zipIdx hentry
            omega
          adds := happend.2 _ (hmem entry hentry) })
        (fun entry hentry => hincoming _ (hmem entry hentry)) rfl hholds htail
        (by rw [hzip]; exact hsettled)
      rw [hzip] at this
      rw [hfst]
      exact this
    next =>
      exact foldlM_miniRow_ok hash hplan hrows hincoming hholds htail hsettled
  obtain ⟨mutations, hmutations, hstored⟩ := miniMutations_ok hplan hholds'.consistent
  refine ⟨⟨state.store.writeBatch mutations, work.pending, work.pendingOrder,
    work.pendingElements⟩, ?_, hstored, ?_, hholds'.elements, hholds'.consistent.alive⟩
  · rw [processMiniInput, hprefetch, ok_bind, if_neg (by omega), appendOnly_ok hrows]
    rw [nil_append] at hevents
    dsimp only [MiniState.work] at hwork
    rw [ok_bind, ← hevents]
    dsimp only
    split_ifs at hwork ⊢ <;> rw [hwork, ok_bind, hmutations] <;> rfl
  · refine ⟨hholds'.tracks.pendingOrder, hholds'.tracks.absent, hholds'.tracks.present, ?_⟩
    intro key kernels hkernels
    cases hkernels

theorem foldlM_finishKey_ok {rows : StateKey → List InputRow} (hnodup : keys.Nodup)
    (state : MiniState × List StateMutation × List OutputEvent)
    (h : ∀ key ∈ keys, ∃ group, state.1.pending key = some group ∧
      Agrees operator.calls group.original (groups key) ∧
      Agrees operator.calls group.current (operator.groupAfter (groups key) (rows key))) :
    ∃ state', keys.foldlM operator.finishKey state = .ok state' ∧
      state'.2.2 = state.2.2 ++ keys.flatMap fun key => operator.groupEvents key
        ⟨groups key, operator.groupAfter (groups key) (rows key)⟩ := by
  induction keys generalizing state with
  | nil => exact ⟨state, rfl, by simp⟩
  | cons key keys ih =>
    obtain ⟨hkey, hnodup⟩ := nodup_cons.mp hnodup
    obtain ⟨⟨group, hgroup, horiginal, hcurrent⟩, hrest⟩ := forall_mem_cons.mp h
    obtain ⟨state₁, hstep, hpending, hevents₁⟩ : ∃ state₁,
      operator.finishKey state key = .ok state₁ ∧
        state₁.1.pending = Function.update state.1.pending key none ∧
        state₁.2.2 = state.2.2 ++ operator.groupEvents key group := by
      rw [finishKey, hgroup]
      exact ⟨_, rfl, rfl, rfl⟩
    obtain ⟨state₂, hsteps, hevents₂⟩ := ih hnodup state₁ fun key' hkey' => by
      obtain ⟨group', hgroup', hagrees⟩ := hrest key' hkey'
      have hne : key' ≠ key := fun heq => hkey (heq ▸ hkey')
      exact ⟨group', by rw [hpending, Function.update_of_ne hne]; exact hgroup', hagrees⟩
    refine ⟨state₂, by rw [foldlM_cons, hstep]; exact hsteps, ?_⟩
    rw [hevents₂, hevents₁, flatMap_cons, append_assoc,
      groupEvents_of_agrees key horiginal hcurrent]

theorem finishPending_ok (hash : Bytes → UInt32) (h : operator.Between D state groups tail) :
    ∃ state', operator.finishPending hash state =
      .ok (state', operator.bundlesEvents hash groups (bundlesFrom size tail [])) := by
  have hperm := sortFlinkHashmapKeys_perm hash (keysOf InputRow.key tail)
  have horder : state.pendingOrder = keysOf InputRow.key tail := h.tracks.pendingOrder
  obtain ⟨final, hfold, hevents⟩ :=
    foldlM_finishKey_ok (hperm.nodup_iff.mpr (nodup_keysOf InputRow.key tail))
    ({ state with pendingOrder := [] }, [], [])
    fun key hkey => h.tracks.present key (hperm.mem_iff.mp hkey)
  rw [finishPending, horder, hfold]
  refine ⟨_, congrArg (fun events => ok (_, events)) (hevents.trans ?_)⟩
  rw [nil_append, bundlesFrom]
  rcases tail with _ | ⟨row, tail⟩
  · rfl
  · simp [bundlesEvents, bundleEvents_eq]

/-- Batches go through one after the other. -/
theorem processMiniBatches_ok (hash : Bytes → UInt32) (hplan : operator.Planned schema)
    {batches : List (List InputRow)}
    (hrows : ∀ rows ∈ batches, ∀ row ∈ rows, row.Admissible schema)
    (hlength : ∀ rows ∈ batches, rows.length ≤ 2 ^ 32) (h : operator.Between D state groups tail)
    (htail : tail.length < size)
    (hsettled : operator.SettledFeed size groups tail batches.flatten) :
    ∃ state', operator.processMiniBatches D schema hash size state batches =
      .ok (state', operator.bundlesEvents hash groups (bundlesFrom size tail batches.flatten)) := by
  induction batches generalizing state groups tail with
  | nil => exact finishPending_ok hash h
  | cons rows batches ih =>
    obtain ⟨hrow, hrest⟩ := forall_mem_cons.mp hrows
    obtain ⟨hfits, hfit⟩ := forall_mem_cons.mp hlength
    rw [flatten_cons, settledFeed_append hash] at hsettled
    obtain ⟨state₁, hbatch, hbetween⟩ :=
      processMiniInput_ok hash hplan hrow hfits h htail hsettled.1
    obtain ⟨state₂, hbatches⟩ := ih hrest hfit hbetween (length_feed htail) hsettled.2
    refine ⟨state₂, ?_⟩
    rw [processMiniBatches, hbatch, ok_bind]
    dsimp only
    rw [hbatches, ok_bind]
    rw [← feed_bundles, ← feed_bundles groups tail, flatten_cons, feed_append, append_assoc]

/-- **Mini-batches.**  If the states that the bundles leave are settled, the batches are processed
without an error, and the events are the net changes of the consecutive bundles of the stream.  The
way the stream is cut into batches cannot be seen, nor which way was taken through a batch. -/
theorem mini_batches_are_bundles (D : DataFusion) (hash : Bytes → UInt32) (size : Nat)
    (hsize : 0 < size) (hplan : operator.Planned schema) (batches : List (List InputRow))
    (hrows : ∀ rows ∈ batches, ∀ row ∈ rows, row.Admissible schema)
    (hlength : ∀ rows ∈ batches, rows.length ≤ 2 ^ 32)
    (hsettled : operator.SettledBundles (fun _ => none) (bundles size batches.flatten)) :
    ∃ state, operator.processMiniBatches D schema hash size .empty batches =
      .ok (state, operator.bundlesEvents hash (fun _ => none) (bundles size batches.flatten)) :=
  processMiniBatches_ok hash hplan hrows hlength Between.empty hsize
    (settledFeed_of_bundles hsettled)

/-! ## An average that overflows -/

/-- An average of decimals. -/
def averageCall : Call :=
  ⟨.avg, some 0, none, false, some (.decimal128 38 0), .decimal128 38 0, true⟩

/-- One average, with retractions in the input and both rows of an update in the output. -/
def averagePlan : GroupAggregate := ⟨true, true, [averageCall], none⟩

/-- Its one column. -/
def averageSchema : Schema := [.decimal128 38 0]

/-- A row for it. -/
def averageRow (kind : Int8) (value : Option Int) : InputRow :=
  ⟨⟨0, [1]⟩, kind, [value.map .int]⟩

theorem averagePlan_planned : averagePlan.Planned averageSchema := by
  refine ⟨fun call hcall => ?_, fun _ call hcall => ?_, by decide⟩
  · cases mem_singleton.mp hcall
    refine ⟨⟨rfl, .decimal128 38 0, .decimal128 38 0, rfl, rfl⟩, ?_, ?_, ?_, ?_, ?_⟩
    · intro index hindex
      cases hindex
      exact ⟨.decimal128 38 0, rfl, rfl⟩
    · intro index hindex
      cases hindex
    · exact ⟨fun type htype => by cases htype; exact le_rfl, le_rfl⟩
    · intro hdistinct
      cases hdistinct
    · rintro (h | h) <;> cases h
  · cases mem_singleton.mp hcall
    rfl

theorem averageRow_admissible {kind : Int8} {value : Option Int}
    (hkind : IsChange (averageRow kind value))
    (hvalue : ∀ v, value = some v → InPrecision 38 v) :
    (averageRow kind value).Admissible averageSchema := by
  refine ⟨.cons (fun v hv _ => ?_) .nil, hkind⟩
  obtain ⟨n, hn, rfl⟩ := Option.map_eq_some_iff.mp hv
  exact ⟨le_rfl, hvalue n hn⟩

/-- Two rows in two batches make one bundle. -/
theorem mini_batches_are_bundles_two_batches :
    ∃ state, averagePlan.processMiniBatches .reference averageSchema (fun _ => 0) 2 .empty
      [[averageRow 0 (some 1)], [averageRow 0 (some 3)]] =
      .ok (state, averagePlan.bundlesEvents (fun _ => 0) (fun _ => none)
        [[averageRow 0 (some 1), averageRow 0 (some 3)]]) := by
  refine mini_batches_are_bundles .reference (fun _ => 0) 2 (by decide) averagePlan_planned
    [[averageRow 0 (some 1)], [averageRow 0 (some 3)]] ?_ (by decide) ⟨?_, trivial⟩
  · intro rows hrows row hrow
    fin_cases hrows <;> cases mem_singleton.mp hrow
    · exact averageRow_admissible (by decide) fun v hv => by cases hv; decide
    · exact averageRow_admissible (by decide) fun v hv => by cases hv; decide
  · intro key state hstate
    by_cases hkey : key = ⟨0, [1]⟩
    · subst hkey
      have hstate' : some ⟨2, [.average (some (.int 4)) 2]⟩ = some state := hstate
      cases hstate'
      refine .cons ⟨?_, .refl _⟩ .nil
      intro v hv
      cases hv
      show InWidth 128 4
      decide
    · have hnil : rowsOf InputRow.key key [averageRow 0 (some 1), averageRow 0 (some 3)] = [] := by
        refine rowsOf_eq_nil fun hmem => hkey ?_
        obtain ⟨row, hrow, rfl⟩ := mem_keysOf.mp hmem
        fin_cases hrow <;> rfl
      have hnone : averagePlan.bundleGroups (fun _ => none)
          [averageRow 0 (some 1), averageRow 0 (some 3)] key = none := by
        rw [bundleGroups, hnil]
        rfl
      cases hnone.symm.trans hstate

/-- The sum overflows, and then all its rows are retracted; a row without a value keeps the
group. -/
def overflowRows : List InputRow :=
  [averageRow 0 none, averageRow 0 (some (6 * 10 ^ 37)), averageRow 0 (some (6 * 10 ^ 37)),
    averageRow 3 (some (6 * 10 ^ 37)), averageRow 3 (some (6 * 10 ^ 37))]

/-- After the overflow the average has no value, whatever comes.  If its state is written before the
next row, it is taken for an average that has seen nothing, and starts again from zero. -/
theorem cut_within_an_overflow :
    (averagePlan.processMiniBatches .reference averageSchema (fun _ => 0) 1 .empty
      [overflowRows ++ [averageRow 0 (some 1)]]).toOption.map (fun result => result.2) ≠
    (averagePlan.processMiniBatches .reference averageSchema (fun _ => 0) 1 .empty
      [overflowRows, [averageRow 0 (some 1)]]).toOption.map (fun result => result.2) := by
  decide +kernel

end GroupAggregate

end StreamFusion.Aggregate
