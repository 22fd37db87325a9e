import StreamFusion.Aggregate.MiniBatch.Bundles

/-!
# The mini-batch loop computes the bundles

The loop over a batch keeps two facts.  `Tracks` is about the pending groups: they are the groups of
the open bundle, each with the state it had and the state the rows of the bundle have made of it.
`Consistent` is about the working set and the backend: a state in the working set is the current
one, a group of the batch that is not pending is in the working set (so that no lookup fails), and a
group that is not dirty has its current state in the backend.

Rows and chunks of rows keep `Tracks` (`miniRow_ok`, `appendChunk_ok`), a flush keeps `Consistent`
(`flushToWorking_ok`), and the write at the end of a batch makes the backend current again.

States agree up to `Same`, because a state that was written and read again has lost the difference
between a sum that is zero and a sum without a value.  This is why the states must be settled:
`cut_within_an_overflow` is a plan, an input and two ways to cut it into batches with different
results.
-/

namespace StreamFusion.Aggregate

open Wire State Grouped Changelog Function List Except

/-! ## States that agree -/

/-- The same group, up to what cannot be seen. -/
def Agrees (calls : List Call) : Option AccumulatorState → Option AccumulatorState → Prop
  | none, none => True
  | some s, some t => s.Same t ∧ s.Typed calls ∧ t.Typed calls
  | _, _ => False

variable {calls : List Call} {schema : Schema}

namespace Agrees

variable {a b : Option AccumulatorState}

theorem rowCount (h : Agrees calls a b) :
    (a.map fun state => state.rowCount) = b.map fun state => state.rowCount := by
  cases a <;> cases b <;> first | exact h.elim | rfl | exact congrArg some h.1.rowCount

theorem isSome_eq (h : Agrees calls a b) : a.isSome = b.isSome := by
  cases a <;> cases b <;> first | exact h.elim | rfl

theorem none_iff (h : Agrees calls a b) : a = none ↔ b = none := by
  cases a <;> cases b <;> first | exact h.elim | simp

theorem getD (hcalls : ∀ call ∈ calls, Admitted schema call) (h : Agrees calls a b) :
    (a.getD (.new calls)).Same (b.getD (.new calls)) ∧ (a.getD (.new calls)).Typed calls ∧
      (b.getD (.new calls)).Typed calls := by
  cases a <;> cases b
  · exact ⟨.refl _, .new hcalls, .new hcalls⟩
  · exact h.elim
  · exact h.elim
  · exact h

end Agrees

/-- The rows of one group in a batch that must not fail. -/
structure InputRow.Admissible (schema : Schema) (row : InputRow) : Prop where
  typed : row.Typed schema
  change : GroupAggregate.IsChange row

namespace GroupAggregate

/-- What the planner promises about a mini-batch aggregate. -/
structure Planned (operator : GroupAggregate) (schema : Schema) : Prop where
  admitted : ∀ call ∈ operator.calls, Admitted schema call
  retractable : operator.inputChangelog = true → ∀ call ∈ operator.calls, call.retractable = true
  length : operator.calls.length < 2 ^ 32

variable {operator : GroupAggregate}

theorem Planned.accumulates (hplan : operator.Planned schema) (row : InputRow) :
    ∀ call ∈ operator.calls, operator.adds row = true ∨ call.retractable = true := by
  intro call hcall
  by_cases hchangelog : operator.inputChangelog = true
  · exact Or.inr (hplan.retractable hchangelog call hcall)
  · exact Or.inl (by simp [adds, hchangelog])

/-- States that agree emit the same. -/
theorem groupEvents_of_agrees (key : StateKey) {a b c d : Option AccumulatorState}
    (horiginal : Agrees operator.calls a b) (hcurrent : Agrees operator.calls c d) :
    operator.groupEvents key ⟨a, c⟩ = operator.groupEvents key ⟨b, d⟩ := by
  have hfirst : PendingGroup.first ⟨a, c⟩ = PendingGroup.first ⟨b, d⟩ := by
    cases a <;> cases b <;>
      first | exact horiginal.elim | rfl | simp [PendingGroup.first, horiginal.1.rowCount]
  rcases c with _ | s <;> rcases d with _ | t
  · rfl
  · exact hcurrent.elim
  · exact hcurrent.elim
  · rw [groupEvents, groupEvents, hfirst]
    dsimp only
    rw [hcurrent.1.rowCount, hcurrent.1.values]
    rcases a with _ | o <;> rcases b with _ | p
    · rfl
    · exact horiginal.elim
    · exact horiginal.elim
    · simp only [horiginal.1.values]

variable {state : Option AccumulatorState} {row : InputRow}

theorem isSome_rowAfter
    (h : state.isSome = true) : (operator.rowAfter state row).isSome = true := by
  unfold rowAfter
  split
  · split <;> first | exact h | rfl
  · simp [h]

theorem isSome_groupAfter (rows : List InputRow)
    (h : state.isSome = true) : (operator.groupAfter state rows).isSome = true := by
  induction rows generalizing state with
  | nil => exact h
  | cons row rows ih => exact ih (isSome_rowAfter h)

variable {rows : List InputRow}

theorem eq_none_of_groupAfter (h : operator.groupAfter state rows = none) : state = none := by
  by_contra hne
  have hsome : (operator.groupAfter state rows).isSome = true :=
    isSome_groupAfter rows (Option.isSome_iff_ne_none.mpr hne)
  simp [h] at hsome

theorem valuesOf_some (state : AccumulatorState) : operator.valuesOf (some state) =
    if state.rowCount = 0 then none else some (state.values operator.calls) := by
  by_cases h : state.rowCount = 0 <;> simp [valuesOf, Option.filter, h]

/-- **A pending group emits its net change.** -/
theorem groupEvents_eq_netChange (key : StateKey) (rows : List InputRow) :
    operator.groupEvents key ⟨state, operator.groupAfter state rows⟩ =
      operator.netChange key (operator.valuesOf state)
        (operator.valuesOf (operator.groupAfter state rows)) := by
  rcases hafter : operator.groupAfter state rows with _ | current
  · rw [eq_none_of_groupAfter hafter]
    rfl
  · have hnone : operator.valuesOf none = none := rfl
    rw [groupEvents, valuesOf_some]
    rcases state with _ | original
    · by_cases hcount : current.rowCount = 0 <;>
        simp [PendingGroup.first, changeRows, netChange, hnone, hcount]
    · rw [valuesOf_some]
      by_cases hcount : current.rowCount = 0 <;> by_cases hbefore : original.rowCount = 0 <;>
        simp [PendingGroup.first, changeRows, netChange, hcount, hbefore]

theorem bundleEvents_eq (hash : Bytes → UInt32) (groups : Groups) (bundle : List InputRow) :
    operator.bundleEvents hash groups bundle =
      (sortFlinkHashmapKeys hash (keysOf InputRow.key bundle)).flatMap fun key =>
        operator.groupEvents key
          ⟨groups key, operator.groupAfter (groups key) (rowsOf InputRow.key key bundle)⟩ := by
  refine congrArg List.flatten (List.map_congr_left fun key _ => ?_)
  rw [groupEvents_eq_netChange, bundleGroups]
  simp [valuesOf, Option.filter_filter]

/-! ## The invariants of a batch -/

variable {D : DataFusion} {store : Store} {incoming : StateKey → Prop} {groups : Groups}
  {order : List StateKey}

section Invariants

/-- The pending groups of an open bundle: the groups in `order`, with the rows `rows`. -/
structure Tracks (operator : GroupAggregate) (work : MiniWork D) (groups : Groups)
    (order : List StateKey) (rows : StateKey → List InputRow) : Prop where
  pendingOrder : work.pendingOrder = order
  absent : ∀ key, key ∉ order → work.pending key = none ∧ rows key = []
  present : ∀ key ∈ order, ∃ group, work.pending key = some group ∧
    Agrees operator.calls group.original (groups key) ∧
    Agrees operator.calls group.current (operator.groupAfter (groups key) (rows key))
  kernels : ∀ key kernels, work.kernels key = some kernels → ∃ group state,
    work.pending key = some group ∧ group.current = some state ∧
    RowKernels.Mirror operator.calls kernels state.accumulators

/-- The working set and the backend, in a batch with the keys `incoming`. -/
structure Consistent (operator : GroupAggregate) (store : Store) (incoming : StateKey → Prop)
    (work : MiniWork D) (groups : Groups) : Prop where
  working : ∀ key state, work.working key = some state →
    Agrees operator.calls state (groups key)
  prefetched : ∀ key, incoming key → work.pending key = none → (work.working key).isSome = true
  dirty : ∀ key ∈ work.dirty, (work.working key).isSome = true
  clean : ∀ key, key ∉ work.dirty → ∃ state, operator.loadState store key = .ok state ∧
    Agrees operator.calls state (groups key)
  alive : ∀ key state, groups key = some state →
    state.rowCount ≠ 0 ∧ state.Settled operator.calls

variable {work work' : MiniWork D}

theorem Consistent.congr (h : operator.Consistent store incoming work groups)
    (hworking : work'.working = work.working) (hdirty : work'.dirty = work.dirty)
    (hpending : ∀ key, work'.pending key = none ↔ work.pending key = none) :
    operator.Consistent store incoming work' groups := by
  refine ⟨?_, ?_, ?_, ?_, h.alive⟩
  · rw [hworking]
    exact h.working
  · intro key hin hnone
    rw [hworking]
    exact h.prefetched key hin ((hpending key).mp hnone)
  · rw [hdirty, hworking]
    exact h.dirty
  · rw [hdirty]
    exact h.clean

theorem Tracks.congr {rows : StateKey → List InputRow}
    (h : operator.Tracks work groups order rows) (hpending : work'.pending = work.pending)
    (horder : work'.pendingOrder = work.pendingOrder) (hkernels : work'.kernels = work.kernels) :
    operator.Tracks work' groups order rows := by
  refine ⟨horder.trans h.pendingOrder, ?_, ?_, ?_⟩
  · rw [hpending]
    exact h.absent
  · rw [hpending]
    exact h.present
  · rw [hpending, hkernels]
    exact h.kernels

end Invariants

variable {keys : List StateKey}

theorem mem_insertKey {key key' : StateKey} :
    key' ∈ insertKey keys key ↔ key' = key ∨ key' ∈ keys := by
  unfold insertKey
  split
  next h =>
    constructor
    · exact Or.inr
    · rintro (rfl | h')
      · exact h
      · exact h'
  next => simp [or_comm]

/-! ## Flushing -/

variable {work : MiniWork D} {key : StateKey} {work' : MiniWork D} {group : PendingGroup}

section Flush

/-- The state of one group changes; what holds of the other groups is not affected. -/
theorem Consistent.update
    {after : Option AccumulatorState} (h : operator.Consistent store incoming work groups)
    (hpending : work'.pending = update work.pending key none)
    (hworking : ∀ key', key' ≠ key → work'.working key' = work.working key')
    (hdirty : ∀ key', key' ≠ key → (key' ∈ work'.dirty ↔ key' ∈ work.dirty))
    (hset : ∃ state, work'.working key = some state ∧ Agrees operator.calls state after)
    (hclean : key ∉ work'.dirty → ∃ state, operator.loadState store key = .ok state ∧
      Agrees operator.calls state after)
    (halive : ∀ state, after = some state → state.rowCount ≠ 0 ∧ state.Settled operator.calls) :
    operator.Consistent store incoming work' (update groups key after) := by
  obtain ⟨state, hstate, hagrees⟩ := hset
  constructor
  · intro key' state' hstate'
    by_cases hkey : key' = key
    · subst hkey
      rw [update_self]
      cases hstate.symm.trans hstate'
      exact hagrees
    · rw [update_of_ne hkey]
      exact h.working key' state' (by rw [← hworking key' hkey]; exact hstate')
  · intro key' hincoming hnone
    by_cases hkey : key' = key
    · subst hkey
      rw [hstate]
      rfl
    · rw [hpending, update_of_ne hkey] at hnone
      rw [hworking key' hkey]
      exact h.prefetched key' hincoming hnone
  · intro key' hmem
    by_cases hkey : key' = key
    · subst hkey
      rw [hstate]
      rfl
    · rw [hworking key' hkey]
      exact h.dirty key' ((hdirty key' hkey).mp hmem)
  · intro key' hmem
    by_cases hkey : key' = key
    · subst hkey
      rw [update_self]
      exact hclean hmem
    · rw [update_of_ne hkey]
      exact h.clean key' fun hin => hmem ((hdirty key' hkey).mpr hin)
  · intro key' state' hstate'
    by_cases hkey : key' = key
    · subst hkey
      rw [update_self] at hstate'
      exact halive state' hstate'
    · rw [update_of_ne hkey] at hstate'
      exact h.alive key' state' hstate'

/-- Flushing a key writes its state and emits its net change. -/
theorem flushKey_ok (h : operator.Consistent store incoming work groups)
    (hpending : work.pending key = some group)
    (horiginal : Agrees operator.calls group.original (groups key))
    (hcurrent : Agrees operator.calls group.current (operator.groupAfter (groups key) rows))
    (hsettled : ∀ state, (operator.groupAfter (groups key) rows).filter
      (fun state => decide (state.rowCount ≠ 0)) = some state → state.Settled operator.calls) :
    ∃ work', operator.flushKey work key = .ok work' ∧ work'.pending = update work.pending key none ∧
      work'.pendingOrder = work.pendingOrder ∧ work'.kernels = work.kernels ∧
      work'.events = work.events ++ operator.groupEvents key
        ⟨groups key, operator.groupAfter (groups key) rows⟩ ∧
      operator.Consistent store incoming work' (update groups key
        ((operator.groupAfter (groups key) rows).filter fun state => state.rowCount ≠ 0)) := by
  obtain ⟨original, current⟩ := group
  have hevents := groupEvents_of_agrees key horiginal hcurrent
  unfold flushKey
  rw [hpending]
  rcases current with _ | current
  · -- only retractions of a group that is not there
    have hafter : operator.groupAfter (groups key) rows = none := hcurrent.none_iff.mp rfl
    have hnone := eq_none_of_groupAfter hafter
    refine ⟨_, rfl, rfl, rfl, rfl, ?_, h.update rfl ?_ (fun _ _ => Iff.rfl) ?_ ?_ ?_⟩
    · rw [hafter]
      simp [groupEvents]
    · intro key' hkey
      split
      · rfl
      · exact update_of_ne hkey _ _
    · rw [hafter, Option.filter_none]
      split
      next hsome =>
        obtain ⟨state, hstate⟩ := Option.isSome_iff_exists.mp hsome
        have := h.working key state hstate
        rw [hnone] at this
        exact ⟨state, hstate, this⟩
      next => exact ⟨none, update_self .., trivial⟩
    · intro hclean
      obtain ⟨state, hload, hagrees⟩ := h.clean key hclean
      rw [hnone] at hagrees
      exact ⟨state, hload, by rw [hafter]; exact hagrees⟩
    · rw [hafter]
      simp
  · obtain ⟨after, hafter⟩ : ∃ after, operator.groupAfter (groups key) rows = some after := by
      rw [← Option.isSome_iff_exists, ← hcurrent.isSome_eq]
      rfl
    rw [hafter] at hcurrent hevents hsettled ⊢
    have hcount : current.rowCount = after.rowCount := hcurrent.1.rowCount
    dsimp only
    rw [hevents]
    by_cases hzero : current.rowCount = 0
    · have hfilter : (some after).filter (fun state => decide (state.rowCount ≠ 0)) = none := by
        simp [Option.filter, ← hcount, hzero]
      rw [if_pos hzero, hfilter]
      refine ⟨_, rfl, rfl, rfl, rfl, rfl, h.update rfl (fun key' hkey => update_of_ne hkey _ _) ?_
        ⟨none, update_self .., trivial⟩ ?_ (by simp)⟩
      · intro key' hkey
        split
        · rfl
        · simp [mem_insertKey, hkey]
      · intro hclean
        split at hclean
        next hfirst =>
          -- a group that was not there before and is not there after
          have hnone : groups key = none := by
            rcases hgroup : groups key with _ | state
            · rfl
            · rcases original with _ | original
              · rw [hgroup] at horiginal
                exact horiginal.elim
              · rw [hgroup] at horiginal
                have halive := (h.alive key state hgroup).1
                rw [← horiginal.1.rowCount] at halive
                simp [PendingGroup.first, halive] at hfirst
          obtain ⟨state, hload, hagrees⟩ := h.clean key hclean
          rw [hnone] at hagrees
          exact ⟨state, hload, hagrees⟩
        next => exact absurd (mem_insertKey.mpr (Or.inl rfl)) hclean
    · have hfilter : (some after).filter (fun state => decide (state.rowCount ≠ 0)) =
          some after := by
        simp [Option.filter, ← hcount, hzero]
      rw [if_neg hzero, hfilter]
      refine ⟨_, rfl, rfl, rfl, rfl, rfl, h.update rfl (fun key' hkey => update_of_ne hkey _ _) ?_
        ⟨some current, update_self .., hcurrent⟩ ?_ ?_⟩
      · intro key' hkey
        simp [mem_insertKey, hkey]
      · intro hclean
        exact absurd (mem_insertKey.mpr (Or.inl rfl)) hclean
      · intro state hstate
        cases hstate
        exact ⟨by rw [← hcount]; exact hzero, hsettled after hfilter⟩

/-- The groups in a list are flushed one after the other. -/
theorem foldlM_flushKey_ok (work : MiniWork D)
    (start : Groups) (rows : StateKey → List InputRow) (hnodup : keys.Nodup)
    (h : operator.Consistent store incoming work groups)
    (hstart : ∀ key ∈ keys, groups key = start key)
    (hpending : ∀ key ∈ keys, ∃ group, work.pending key = some group ∧
      Agrees operator.calls group.original (start key) ∧
      Agrees operator.calls group.current (operator.groupAfter (start key) (rows key)))
    (hsettled : ∀ key ∈ keys, ∀ state, (operator.groupAfter (start key) (rows key)).filter
      (fun state => decide (state.rowCount ≠ 0)) = some state → state.Settled operator.calls) :
    ∃ work', keys.foldlM operator.flushKey work = .ok work' ∧
      (∀ key, work'.pending key = if key ∈ keys then none else work.pending key) ∧
      work'.pendingOrder = work.pendingOrder ∧ work'.kernels = work.kernels ∧
      work'.events = work.events ++ keys.flatMap (fun key => operator.groupEvents key
        ⟨start key, operator.groupAfter (start key) (rows key)⟩) ∧
      operator.Consistent store incoming work' (fun key => if key ∈ keys then
        (operator.groupAfter (start key) (rows key)).filter fun state => state.rowCount ≠ 0
        else groups key) := by
  induction keys generalizing work groups with
  | nil => exact ⟨work, rfl, by simp, rfl, rfl, by simp, by simpa using h⟩
  | cons key keys ih =>
    obtain ⟨hkey, hnodup⟩ := nodup_cons.mp hnodup
    obtain ⟨hfirst, hrest⟩ := forall_mem_cons.mp hpending
    obtain ⟨hgroups, hgroups'⟩ := forall_mem_cons.mp hstart
    obtain ⟨group, hgroup, horiginal, hcurrent⟩ := hfirst
    rw [← hgroups] at horiginal hcurrent
    obtain ⟨work₁, hstep, hpending₁, horder₁, hkernels₁, hevents₁, hconsistent₁⟩ :=
      flushKey_ok h hgroup
      horiginal hcurrent (by rw [hgroups]; exact hsettled key (mem_cons_self ..))
    have hne : ∀ key' ∈ keys, key' ≠ key := fun key' hmem heq => hkey (heq ▸ hmem)
    obtain ⟨work₂, hsteps, hpending₂, horder₂, hkernels₂, hevents₂, hconsistent₂⟩ :=
      ih work₁ hnodup hconsistent₁
      (fun key' hmem => by rw [update_of_ne (hne key' hmem)]; exact hgroups' key' hmem)
      (fun key' hmem => by
        rw [hpending₁, update_of_ne (hne key' hmem)]
        exact hrest key' hmem)
      (fun key' hmem => hsettled key' (mem_cons_of_mem _ hmem))
    refine ⟨work₂, by rw [foldlM_cons, hstep]; exact hsteps, ?_, horder₂.trans horder₁,
      hkernels₂.trans hkernels₁, ?_, ?_⟩
    · intro key'
      rw [hpending₂, hpending₁]
      by_cases hkey' : key' = key
      · subst hkey'
        simp [hkey]
      · simp [hkey']
    · rw [hevents₂, hevents₁, flatMap_cons, append_assoc, hgroups]
    · convert hconsistent₂ using 2 with key'
      by_cases hkey' : key' = key
      · subst hkey'
        simp [hkey, hgroups]
      · simp [hkey']

variable {bundle : List InputRow}

/-- A group that no row of the bundle names stays as it is. -/
theorem bundleGroups_of_not_mem (halive : ∀ key state, groups key = some state → state.rowCount ≠ 0)
    (h : key ∉ keysOf InputRow.key bundle) : operator.bundleGroups groups bundle key =
        groups key := by
  rw [bundleGroups, rowsOf_eq_nil h]
  show (groups key).filter _ = groups key
  rcases hstate : groups key with _ | state
  · rfl
  · simp [Option.filter, halive key state hstate]

/-- **A flush.**  It emits the net changes of the bundle, and no group is pending afterwards. -/
theorem flushToWorking_ok (hash : Bytes → UInt32)
    (h : operator.Consistent store incoming work groups)
    (htracks : operator.Tracks work groups (keysOf InputRow.key bundle)
      fun key => rowsOf InputRow.key key bundle)
    (hsettled : ∀ key state, operator.bundleGroups groups bundle key = some state →
      state.Settled operator.calls) :
    ∃ work', operator.flushToWorking hash work = .ok work' ∧
      work'.pendingElements = 0 ∧ (∀ key, work'.pending key = none) ∧ work'.pendingOrder = [] ∧
      work'.kernels = work.kernels ∧ work'.events = work.events ++
        operator.bundleEvents hash groups bundle ∧
      operator.Consistent store incoming work' (operator.bundleGroups groups bundle) := by
  have hperm := sortFlinkHashmapKeys_perm hash (keysOf InputRow.key bundle)
  obtain ⟨work', hfold, hpending, horder, hkernels, hevents, hconsistent⟩ := foldlM_flushKey_ok
    { work with pendingOrder := [] } groups (fun key => rowsOf InputRow.key key bundle)
    (hperm.nodup_iff.mpr (nodup_keysOf ..))
    (h.congr rfl rfl fun _ => Iff.rfl) (fun _ _ => rfl)
    (fun key hkey => htracks.present key (hperm.mem_iff.mp hkey))
    (fun key _ state hstate => hsettled key state hstate)
  rw [← bundleEvents_eq] at hevents
  refine ⟨{ work' with pendingElements := 0 }, ?_, rfl, ?_, horder, hkernels, hevents, ?_⟩
  · rw [flushToWorking, htracks.pendingOrder, hfold]
    rfl
  · intro key
    rw [hpending]
    split
    · rfl
    next hmem => exact (htracks.absent key fun hin => hmem (hperm.mem_iff.mpr hin)).1
  · have hgroups : (fun key => if key ∈ sortFlinkHashmapKeys hash (keysOf InputRow.key bundle) then
        (operator.groupAfter (groups key) (rowsOf InputRow.key key bundle)).filter
          fun state => decide (state.rowCount ≠ 0)
        else groups key) = operator.bundleGroups groups bundle := by
      funext key
      split
      · rfl
      next hmem =>
        exact (bundleGroups_of_not_mem (fun key state hstate => (h.alive key state hstate).1)
          fun hin => hmem (hperm.mem_iff.mpr hin)).symm
    rw [hgroups] at hconsistent
    exact hconsistent.congr rfl rfl fun _ => Iff.rfl

end Flush

/-! ## Rows -/

section Rows

variable {rows : StateKey → List InputRow}

/-- A group becomes pending; the lookup of its state does not fail. -/
theorem stageGroup_ok (message : String) (h : operator.Consistent store incoming work groups)
    (htracks : operator.Tracks work groups order rows) (hincoming : incoming key) :
    ∃ work', stageGroup message work key = .ok work' ∧
      work'.pendingElements = work.pendingElements ∧ work'.events = work.events ∧
      work'.kernels = work.kernels ∧ operator.Consistent store incoming work' groups ∧
      operator.Tracks work' groups (if key ∈ order then order else order ++ [key]) rows := by
  unfold stageGroup
  by_cases hmem : key ∈ order
  · obtain ⟨group, hgroup, -⟩ := htracks.present key hmem
    rw [if_pos (by rw [hgroup]; rfl), if_pos hmem]
    exact ⟨work, rfl, rfl, rfl, rfl, h, htracks⟩
  · obtain ⟨hnone, hrows⟩ := htracks.absent key hmem
    obtain ⟨state, hstate⟩ := Option.isSome_iff_exists.mp (h.prefetched key hincoming hnone)
    have hagrees := h.working key state hstate
    rw [if_neg (by simp [hnone]), hstate, if_neg hmem]
    refine ⟨_, rfl, rfl, rfl, rfl, ⟨h.working, ?_, h.dirty, h.clean, h.alive⟩,
      ⟨by rw [htracks.pendingOrder], ?_, ?_, ?_⟩⟩
    · intro key' hin hpending
      dsimp only at hpending ⊢
      by_cases hkey : key' = key
      · subst hkey
        simp at hpending
      · rw [update_of_ne hkey] at hpending
        exact h.prefetched key' hin hpending
    · intro key' hnot
      dsimp only
      rw [mem_append, mem_singleton, not_or] at hnot
      rw [update_of_ne hnot.2]
      exact htracks.absent key' hnot.1
    · intro key' hin
      dsimp only
      by_cases hkey : key' = key
      · subst hkey
        rw [update_self, hrows]
        exact ⟨_, rfl, hagrees, hagrees⟩
      · rw [update_of_ne hkey]
        refine htracks.present key' ?_
        simpa [hkey] using hin
    · intro key' kernels hkernels
      dsimp only at hkernels ⊢
      by_cases hkey : key' = key
      · subst hkey
        obtain ⟨group, -, hgroup, -⟩ := htracks.kernels key' kernels hkernels
        cases hnone.symm.trans hgroup
      · rw [update_of_ne hkey]
        exact htracks.kernels key' kernels hkernels

/-- One pending key moves on, the others are as before. -/
theorem Tracks.setCurrent {current : Option AccumulatorState} {more : List InputRow}
    (htracks : operator.Tracks work groups order rows) (hmem : key ∈ order)
    (hgroup : work.pending key = some group)
    (hpending : work'.pending = update work.pending key (some ⟨group.original, current⟩))
    (horder : work'.pendingOrder = work.pendingOrder)
    (hcurrent : Agrees operator.calls current (operator.groupAfter (groups key) (rows key ++ more)))
    (hkernels : ∀ key' kernels, work'.kernels key' = some kernels →
      if key' = key then ∃ state, current = some state ∧
        RowKernels.Mirror operator.calls kernels state.accumulators
      else work.kernels key' = some kernels) :
    operator.Tracks work' groups order (update rows key (rows key ++ more)) := by
  obtain ⟨group', hgroup', horiginal, -⟩ := htracks.present key hmem
  cases hgroup.symm.trans hgroup'
  refine ⟨horder.trans htracks.pendingOrder, ?_, ?_, ?_⟩
  · intro key' hnot
    have hkey : key' ≠ key := fun heq => hnot (heq ▸ hmem)
    rw [hpending, update_of_ne hkey, update_of_ne hkey]
    exact htracks.absent key' hnot
  · intro key' hin
    rw [hpending]
    by_cases hkey : key' = key
    · subst hkey
      rw [update_self, update_self]
      exact ⟨_, rfl, horiginal, hcurrent⟩
    · rw [update_of_ne hkey, update_of_ne hkey]
      exact htracks.present key' hin
  · intro key' kernels hsome
    have hcase := hkernels key' kernels hsome
    rw [hpending]
    by_cases hkey : key' = key
    · subst hkey
      rw [if_pos rfl] at hcase
      obtain ⟨state, hstate, hmirror⟩ := hcase
      exact ⟨_, state, update_self .., hstate, hmirror⟩
    · rw [if_neg hkey] at hcase
      rw [update_of_ne hkey]
      exact htracks.kernels key' kernels hcase

/-- The states of a SELECT DISTINCT have no accumulators. -/
theorem agrees_count (hcalls : operator.calls = []) (n : Int64) :
    Agrees operator.calls (some ⟨n, []⟩) (some ⟨n, []⟩) := by
  refine ⟨.refl _, ?_, ?_⟩ <;> rw [hcalls] <;> exact .nil

/-- Setting the state of a pending key keeps the keys that are pending. -/
theorem pending_setCurrent (hgroup : work.pending key = some group) (current : AccumulatorState)
    (key' : StateKey) :
    (work.setCurrent key group current).pending key' = none ↔ work.pending key' = none := by
  by_cases hkey : key' = key
  · subst hkey
    simp [MiniWork.setCurrent, hgroup]
  · simp [MiniWork.setCurrent, update_of_ne hkey]

/-- A row that changes nothing. -/
theorem Tracks.ignore (htracks : operator.Tracks work groups order rows) (hmem : key ∈ order)
    (hafter : operator.groupAfter (groups key) (rows key ++ [row]) =
      operator.groupAfter (groups key) (rows key)) :
    operator.Tracks work groups order (update rows key (rows key ++ [row])) := by
  obtain ⟨group, hgroup, -, hcurrent⟩ := htracks.present key hmem
  have hself : work.pending = update work.pending key (some group) := by
    rw [← hgroup, update_eq_self]
  refine htracks.setCurrent hmem hgroup hself rfl (by rw [hafter]; exact hcurrent) ?_
  intro key' kernels hsome
  split
  next hkey =>
    subst hkey
    obtain ⟨group', state, hgroup', hstate, hmirror⟩ := htracks.kernels _ kernels hsome
    cases hgroup.symm.trans hgroup'
    exact ⟨state, hstate, hmirror⟩
  next => exact hsome

/-- The kernels of a SELECT DISTINCT mirror nothing. -/
theorem Tracks.kernels_nil (htracks : operator.Tracks work groups order rows)
    (hnil : operator.calls = []) (count : Int64) (key' : StateKey) (kernels : List _)
    (hsome : work.kernels key' = some kernels) :
    if key' = key then ∃ state, some (⟨count, []⟩ : AccumulatorState) = some state ∧
      RowKernels.Mirror operator.calls kernels state.accumulators
    else work.kernels key' = some kernels := by
  split
  next =>
    obtain ⟨group, state, -, -, hmirror⟩ := htracks.kernels key' kernels hsome
    refine ⟨_, rfl, ?_⟩
    rw [hnil] at hmirror ⊢
    cases kernels with
    | nil => trivial
    | cons _ _ => cases state.accumulators <;> simp [RowKernels.Mirror] at hmirror
  next => exact hsome

/-- The kernels of a group, old or new, mirror its state. -/
theorem Tracks.groupKernels_ok (htracks : operator.Tracks work groups order rows)
    (hplan : operator.Planned schema) (hgroup : work.pending key = some group)
    (htyped : (group.current.getD (.new operator.calls)).Typed operator.calls) :
    ∃ kernels,
      operator.groupKernels work key (group.current.getD (.new operator.calls)) = .ok kernels ∧
      RowKernels.Mirror operator.calls kernels
        (group.current.getD (.new operator.calls)).accumulators := by
  unfold groupKernels
  rcases hcase : work.kernels key with _ | kernels
  · exact rowKernels_new D hplan.admitted htyped
  · obtain ⟨group', state, hgroup', hstate, hmirror⟩ := htracks.kernels _ kernels hcase
    cases hgroup.symm.trans hgroup'
    rw [hstate]
    exact ⟨kernels, rfl, hmirror⟩

/-- A row of a pending key moves its state. -/
theorem rawRow_ok (hplan : operator.Planned schema) (hrow : row.Typed schema)
    (htracks : operator.Tracks work groups order rows) (hmem : row.key ∈ order)
    (hgroup : work.pending row.key = some group) :
    ∃ work', operator.rawRow schema work row group (operator.adds row) = .ok work' ∧
      work'.pendingElements = work.pendingElements ∧ work'.events = work.events ∧
      work'.working = work.working ∧ work'.dirty = work.dirty ∧
      (∀ key, work'.pending key = none ↔ work.pending key = none) ∧
      operator.Tracks work' groups order (update rows row.key (rows row.key ++ [row])) := by
  obtain ⟨group', hgroup', -, hcurrent⟩ := htracks.present row.key hmem
  cases hgroup.symm.trans hgroup'
  have hstep : operator.groupAfter (groups row.key) (rows row.key ++ [row]) =
      operator.rowAfter (operator.groupAfter (groups row.key) (rows row.key)) row := by
    simp [groupAfter]
  generalize hbefore : operator.groupAfter (groups row.key) (rows row.key) = before
    at hcurrent hstep
  have hignore (hafter : operator.rowAfter before row = before) :=
    htracks.ignore hmem (hstep.trans (hafter.trans hbefore.symm))
  have hpending := pending_setCurrent hgroup
  unfold rawRow
  by_cases hempty : operator.calls.isEmpty = true
  · have hnil : operator.calls = [] := isEmpty_iff.mp hempty
    rw [if_pos hempty]
    split
    next hignored =>
      have hafter : operator.rowAfter before row = before := by
        rewrite [rowAfter, if_pos hempty, ← hcurrent.rowCount, hignored]
        rfl
      exact ⟨work, rfl, rfl, rfl, rfl, rfl, fun _ => Iff.rfl, hignore hafter⟩
    next count _ hpresent =>
      have hafter : operator.rowAfter before row = some ⟨count, []⟩ := by
        rewrite [rowAfter, if_pos hempty, ← hcurrent.rowCount, hpresent]
        rfl
      exact ⟨_, rfl, rfl, rfl, rfl, rfl, hpending _, htracks.setCurrent hmem hgroup rfl rfl
        (by rw [hstep, hafter]; exact agrees_count hnil count) (htracks.kernels_nil hnil count)⟩
    next hremoved =>
      have hafter : operator.rowAfter before row = some ⟨0, []⟩ := by
        rewrite [rowAfter, if_pos hempty, ← hcurrent.rowCount, hremoved]
        rfl
      exact ⟨_, rfl, rfl, rfl, rfl, rfl, hpending _, htracks.setCurrent hmem hgroup rfl rfl
        (by rw [hstep, hafter]; exact agrees_count hnil 0) (htracks.kernels_nil hnil 0)⟩
  · rw [if_neg hempty]
    have hafter : operator.rowAfter before row =
        if (operator.adds row || group.current.isSome) = true then
          some ((before.getD (.new operator.calls)).next operator.calls row (operator.adds row))
        else before := by
      rw [rowAfter, if_neg hempty, hcurrent.isSome_eq]
    by_cases happly : (operator.adds row || group.current.isSome) = true
    · rw [if_pos happly] at hafter ⊢
      obtain ⟨hsame, htyped, htyped'⟩ := hcurrent.getD hplan.admitted
      obtain ⟨kernels, hkernels, hmirror⟩ := htracks.groupKernels_ok hplan hgroup htyped
      obtain ⟨kernels', hrun, hmirror'⟩ := rowKernels_apply hrow hplan.admitted
        (hplan.accumulates row) htyped hmirror
      dsimp only
      rw [hkernels, ok_bind, hrun, ok_bind]
      refine ⟨_, rfl, rfl, rfl, rfl, rfl, hpending _, htracks.setCurrent hmem hgroup rfl rfl (by
          rw [hstep, hafter]
          exact ⟨hsame.next hrow hplan.admitted htyped htyped', htyped.next hrow hplan.admitted,
            htyped'.next hrow hplan.admitted⟩) ?_⟩
      intro key' kernels'' hsome
      dsimp only at hsome
      by_cases hkey : key' = row.key
      · subst hkey
        rw [if_pos rfl]
        rw [update_self] at hsome
        cases hsome
        exact ⟨_, rfl, hmirror'⟩
      · rw [if_neg hkey]
        rwa [update_of_ne hkey] at hsome
    · rw [if_neg happly] at hafter ⊢
      exact ⟨work, rfl, rfl, rfl, rfl, rfl, fun _ => Iff.rfl, hignore hafter⟩

end Rows

/-! ## Batches -/

section Batch

variable {size : Nat}

/-- The working copies of a batch, with the rows `tail` in the open bundle. -/
structure Holds (operator : GroupAggregate) (store : Store) (incoming : StateKey → Prop)
    (work : MiniWork D) (groups : Groups) (tail : List InputRow) : Prop where
  consistent : operator.Consistent store incoming work groups
  tracks : operator.Tracks work groups (keysOf InputRow.key tail)
    fun key => rowsOf InputRow.key key tail
  elements : work.pendingElements = tail.length

variable {tail : List InputRow}

/-- A bundle that is full is flushed. -/
theorem flush_of_full (hash : Bytes → UInt32) (work : MiniWork D)
    (h : operator.Consistent store incoming work groups)
    (htracks : operator.Tracks work groups (keysOf InputRow.key tail) fun key =>
      rowsOf InputRow.key key tail)
    (hsettled : ∀ key state, operator.bundleGroups groups tail key = some state →
      state.Settled operator.calls) :
    ∃ work', operator.flushToWorking hash work = .ok work' ∧ work'.kernels = work.kernels ∧
      work'.events = work.events ++ operator.bundleEvents hash groups tail ∧
      operator.Holds store incoming work'.clearKernels (operator.bundleGroups groups tail) [] := by
  obtain ⟨work', hflush, helements, hpending, horder, hkernels, hevents, hconsistent⟩ :=
    flushToWorking_ok hash h htracks hsettled
  refine ⟨work', hflush, hkernels, hevents, hconsistent.congr rfl rfl fun _ => Iff.rfl,
    ⟨horder, ?_, ?_, ?_⟩, helements⟩
  · exact fun key _ => ⟨hpending key, rfl⟩
  · intro key hkey
    cases hkey
  · intro key kernels hsome
    cases hsome

theorem rowsOf_append_singleton (tail : List InputRow) (row : InputRow) :
    (fun key => rowsOf InputRow.key key (tail ++ [row])) =
      update (fun key => rowsOf InputRow.key key tail) row.key
        (rowsOf InputRow.key row.key tail ++ [row]) := by
  funext key
  rw [rowsOf_append]
  by_cases hkey : key = row.key
  · subst hkey
    simp [rowsOf]
  · rw [update_of_ne hkey]
    simp [rowsOf, Ne.symm hkey]

/-- A row is added to the bundle, which is flushed when it is full. -/
theorem miniRow_ok (hash : Bytes → UInt32) (hplan : operator.Planned schema)
    (hrow : row.Admissible schema)
    (h : operator.Holds store incoming work groups tail) (hincoming : incoming row.key)
    (htail : tail.length < size) (hsettled : operator.SettledFeed size groups tail [row]) :
    ∃ work', operator.miniRow schema hash size work (row, none) = .ok work' ∧
      work'.events = work.events ++ (operator.feed hash size groups tail [row]).2 ∧
      operator.Holds store incoming work' (operator.feed hash size groups tail [row]).1.1
        (operator.feed hash size groups tail [row]).1.2 := by
  obtain ⟨work₁, hstage, helements₁, hevents₁, -, hconsistent₁, htracks₁⟩ := stageGroup_ok
    "every incoming key was prefetched or flushed" h.consistent h.tracks hincoming
  rw [← keysOf_append_singleton] at htracks₁
  have hmem : row.key ∈ keysOf InputRow.key (tail ++ [row]) := mem_keysOf.mpr ⟨row, by simp, rfl⟩
  obtain ⟨group, hgroup, -⟩ := htracks₁.present row.key hmem
  obtain ⟨work₂, hraw, helements₂, hevents₂, hworking₂, hdirty₂, hpending₂, htracks₂⟩ :=
    rawRow_ok hplan hrow.typed htracks₁ hmem hgroup
  rw [← rowsOf_append_singleton] at htracks₂
  have hconsistent₂ := hconsistent₁.congr hworking₂ hdirty₂ hpending₂
  have helements : work₂.pendingElements + 1 = (tail ++ [row]).length := by
    rw [helements₂, helements₁, h.elements]
    simp
  have hevents : work₂.events = work.events := hevents₂.trans hevents₁
  rw [feed_chunk htail (by simpa using htail)]
  rw [miniRow, hstage, ok_bind]
  dsimp only
  rw [hgroup]
  dsimp only
  rw [accumulates_eq operator hrow.change, ok_bind, hraw, ok_bind, helements]
  by_cases hfull : (tail ++ [row]).length = size
  · rw [if_pos hfull, if_pos hfull]
    obtain ⟨work₃, hflush, -, hevents₃, hholds⟩ := flush_of_full hash
      { work₂ with pendingElements := (tail ++ [row]).length }
      (hconsistent₂.congr rfl rfl fun _ => Iff.rfl) (htracks₂.congr rfl rfl rfl)
      (settledFeed_chunk htail (by simpa using htail) hsettled hfull)
    refine ⟨work₃.clearKernels, ?_, ?_, hholds⟩
    · rw [hflush]
      rfl
    · show work₃.events = _
      rw [hevents₃]
      exact congrArg (· ++ _) hevents
  · rw [if_neg hfull, if_neg hfull]
    exact ⟨_, rfl, by simp [hevents], hconsistent₂.congr rfl rfl fun _ => Iff.rfl,
      htracks₂.congr rfl rfl rfl, rfl⟩

/-- Rows are added one after the other. -/
theorem foldlM_miniRow_ok (hash : Bytes → UInt32) (hplan : operator.Planned schema)
    (hrows : ∀ row ∈ rows, row.Admissible schema) (hincoming : ∀ row ∈ rows, incoming row.key)
    (h : operator.Holds store incoming work groups tail) (htail : tail.length < size)
    (hsettled : operator.SettledFeed size groups tail rows) :
    ∃ work', (rows.map fun row => ((row, none) : MiniInput)).foldlM
        (operator.miniRow schema hash size) work = .ok work' ∧
      work'.events = work.events ++ (operator.feed hash size groups tail rows).2 ∧
      operator.Holds store incoming work' (operator.feed hash size groups tail rows).1.1
        (operator.feed hash size groups tail rows).1.2 := by
  induction rows generalizing work groups tail with
  | nil => exact ⟨work, rfl, by simp [feed], h⟩
  | cons row rows ih =>
    obtain ⟨hrow, hrest⟩ := forall_mem_cons.mp hrows
    obtain ⟨hin, hins⟩ := forall_mem_cons.mp hincoming
    have hcons : row :: rows = [row] ++ rows := rfl
    rw [hcons, settledFeed_append hash] at hsettled
    obtain ⟨work₁, hstep, hevents₁, hholds₁⟩ := miniRow_ok hash hplan hrow h hin htail hsettled.1
    obtain ⟨work₂, hsteps, hevents₂, hholds₂⟩ :=
      ih hrest hins hholds₁ (length_feed htail) hsettled.2
    refine ⟨work₂, ?_, ?_, ?_⟩
    · rw [map_cons, foldlM_cons, hstep]
      exact hsteps
    · rw [hevents₂, hevents₁, hcons, feed_append, append_assoc]
    · rw [hcons, feed_append]
      exact hholds₂

/-! ### Insertions only -/

theorem afterRun_same (hcalls : ∀ call ∈ calls, Admitted schema call)
    (hrows : ∀ row ∈ rows, row.Typed schema) {s t : AccumulatorState}
    (hs : s.Typed calls) (ht : t.Typed calls) (h : s.Same t) :
    (s.afterRun calls rows).Same (t.afterRun calls rows) := by
  induction rows generalizing s t with
  | nil => exact h
  | cons row rows ih =>
    obtain ⟨hrow, hrest⟩ := forall_mem_cons.mp hrows
    exact ih hrest (hs.next hrow hcalls) (ht.next hrow hcalls) (h.next hrow hcalls hs ht)

/-- A group after rows that all add to it. -/
theorem groupAfter_run (hcalls : operator.calls.isEmpty = false)
    (hadds : ∀ row ∈ rows, operator.adds row = true) (hne : rows ≠ [])
    (state : Option AccumulatorState) :
    operator.groupAfter state rows =
      some ((state.getD (.new operator.calls)).afterRun operator.calls rows) := by
  induction rows generalizing state with
  | nil => exact absurd rfl hne
  | cons row rows ih =>
    obtain ⟨hrow, hrest⟩ := forall_mem_cons.mp hadds
    have hstep : operator.rowAfter state row =
        some ((state.getD (.new operator.calls)).next operator.calls row true) := by
      simp [rowAfter, hcalls, hrow]
    rw [groupAfter, foldl_cons, hstep]
    by_cases hnil : rows = []
    · subst hnil
      rfl
    · exact ih hrest hnil _

variable {rows : StateKey → List InputRow}

/-- A row that only adds, with its position in the batch. -/
structure Insertion (operator : GroupAggregate) (schema : Schema)
    (entry : InputRow × Nat) : Prop where
  typed : entry.1.Typed schema
  index : entry.2 < 2 ^ 32
  adds : operator.adds entry.1 = true

variable {chunk : List (InputRow × Nat)}

/-- The rows of a key in a chunk move its state at once. -/
theorem appendGroup_ok (hplan : operator.Planned schema) (hcalls : operator.calls.isEmpty = false)
    (hinserts : ∀ entry ∈ chunk, operator.Insertion schema entry)
    (hkey : key ∈ keysOf (fun entry : InputRow × Nat => entry.1.key) chunk) (hmem : key ∈ order)
    (hkernels : work.kernels = fun _ => none) (htracks : operator.Tracks work groups order rows) :
    ∃ work', operator.appendGroup schema chunk work key = .ok work' ∧
      work'.pendingElements = work.pendingElements ∧ work'.events = work.events ∧
      work'.working = work.working ∧ work'.dirty = work.dirty ∧
      work'.kernels = (fun _ => none) ∧
      (∀ key, work'.pending key = none ↔ work.pending key = none) ∧
      operator.Tracks work' groups order (update rows key
        (rows key ++ rowsOf InputRow.key key (chunk.map Prod.fst))) := by
  obtain ⟨group, hgroup, -, hcurrent⟩ := htracks.present key hmem
  have hsub : ∀ entry ∈ rowsOf (fun entry : InputRow × Nat => entry.1.key) key chunk,
      entry ∈ chunk := fun entry hentry => (mem_rowsOf.mp hentry).1
  have hmap : (rowsOf (fun entry : InputRow × Nat => entry.1.key) key chunk).map Prod.fst =
      rowsOf InputRow.key key (chunk.map Prod.fst) := by
    simp [rowsOf, filter_map, comp_def]
  have htypedRows : ∀ row ∈ rowsOf InputRow.key key (chunk.map Prod.fst), row.Typed schema := by
    intro row hrow
    obtain ⟨entry, hentry, rfl⟩ := mem_map.mp (mem_rowsOf.mp hrow).1
    exact (hinserts entry hentry).typed
  have haddsRows : ∀ row ∈ rowsOf InputRow.key key (chunk.map Prod.fst),
      operator.adds row = true := by
    intro row hrow
    obtain ⟨entry, hentry, rfl⟩ := mem_map.mp (mem_rowsOf.mp hrow).1
    exact (hinserts entry hentry).adds
  have hne : rowsOf InputRow.key key (chunk.map Prod.fst) ≠ [] := by
    obtain ⟨entry, hentry, hentryKey⟩ := mem_keysOf.mp hkey
    exact ne_nil_of_mem (mem_rowsOf.mpr ⟨mem_map_of_mem hentry, hentryKey⟩)
  obtain ⟨hsame, htyped, htyped'⟩ := hcurrent.getD hplan.admitted
  have happend := applyAppendBatch_eq D hplan.admitted
    (fun entry hentry => (hinserts entry (hsub entry hentry)).typed)
    (fun entry hentry => (hinserts entry (hsub entry hentry)).index) htyped
  rw [hmap] at happend
  rw [appendGroup, hgroup]
  dsimp only
  rw [happend, ok_bind]
  refine ⟨_, rfl, rfl, rfl, rfl, rfl, hkernels, ?_, htracks.setCurrent hmem hgroup rfl rfl ?_ ?_⟩
  · intro key'
    by_cases hkey' : key' = key
    · subst hkey'
      simp [MiniWork.setCurrent, hgroup]
    · simp [MiniWork.setCurrent, update_of_ne hkey']
  · have hafter : operator.groupAfter (groups key)
        (rows key ++ rowsOf InputRow.key key (chunk.map Prod.fst)) =
        operator.groupAfter (operator.groupAfter (groups key) (rows key))
          (rowsOf InputRow.key key (chunk.map Prod.fst)) := foldl_append ..
    rw [hafter, groupAfter_run hcalls haddsRows hne]
    exact ⟨afterRun_same hplan.admitted htypedRows htyped htyped' hsame,
      htyped.afterRun hplan.admitted htypedRows, htyped'.afterRun hplan.admitted htypedRows⟩
  · intro key' kernels hsome
    change work.kernels key' = some kernels at hsome
    rw [hkernels] at hsome
    cases hsome

/-- The groups of a chunk become pending. -/
theorem foldlM_stageGroup_ok (message : String) (h : operator.Consistent store incoming work groups)
    (htracks : operator.Tracks work groups (keysOf InputRow.key tail) rows)
    (hincoming : ∀ entry ∈ chunk, incoming entry.1.key) :
    ∃ work', chunk.foldlM (fun work entry => stageGroup message work entry.1.key) work = .ok work' ∧
      work'.pendingElements = work.pendingElements ∧ work'.events = work.events ∧
      work'.kernels = work.kernels ∧ operator.Consistent store incoming work' groups ∧
      operator.Tracks work' groups (keysOf InputRow.key (tail ++ chunk.map Prod.fst)) rows := by
  induction chunk generalizing work tail with
  | nil => exact ⟨work, rfl, rfl, rfl, rfl, h, by simpa using htracks⟩
  | cons entry chunk ih =>
    obtain ⟨hin, hins⟩ := forall_mem_cons.mp hincoming
    obtain ⟨work₁, hstep, helements₁, hevents₁, hkernels₁, hconsistent₁, htracks₁⟩ :=
      stageGroup_ok message h htracks hin
    rw [← keysOf_append_singleton] at htracks₁
    obtain ⟨work₂, hsteps, helements₂, hevents₂, hkernels₂, hconsistent₂, htracks₂⟩ :=
      ih hconsistent₁ htracks₁ hins
    refine ⟨work₂, by rw [foldlM_cons, hstep]; exact hsteps, helements₂.trans helements₁,
      hevents₂.trans hevents₁, hkernels₂.trans hkernels₁, hconsistent₂, ?_⟩
    simpa using htracks₂

theorem foldlM_appendGroup_ok (hplan : operator.Planned schema)
    (hcalls : operator.calls.isEmpty = false)
    (hinserts : ∀ entry ∈ chunk, operator.Insertion schema entry)
    (hnodup : keys.Nodup)
    (hkeys : ∀ key ∈ keys, key ∈ keysOf (fun entry : InputRow × Nat => entry.1.key) chunk)
    (hmem : ∀ key ∈ keys, key ∈ order)
    (hkernels : work.kernels = fun _ => none)
    (h : operator.Consistent store incoming work groups)
    (htracks : operator.Tracks work groups order rows) :
    ∃ work', keys.foldlM (operator.appendGroup schema chunk) work = .ok work' ∧
      work'.pendingElements = work.pendingElements ∧ work'.events = work.events ∧
      work'.kernels = (fun _ => none) ∧ operator.Consistent store incoming work' groups ∧
      operator.Tracks work' groups order (fun key => if key ∈ keys then
        rows key ++ rowsOf InputRow.key key (chunk.map Prod.fst) else rows key) := by
  induction keys generalizing work rows with
  | nil => exact ⟨work, rfl, rfl, rfl, hkernels, h, by simpa using htracks⟩
  | cons key keys ih =>
    obtain ⟨hkey, hnodup⟩ := nodup_cons.mp hnodup
    obtain ⟨hin, hins⟩ := forall_mem_cons.mp hkeys
    obtain ⟨hord, hords⟩ := forall_mem_cons.mp hmem
    obtain ⟨work₁, hstep, helements₁, hevents₁, hworking₁, hdirty₁, hkernels₁,
        hpending₁, htracks₁⟩ :=
      appendGroup_ok hplan hcalls hinserts hin hord hkernels htracks
    obtain ⟨work₂, hsteps, helements₂, hevents₂, hkernels₂, hconsistent₂, htracks₂⟩ :=
      ih hnodup hins hords hkernels₁ (h.congr hworking₁ hdirty₁ hpending₁) htracks₁
    refine ⟨work₂, by rw [foldlM_cons, hstep]; exact hsteps, helements₂.trans helements₁,
      hevents₂.trans hevents₁, hkernels₂, hconsistent₂, ?_⟩
    convert htracks₂ using 2 with key'
    by_cases hkey' : key' = key
    · subst hkey'
      simp [hkey]
    · simp [hkey']

section

variable (hash : Bytes → UInt32) (hplan : operator.Planned schema)
    (hcalls : operator.calls.isEmpty = false)
include hash hplan hcalls

/-- A chunk of insertions is added at once. -/
theorem appendChunk_ok (hinserts : ∀ entry ∈ chunk, operator.Insertion schema entry)
    (hincoming : ∀ entry ∈ chunk, incoming entry.1.key) (hkernels : work.kernels = fun _ => none)
    (h : operator.Holds store incoming work groups tail) (htail : tail.length < size)
    (hchunk : tail.length + chunk.length ≤ size)
    (hsettled : operator.SettledFeed size groups tail (chunk.map Prod.fst)) :
    ∃ work', operator.appendChunk schema hash size work chunk = .ok work' ∧
      work'.kernels = (fun _ => none) ∧
      work'.events = work.events ++ (operator.feed hash size groups tail (chunk.map Prod.fst)).2 ∧
      operator.Holds store incoming work'
        (operator.feed hash size groups tail (chunk.map Prod.fst)).1.1
        (operator.feed hash size groups tail (chunk.map Prod.fst)).1.2 := by
  have hkeys : ∀ key, key ∈ keysOf (fun entry : InputRow × Nat => entry.1.key) chunk ↔
      key ∈ keysOf InputRow.key (chunk.map Prod.fst) := by
    intro key
    simp [mem_keysOf]
  obtain ⟨work₁, hstage, helements₁, hevents₁, hkernels₁, hconsistent₁, htracks₁⟩ :=
    foldlM_stageGroup_ok "incoming state was prefetched" h.consistent h.tracks hincoming
  obtain ⟨work₂, happend, helements₂, hevents₂, hkernels₂, hconsistent₂, htracks₂⟩ :=
    foldlM_appendGroup_ok hplan hcalls hinserts
      (nodup_keysOf (fun entry : InputRow × Nat => entry.1.key) chunk) (fun _ hkey => hkey)
      (fun key hkey => by
        obtain ⟨row, hrow, hrowKey⟩ := mem_keysOf.mp ((hkeys key).mp hkey)
        exact mem_keysOf.mpr ⟨row, mem_append_right _ hrow, hrowKey⟩)
      (hkernels₁.trans hkernels) hconsistent₁ htracks₁
  have hrowsEq : (fun key => if key ∈ keysOf (fun entry : InputRow × Nat => entry.1.key) chunk then
      rowsOf InputRow.key key tail ++ rowsOf InputRow.key key (chunk.map Prod.fst)
      else rowsOf InputRow.key key tail) =
      fun key => rowsOf InputRow.key key (tail ++ chunk.map Prod.fst) := by
    funext key
    rw [rowsOf_append]
    split
    · rfl
    next hnot => rw [rowsOf_eq_nil fun hin => hnot ((hkeys key).mpr hin), append_nil]
  rw [hrowsEq] at htracks₂
  have helements : work₂.pendingElements + chunk.length = (tail ++ chunk.map Prod.fst).length := by
    rw [helements₂, helements₁, h.elements]
    simp
  have hevents : work₂.events = work.events := hevents₂.trans hevents₁
  have hchunk' : tail.length + (chunk.map Prod.fst).length ≤ size := by simpa using hchunk
  rw [feed_chunk htail hchunk']
  rw [appendChunk, hstage, ok_bind, happend, ok_bind]
  rw [helements]
  by_cases hfull : (tail ++ chunk.map Prod.fst).length = size
  · rw [if_pos hfull, if_pos hfull]
    obtain ⟨work₃, hflush, hkernels₃, hevents₃, hholds⟩ := flush_of_full hash
      { work₂ with pendingElements := (tail ++ chunk.map Prod.fst).length }
      (hconsistent₂.congr rfl rfl fun _ => Iff.rfl) (htracks₂.congr rfl rfl rfl)
      (settledFeed_chunk htail hchunk' hsettled hfull)
    have hnone : work₃.kernels = fun _ => none := hkernels₃.trans hkernels₂
    have hclear : work₃.clearKernels = work₃ := by
      rw [MiniWork.clearKernels, ← hnone]
    rw [hclear] at hholds
    refine ⟨work₃, hflush, hnone, ?_, hholds⟩
    rw [hevents₃]
    exact congrArg (· ++ _) hevents
  · rw [if_neg hfull, if_neg hfull]
    exact ⟨_, rfl, hkernels₂, by simp [hevents], hconsistent₂.congr rfl rfl fun _ => Iff.rfl,
      htracks₂.congr rfl rfl rfl, rfl⟩

/-- A batch of insertions is added chunk by chunk. -/
theorem appendLoop_ok (rounds : Nat) (inputs : List (InputRow × Nat))
    (hrounds : inputs.length ≤ rounds)
    (hinserts : ∀ entry ∈ inputs, operator.Insertion schema entry)
    (hincoming : ∀ entry ∈ inputs, incoming entry.1.key)
    (hkernels : work.kernels = fun _ => none) (h : operator.Holds store incoming work groups tail)
    (htail : tail.length < size) (hsettled :
      operator.SettledFeed size groups tail (inputs.map Prod.fst)) :
    ∃ work', operator.appendLoop schema hash size rounds work inputs = .ok work' ∧
      work'.events = work.events ++ (operator.feed hash size groups tail (inputs.map Prod.fst)).2 ∧
      operator.Holds store incoming work'
        (operator.feed hash size groups tail (inputs.map Prod.fst)).1.1
        (operator.feed hash size groups tail (inputs.map Prod.fst)).1.2 := by
  induction rounds generalizing inputs work groups tail with
  | zero =>
    have hnil : inputs = [] := eq_nil_of_length_eq_zero (by omega)
    subst hnil
    exact ⟨work, rfl, by simp [feed], h⟩
  | succ rounds ih =>
    rcases hinputs : inputs with _ | ⟨entry, rest⟩
    · exact ⟨work, rfl, by simp [feed], h⟩
    · rw [appendLoop]
      rw [← hinputs, h.elements]
      generalize hlength : size - tail.length = length
      have hsplit : inputs.map Prod.fst =
          (inputs.take length).map Prod.fst ++ (inputs.drop length).map Prod.fst := by
        rw [← map_append, take_append_drop]
      have htake : ∀ entry ∈ inputs.take length, entry ∈ inputs :=
        fun _ => mem_of_mem_take
      have hdrop : ∀ entry ∈ inputs.drop length, entry ∈ inputs :=
        fun _ => mem_of_mem_drop
      rw [hsplit, settledFeed_append hash] at hsettled
      obtain ⟨work₁, hstep, hkernels₁, hevents₁, hholds₁⟩ := appendChunk_ok hash hplan hcalls
        (fun entry hentry => hinserts entry (htake entry hentry))
        (fun entry hentry => hincoming entry (htake entry hentry)) hkernels h htail
        (by rw [length_take]; omega) hsettled.1
      have hshorter : (inputs.drop length).length ≤ rounds := by
        have := congrArg List.length hinputs
        rw [length_cons] at this
        rw [length_drop]
        omega
      obtain ⟨work₂, hsteps, hevents₂, hholds₂⟩ := ih (inputs.drop length) hshorter
        (fun entry hentry => hinserts entry (hdrop entry hentry))
        (fun entry hentry => hincoming entry (hdrop entry hentry)) hkernels₁ hholds₁
        (length_feed htail) hsettled.2
      refine ⟨work₂, by rw [hstep]; exact hsteps, ?_, ?_⟩
      · rw [hevents₂, hevents₁, hsplit, feed_append, append_assoc]
      · rw [hsplit, feed_append]
        exact hholds₂

end

end Batch

end GroupAggregate

end StreamFusion.Aggregate
