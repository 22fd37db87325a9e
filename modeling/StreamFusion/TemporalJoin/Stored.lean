import StreamFusion.TemporalJoin.Batches

/-!
# The temporal join on stored states

The operator of the source keeps no state of a key in memory: a batch and the timers that fire load
the states they need from the store, and write them back (`storedStep`).  Between two calls there
are only the store, the timers and the clocks.

As long as the format can hold the states (`Fitting`), the stored operator does what the operator on
states in place does (`storedRun_ok`), and so emits what is expected on event time
(`event_time_temporal_join`).  A key with `2 ^ 32` waiting rows cannot be written any more
(`crowded_key_refused`).
-/

namespace StreamFusion.TemporalJoin

open State Wire NativeTimerService Keyed Grouped Operator List Function Except

/-! ## Timers fire on copies -/

namespace Operator

variable {ρ : Type} (plan : Plan) (op : Operator ρ)

/-- A timer concerns its own key. -/
theorem fireTimer_patch (progress : Int) (timer : TimerKey TimerSpace)
    (g : StateKey → TemporalState ρ) :
    (op.patch timer.key g).fireTimer plan progress timer =
      ((op.fireTimer plan progress timer).1.patch timer.key g,
          (op.fireTimer plan progress timer).2) := by
  unfold fireTimer
  rw [states_patch]
  cases timer.space with
  | event =>
    dsimp only
    split_ifs with hmatch
    · rw [setState_patch]
      split
      · rw [registerEventTimer_patch]
      · rfl
    · rfl
  | cleanup =>
    dsimp only
    split_ifs with hmatch
    · rw [setState_patch]
      split <;> rfl
    · rfl

end Operator

/-- Timers that fire, over the stored states.  Their number is not limited. -/
def fireOperator (plan : Plan) (progress : Int) :
    CopyOperator (Operator Bytes) (TimerKey TimerSpace) (OutputRow Bytes) (OutputRow Bytes)
      (TemporalState Bytes) where
  key := TimerKey.key
  states := Operator.states
  withStates op g := { op with states := g }
  change timer _ op := op.fireTimer plan progress timer
  content := id
  states_withStates := Operator.states_withStates
  withStates_states := Operator.withStates_states
  withStates_withStates := Operator.withStates_withStates
  change_local timer _ op g := fireTimer_patch plan op progress timer g
  change_position _ _ _ _ := ⟨rfl, rfl⟩
  load := loadState
  save := saveState
  advance := id
  tooLong := invalid
  advance_withStates _ _ := rfl
  advance_advance _ := rfl
  advance_change _ _ _ _ := rfl

theorem fireOperator_run (plan : Plan) (progress : Int) (first : Nat)
    (timers : List (TimerKey TimerSpace)) (op : Operator Bytes) :
    (fireOperator plan progress).run first timers op = fireTimers plan progress timers op := by
  induction timers generalizing first op with
  | nil => rfl
  | cons timer timers ih =>
    rw [KeyedChange.run_cons, ih, fireTimers]
    rfl

theorem batchOperator_run (plan : Plan) (side : Side) (processingTime : Int) (first : Nat)
    (rows : List (InputRow Bytes)) (op : Operator Bytes) :
    (batchOperator plan side processingTime).run first rows op =
        processRows plan side first rows op := by
  induction rows generalizing first op with
  | nil => rfl
  | cons row rows ih =>
    rw [KeyedChange.run_cons, ih, processRows]
    rfl

/-- A batch on states in place. -/
theorem Operator.step_rows (plan : Plan) (op : Operator Bytes) (side : Side) (clock : Int)
    {rows : List (InputRow Bytes)} (hlength : rows.length ≤ 2 ^ 31) :
    op.step plan (.rows side rows clock) = ((batchOperator plan side clock).run 0 rows
        (op.advanceClock clock)).1.writeStates (rows.map InputRow.key) ∧
      op.emits plan (.rows side rows clock) =
        ((batchOperator plan side clock).run 0 rows (op.advanceClock clock)).2 := by
  have harrow : Operator.processArrow plan side rows clock op =
      (.ok (processRows plan side 0 rows (op.advanceClock clock)).2,
        (processRows plan side 0 rows (op.advanceClock clock)).1.writeStates
          (rows.map InputRow.key)) := if_pos hlength
  rw [batchOperator_run]
  exact ⟨congrArg Prod.snd harrow, congrArg emitted (congrArg Prod.fst harrow)⟩

/-! ## The stored operator -/

/-- The rows of an output are numbered by 32-bit numbers. -/
def outputBatch (rows : List (OutputRow Bytes)) : Except StateError (List (OutputRow Bytes)) :=
  if rows.length ≤ 2 ^ 32 then .ok rows
  else .error (.execution "temporal join output exceeds u32 rows")

/-- What a call leaves and emits. -/
abbrev Called := Except StateError ((Store × Operator Bytes) × List (OutputRow Bytes))

/-- Fires the due timers against the store. -/
def fireStored (plan : Plan) (domain : TimerDomain) (progress : Int) (store : Store)
    (op : Operator Bytes) : Called := do
  let (fired, timers) := op.timers.advance domain progress
  let (final, output) ← (fireOperator plan progress).processRows store { op with timers := timers }
    (groupByKey fired)
  .ok (final, ← outputBatch output)

/-- A call of the operator.  The states are in the store. -/
def storedStep (plan : Plan) (store : Store) (op : Operator Bytes) : Event Bytes → Called
  | .rows side rows processingTime => do
    let (final, output) ← (batchOperator plan side processingTime).process store op rows
    .ok (final, ← outputBatch output)
  | .eventTime watermark =>
    if watermark ≤ op.currentEventTime then .ok ((store, op), [])
    else fireStored plan .eventTime watermark store { op with currentEventTime := watermark }
  | .processingTime timestamp =>
    if timestamp ≤ op.currentProcessingTime then .ok ((store, op), [])
    else fireStored plan .processingTime timestamp store
      { op with currentProcessingTime := timestamp }

/-- The calls of a run on an empty store, with the output of each of them. -/
def storedRun (plan : Plan) (events : List (Event Bytes)) :
    Except StateError ((Store × Operator Bytes) × List (List (OutputRow Bytes))) :=
  events.foldlM (fun (s : (Store × Operator Bytes) × List (List (OutputRow Bytes))) event => do
    let (called, output) ← storedStep plan s.1.1 s.1.2 event
    .ok (called, s.2 ++ [output])) (({}, {}), [])

theorem storedRun_concat (plan : Plan) (events : List (Event Bytes)) (event : Event Bytes) :
    storedRun plan (events ++ [event]) = (do
      let s ← storedRun plan events
      let (called, output) ← storedStep plan s.1.1 s.1.2 event
      .ok (called, s.2 ++ [output])) := by
  unfold storedRun
  rw [foldlM_append]
  refine congrArg _ (funext fun s => ?_)
  rw [foldlM_cons]
  simp only [foldlM_nil, bind_pure]

/-! ## States in the store -/

/-- The store holds the states of an operator. -/
def Stored (store : Store) (op : Operator Bytes) : Prop :=
  ∀ key, loadState (store.get key) = .ok (op.states key)

/-- The operator without its states. -/
def Operator.bare (op : Operator Bytes) : Operator Bytes := { op with states := fun _ => {} }

variable {plan : Plan} {op : Operator Bytes} {store : Store} {key : StateKey}

/-- A state is saved as it is, an empty one as a new one. -/
theorem saveState_written {keys : List StateKey} (hkey : key ∈ keys)
    (h : Formed plan 0 ((op.writeStates keys).states key)) :
    ∃ bytes, saveState (op.states key) = .ok bytes ∧
      loadState bytes = .ok ((op.writeStates keys).states key) := by
  unfold writeStates at h ⊢
  dsimp only at h ⊢
  unfold saveState
  by_cases hempty : stateIsEmpty (op.states key) = true
  · rw [if_pos hempty, if_pos ⟨hkey, hempty⟩]
    exact ⟨none, rfl, rfl⟩
  · have hkept : ¬ (key ∈ keys ∧ stateIsEmpty (op.states key) = true) := fun hboth => hempty hboth.2
    rw [if_neg hkept] at h ⊢
    rw [if_neg hempty, encodeState_ok h]
    exact ⟨_, rfl, decodeState_encoded h⟩

section

variable {R E C : Type}
    {c : CopyOperator (Operator Bytes) R E C (TemporalState Bytes)} {rows : List R}

/-- Rows or timers on the states of a store. -/
theorem Stored.processRows (hstates : c.states = Operator.states) (hload : c.load = loadState)
    (hsave : c.save = saveState) (hstored : Stored store op)
    (hformed : ∀ key, Formed plan 0 (((c.run 0 rows op).1.writeStates (rows.map c.key)).states key))
    (g : StateKey → TemporalState Bytes) :
    ∃ store', c.processRows store (c.withStates op g) rows =
        .ok ((store', c.withStates (c.run 0 rows op).1 g), (c.run 0 rows op).2) ∧
      Stored store' ((c.run 0 rows op).1.writeStates (rows.map c.key)) := by
  have hmem : ∀ {key}, key ∈ keysOf c.key rows ↔ key ∈ rows.map c.key := by
    intro key
    rw [mem_keysOf, mem_map]
  have hsaved : ∀ key, ∃ bytes, key ∈ rows.map c.key →
      saveState ((c.run 0 rows op).1.states key) = .ok bytes ∧
        loadState bytes = .ok (((c.run 0 rows op).1.writeStates (rows.map c.key)).states key) := by
    intro key
    by_cases hkey : key ∈ rows.map c.key
    · obtain ⟨bytes, hbytes⟩ := saveState_written hkey (hformed key)
      exact ⟨bytes, fun _ => hbytes⟩
    · exact ⟨none, fun h => absurd h hkey⟩
  choose bytes hbytes using hsaved
  refine ⟨_, CopyOperator.processRows_saved (by rw [hload, hstates]; exact hstored)
    (by rw [hsave, hstates]; exact fun key hkey => (hbytes key (hmem.mp hkey)).1) g, fun key => ?_⟩
  rw [Store.get_writeBatch_map]
  by_cases hkey : key ∈ rows.map c.key
  · rw [if_pos (hmem.mpr hkey)]
    exact (hbytes key hkey).2
  · have hsame := c.states_run_of_notMem 0 rows op hkey
    rw [hstates] at hsame
    rw [if_neg (hmem.not.mpr hkey), hstored key, writeStates]
    dsimp only
    rw [if_neg fun hboth => hkey hboth.1, hsame]

end

theorem Stored.of_states {op' : Operator Bytes} (h : Stored store op)
    (hstates : op'.states = op.states) :
    Stored store op' := by
  unfold Stored
  rw [hstates]
  exact h

theorem outputBatch_ok {rows : List (OutputRow Bytes)} (h : rows.length ≤ 2 ^ 32) :
    outputBatch rows = .ok rows := if_pos h

theorem writeStates_congr (op : Operator Bytes) {keys keys' : List StateKey}
    (h : ∀ key, key ∈ keys ↔ key ∈ keys') : op.writeStates keys = op.writeStates keys' := by
  unfold writeStates
  simp only [h]

/-- Timers fire on stored states as on states in place. -/
theorem Stored.fire {domain : TimerDomain} {progress : Int} (hstored : Stored store op)
    (hformed : ∀ key, Formed plan 0 ((op.fire plan domain progress).1.states key))
    (houtput : (op.fire plan domain progress).2.length ≤ 2 ^ 32) :
    ∃ store', fireStored plan domain progress store op.bare =
        .ok ((store', (op.fire plan domain progress).1.bare), (op.fire plan domain progress).2) ∧
      Stored store' (op.fire plan domain progress).1 := by
  obtain ⟨timed, htimed⟩ : ∃ timed : Operator Bytes,
    { op with timers := (op.timers.advance domain progress).2 } = timed := ⟨_, rfl⟩
  have hfire : op.fire plan domain progress =
      (((fireOperator plan progress).run 0 (groupByKey (op.timers.advance domain progress).1)
          timed).1.writeStates
            ((groupByKey (op.timers.advance domain progress).1).map TimerKey.key),
        ((fireOperator plan progress).run 0 (groupByKey (op.timers.advance domain progress).1)
          timed).2) := by
    have hkeys : ∀ key, key ∈ (groupByKey (op.timers.advance domain progress).1).map TimerKey.key ↔
        key ∈ (op.timers.advance domain progress).1.map TimerKey.key := by
      simp only [mem_map, mem_groupByKey, implies_true]
    rw [fireOperator_run, writeStates_congr _ hkeys, ← htimed]
    rfl
  rw [hfire] at hformed houtput ⊢
  obtain ⟨store', hprocess, hfinal⟩ :=
    Stored.processRows (c := fireOperator plan progress) rfl rfl rfl
    (show Stored store timed from hstored.of_states (by rw [← htimed])) hformed fun _ => {}
  refine ⟨store', ?_, hfinal⟩
  have hbare : fireStored plan domain progress store op.bare =
      ((fireOperator plan progress).processRows store
        ((fireOperator plan progress).withStates timed fun _ => {})
        (groupByKey (op.timers.advance domain progress).1) >>= fun called => do
          .ok (called.1, ← outputBatch called.2)) := by
    rw [← htimed]
    rfl
  rw [hbare, hprocess, ok_bind, outputBatch_ok houtput, ok_bind]
  rfl

section

variable {event : Event Bytes}

/-- A clock that does not move. -/
theorem Stored.idle (hstored : Stored store op)
    (hcall : storedStep plan store op.bare event = .ok ((store, op.bare), []))
    (hstep : op.step plan event = op) (hemits : op.emits plan event = []) :
    ∃ store', storedStep plan store op.bare event =
        .ok ((store', (op.step plan event).bare), op.emits plan event) ∧
      Stored store' (op.step plan event) := by
  rw [hstep, hemits]
  exact ⟨store, hcall, hstored⟩

/-- A clock that moves. -/
theorem Stored.advance {domain : TimerDomain} {progress : Int}
    (hstored : Stored store op) (moved : Operator Bytes) (hstates : moved.states = op.states)
    (hcall : storedStep plan store op.bare event = fireStored plan domain progress store moved.bare)
    (hstep : op.step plan event = (moved.fire plan domain progress).1)
    (hemits : op.emits plan event = (moved.fire plan domain progress).2)
    (hformed : ∀ key, Formed plan 0 ((op.step plan event).states key))
    (houtput : (op.emits plan event).length ≤ 2 ^ 32) :
    ∃ store', storedStep plan store op.bare event =
        .ok ((store', (op.step plan event).bare), op.emits plan event) ∧
      Stored store' (op.step plan event) := by
  rw [hstep] at hformed ⊢
  rw [hemits] at houtput ⊢
  rw [hcall]
  exact (hstored.of_states hstates).fire hformed houtput

/-- **A call.**  On stored states a call does what it does on states in place. -/
theorem Stored.step (hstored : Stored store op)
    (hlength : ∀ side rows clock, event = .rows side rows clock → rows.length ≤ 2 ^ 31)
    (hformed : ∀ key, Formed plan 0 ((op.step plan event).states key))
    (houtput : (op.emits plan event).length ≤ 2 ^ 32) :
    ∃ store', storedStep plan store op.bare event =
        .ok ((store', (op.step plan event).bare), op.emits plan event) ∧
      Stored store' (op.step plan event) := by
  cases event with
  | rows side rows clock =>
    have hshort := hlength side rows clock rfl
    obtain ⟨hstep, hemits⟩ := op.step_rows plan side clock hshort
    rw [hstep] at hformed ⊢
    rw [hemits] at houtput ⊢
    obtain ⟨store', hprocess, hfinal⟩ := Stored.processRows (c := batchOperator plan side clock)
      rfl rfl rfl (show Stored store (op.advanceClock clock) from hstored.of_states rfl) hformed
      fun _ => {}
    refine ⟨store', ?_, hfinal⟩
    show ((batchOperator plan side clock).process store op.bare rows >>= _) = _
    rw [CopyOperator.process, if_pos hshort]
    have hadvance : (batchOperator plan side clock).advance op.bare =
        (batchOperator plan side clock).withStates (op.advanceClock clock) fun _ => {} := rfl
    rw [hadvance, hprocess, ok_bind]
    dsimp only
    rw [outputBatch_ok houtput, ok_bind]
    rfl
  | eventTime watermark =>
    by_cases hpast : watermark ≤ op.currentEventTime
    · have hsame : op.advanceEventTime plan watermark = (op, []) := if_pos hpast
      exact hstored.idle (if_pos hpast) (congrArg Prod.fst hsame) (congrArg Prod.snd hsame)
    · have hfire : op.advanceEventTime plan watermark =
          Operator.fire plan { op with currentEventTime := watermark } .eventTime watermark :=
        if_neg hpast
      exact hstored.advance { op with currentEventTime := watermark } rfl (if_neg hpast)
        (congrArg Prod.fst hfire) (congrArg Prod.snd hfire) hformed houtput
  | processingTime timestamp =>
    by_cases hpast : timestamp ≤ op.currentProcessingTime
    · have hsame : op.advanceProcessingTime plan timestamp = (op, []) := if_pos hpast
      exact hstored.idle (if_pos hpast) (congrArg Prod.fst hsame) (congrArg Prod.snd hsame)
    · have hfire : op.advanceProcessingTime plan timestamp =
          Operator.fire plan { op with currentProcessingTime := timestamp } .processingTime
            timestamp := if_neg hpast
      exact hstored.advance { op with currentProcessingTime := timestamp } rfl (if_neg hpast)
        (congrArg Prod.fst hfire) (congrArg Prod.snd hfire) hformed houtput

end

/-! ## What the format can hold -/

/-- A run that fits the numbers of the source: times of 64 bits; batches, row lengths and outputs of
32 bits; for each key fewer than `2 ^ 32` left rows that wait and fewer than `2 ^ 32` changes of the
right side; and fewer than `2 ^ 64` left rows, which are numbered. -/
structure Fitting (events : List (Event Bytes)) : Prop where
  batches : ∀ side rows clock, Event.rows side rows clock ∈ events → rows.length ≤ 2 ^ 31
  rows : ∀ side, ∀ row ∈ arrivals events side, I64.InRange row.time ∧ row.row.length < 2 ^ 32
  lefts : (arrivals events .left).length < 2 ^ 64
  waiting : ∀ before after key, events = before ++ after →
    ((ofKey key (arrivals before .left)).filter (watermarkOf before < ·.time)).length < 2 ^ 32
  rights : ∀ key, (ofKey key (arrivals events .right)).length < 2 ^ 32
  outputs : ∀ before event after, events = before ++ event :: after →
    ((arrivals (before ++ [event]) .left).filter fun row => watermarkOf before < row.time ∧
      row.time ≤ event.watermark (watermarkOf before)).length ≤ 2 ^ 32

theorem Fitting.of_append {events later : List (Event Bytes)} (h : Fitting (events ++ later)) :
    Fitting events where
  batches side rows clock hmem := h.batches side rows clock (mem_append_left _ hmem)
  rows side row hrow := h.rows side row (by rw [arrivals_append]; exact mem_append_left _ hrow)
  lefts := by
    have hall := h.lefts
    rw [arrivals_append, length_append] at hall
    omega
  waiting before after key hsplit :=
    h.waiting before (after ++ later) key (by rw [hsplit, append_assoc])
  rights key := by
    have hall := h.rights key
    rw [arrivals_append, ofKey_append, length_append] at hall
    omega
  outputs before event after hsplit :=
    h.outputs before event (after ++ later) (by rw [hsplit, append_assoc, cons_append])

section

variable {lefts rights : List (InputRow Bytes)} {watermark : Int} {state : TemporalState Bytes}

/-- A state that knows the arrivals is one that the format can hold, if these are. -/
theorem KeyInv.formed (h : KeyInv plan lefts rights watermark key state)
    (hmode : plan.mode = .eventTime)
    (hrows : ∀ row ∈ lefts ++ rights,
      I64.InRange row.time ∧ I64.min < row.time ∧ row.row.length < 2 ^ 32)
    (hlefts : lefts.length < 2 ^ 64)
    (hwaiting : ((ofKey key lefts).filter (watermark < ·.time)).length < 2 ^ 32)
    (hrights : (ofKey key rights).length < 2 ^ 32) : Formed plan 0 state := by
  have hofKey : ∀ row ∈ ofKey key lefts ++ ofKey key rights, row ∈ lefts ++ rights := by
    intro row hrow
    exact (mem_append.mp hrow).elim (fun h => mem_append_left _ (mem_of_mem_filter h))
      fun h => mem_append_right _ (mem_of_mem_filter h)
  have hnext : state.nextSequence < 2 ^ 64 :=
    (h.few.trans (length_filter_le _ _)).trans_lt hlefts
  have hlength : state.left.length < 2 ^ 32 := by
    have hsame := congrArg List.length h.left
    rw [length_map, length_map] at hsame
    rwa [hsame]
  -- the versions are distinct changes
  have hversions : state.right.length ≤ (ofKey key rights).length := by
    have hnodup : state.right.Nodup := h.sorted.imp fun hlt heq => hlt.ne (congrArg Prod.fst heq)
    have hsub := (hnodup.subperm h.entries).length_le
    rwa [Plan.changes, length_map] at hsub
  refine ⟨hnext, hlength, hversions.trans_lt hrights, fun row hrow => ?_, fun entry hentry => ?_,
    h.sorted, fun time htime => ?_, fun time htime => ?_, fun hprocessing => ?_⟩
  · obtain ⟨arrived, harrived, htime, hbytes⟩ := h.row_of_mem hrow
    obtain ⟨hrange, -, hshort⟩ := hrows arrived (hofKey _ (mem_append_left _ harrived))
    rw [htime] at hrange
    rw [hbytes] at hshort
    exact ⟨(h.next row hrow).trans hnext, hrange, hshort⟩
  · obtain ⟨arrived, harrived, rfl⟩ := mem_map.mp (h.entries entry hentry)
    obtain ⟨hrange, -, hshort⟩ := hrows arrived (hofKey _ (mem_append_right _ harrived))
    exact ⟨hrange, hshort⟩
  · obtain ⟨arrived, harrived, rfl⟩ := h.origin time htime
    obtain ⟨hrange, hlater, -⟩ := hrows arrived (hofKey _ harrived)
    exact ⟨hrange, hlater.ne'⟩
  · rw [h.cleanup] at htime
    cases htime
  · rw [hmode] at hprocessing
    cases hprocessing

/-- The rows of different keys are different rows. -/
theorem length_flatMap_ofKey_le {keys : List StateKey} (hkeys : keys.Nodup)
    (rows : List (InputRow Bytes)) : (keys.flatMap (ofKey · rows)).length ≤ rows.length := by
  induction keys generalizing rows with
  | nil => exact Nat.zero_le _
  | cons key keys ih =>
    obtain ⟨hnew, hkeys⟩ := nodup_cons.mp hkeys
    have hothers : keys.flatMap (ofKey · rows) =
        keys.flatMap (ofKey · (rows.filter fun row => row.key ≠ key)) := by
      refine flatMap_congr fun other hother => ?_
      unfold ofKey
      rw [filter_filter]
      refine filter_congr fun row _ => ?_
      have hne : other ≠ key := fun heq => hnew (heq ▸ hother)
      by_cases hrow : row.key = other <;> simp [hrow, hne]
    have hrest := ih hkeys (rows.filter fun row => row.key ≠ key)
    have hsplit := rows.length_eq_length_filter_add fun row => decide (row.key = key)
    rw [flatMap_cons, length_append, hothers]
    simp only [ofKey, ne_eq, decide_not] at hrest hsplit ⊢
    omega

theorem length_expected_le {keys : List StateKey} (hkeys : keys.Nodup) (progress : Int) :
    (keys.flatMap (plan.expected lefts rights · watermark progress)).length ≤
      (lefts.filter fun row => watermark < row.time ∧ row.time ≤ progress).length := by
  refine le_trans ?_ (length_flatMap_ofKey_le hkeys _)
  rw [length_flatMap, length_flatMap]
  refine List.sum_le_sum fun key _ => ?_
  unfold ofKey
  rw [filter_filter]
  refine (length_filterMap_le _ _).trans (le_of_eq ?_)
  rw [ofKey, filter_filter]
  simp only [Bool.and_comm]

end

variable {events : List (Event Bytes)}

/-- The states of a run that fits can be stored. -/
theorem formed_run (hmode : plan.mode = .eventTime) (hretention : plan.minStateRetentionMillis ≤ 1)
    (htime : OnTime events) (hfits : Fitting events) (key : StateKey) :
    Formed plan 0 ((run plan events).states key) := by
  refine ((inv_run hmode hretention htime hfits.lefts).keys key).formed hmode (fun row hrow => ?_)
    hfits.lefts (hfits.waiting events [] key (append_nil _).symm) (hfits.rights key)
  obtain ⟨side, hside⟩ : ∃ side, row ∈ arrivals events side :=
    (mem_append.mp hrow).elim (fun h => ⟨.left, h⟩) fun h => ⟨.right, h⟩
  obtain ⟨hrange, hshort⟩ := hfits.rows side row hside
  have honTime : OnTime ([] ++ events) := htime
  exact ⟨hrange, lt_time_of_later honTime hside, hshort⟩

/-- **Runs.**  A run that fits succeeds on stored states, and every call emits what it emits on
states in place. -/
theorem storedRun_ok (hmode : plan.mode = .eventTime)
    (hretention : plan.minStateRetentionMillis ≤ 1)
    (htime : OnTime events) (hfits : Fitting events) :
    ∃ store outputs, storedRun plan events = .ok ((store, (run plan events).bare), outputs) ∧
      Stored store (run plan events) ∧ outputs.length = events.length ∧
      ∀ before event after, events = before ++ event :: after →
        outputs[before.length]? = some ((run plan before).emits plan event) := by
  induction events using List.reverseRecOn with
  | nil => exact ⟨{}, [], rfl, fun _ => rfl, rfl, fun before event after h => by simp at h⟩
  | append_singleton events event ih =>
    obtain ⟨store, outputs, hrun, hstored, hlength, houtputs⟩ := ih htime.of_append hfits.of_append
    have hformed := fun key => formed_run hmode hretention htime hfits key
    rw [run_concat] at hformed
    obtain ⟨keys, hnodup, hemits, -⟩ := emits_eq_expected plan hmode hretention (events ++ [event])
      htime hfits.lefts events event [] rfl
    have hoccurs : ((run plan events).emits plan event).length ≤ 2 ^ 32 := by
      rw [hemits]
      exact (length_expected_le hnodup _).trans (hfits.outputs events event [] rfl)
    obtain ⟨store', hstep, hstored'⟩ := hstored.step (fun side rows clock heq =>
      hfits.batches side rows clock (by rw [heq]; simp)) hformed hoccurs
    refine ⟨store', outputs ++ [(run plan events).emits plan event], ?_, ?_, ?_, ?_⟩
    · rw [storedRun_concat, hrun, ok_bind]
      dsimp only
      rw [hstep, ok_bind, run_concat]
    · rw [run_concat]
      exact hstored'
    · rw [length_append, length_append, hlength]
      rfl
    · intro before event' after hsplit
      rcases eq_nil_or_concat after with rfl | ⟨init, last, rfl⟩
      · obtain ⟨rfl, heq⟩ := append_inj' hsplit rfl
        rw [← (List.cons.inj heq).1, ← hlength, getElem?_concat_length]
      · rw [concat_eq_append, ← cons_append, ← append_assoc] at hsplit
        have hinit := houtputs before event' init (append_inj' hsplit rfl).1
        rw [getElem?_append_left (List.getElem?_eq_some_iff.mp hinit).1]
        exact hinit

/-- Rows that are few in all. -/
theorem fitting_of_few
    (hbatches : ∀ side rows clock, Event.rows side rows clock ∈ events → rows.length ≤ 2 ^ 31)
    (hrows : ∀ side, ∀ row ∈ arrivals events side, I64.InRange row.time ∧ row.row.length < 2 ^ 32)
    (hfew : ∀ side, (arrivals events side).length < 2 ^ 32) : Fitting events := by
  have hbefore : ∀ before after, events = before ++ after →
      (arrivals before .left).length < 2 ^ 32 := by
    intro before after hsplit
    have hall := hfew .left
    rw [hsplit, arrivals_append, length_append] at hall
    omega
  refine ⟨hbatches, hrows, (hfew .left).trans (by norm_num), fun before after key hsplit => ?_,
    fun key => (length_filter_le _ _).trans_lt (hfew .right), fun before event after hsplit => ?_⟩
  · exact ((length_filter_le _ _).trans (length_filter_le _ _)).trans_lt
      (hbefore before after hsplit)
  · have hsplit' : events = (before ++ [event]) ++ after := by rw [hsplit]; simp
    exact (length_filter_le _ _).trans (hbefore _ after hsplit').le

/-- A left outer join on event time without state retention. -/
def outerJoin : Plan := ⟨.eventTime, true, [], 0, 0, le_refl 0⟩

/-- An inserted row of a time. -/
def rowAt (group : UInt32) (time : Int) (content : UInt8) : InputRow Bytes :=
  ⟨⟨group, []⟩, [], time, .insert, [content]⟩

/-- Two versions of one key, and left rows of two keys that do not arrive by time. -/
def twoKeys : List (Event Bytes) :=
  [.rows .right [rowAt 0 1 10, rowAt 0 3 11] 0,
    .rows .left [rowAt 0 4 20, rowAt 1 2 21, rowAt 0 2 22] 0, .eventTime 3, .eventTime 4]

theorem onTime_twoKeys : OnTime twoKeys := by
  have hrights : OnTime (twoKeys.take 1) := onTime_nil.concat (by
    show ∀ row ∈ [rowAt 0 1 10, rowAt 0 3 11], I64.min < row.time
    decide)
  have hlefts : OnTime (twoKeys.take 2) := hrights.concat (by
    show ∀ row ∈ [rowAt 0 4 20, rowAt 1 2 21, rowAt 0 2 22], I64.min < row.time
    decide)
  have hfirst : OnTime (twoKeys.take 3) := hlefts.concat trivial
  exact hfirst.concat trivial

example : (storedRun outerJoin twoKeys).toOption.map
    (fun s => s.2.map (·.map fun output => (output.left, output.right))) =
      some [[], [], [([22], some [10]), ([21], none)], [([20], some [11])]] := by
  decide +kernel

/-- A batch of rows of one key. -/
def crowd (n : Nat) : Event Bytes := .rows .left (replicate n (rowAt 0 1 7)) 0

theorem keysOf_replicate (n : Nat) (row : InputRow Bytes) :
    keysOf InputRow.key (replicate (n + 1) row) = [row.key] := by
  have hnone : (keysOf InputRow.key (replicate n row)).filter (· ≠ row.key) = [] := by
    refine filter_eq_nil_iff.mpr fun key hkey => ?_
    obtain ⟨row', hrow', rfl⟩ := mem_keysOf.mp hkey
    simp [eq_of_mem_replicate hrow']
  rw [replicate_succ]
  exact congrArg _ hnone

theorem saveState_crowded {state : TemporalState Bytes} (h : 2 ^ 32 ≤ state.left.length) :
    saveState state = .error (.execution "temporal join left row count exceeds u32") := by
  have hleft : state.left ≠ [] := by
    intro hnil
    rw [hnil] at h
    simp at h
  have hempty : ¬ stateIsEmpty state = true := by simp [stateIsEmpty, hleft]
  have hcount : writeCount state.left.length "left row count" =
      .error (.execution "temporal join left row count exceeds u32") := if_neg (not_lt.mpr h)
  rw [saveState, if_neg hempty, encodeState, hcount]
  rfl

theorem left_writeStates (op : Operator Bytes) (keys : List StateKey) (key : StateKey) :
    ((op.writeStates keys).states key).left = (op.states key).left := by
  unfold writeStates
  dsimp only
  split_ifs with hempty
  · have hnil : (op.states key).left = [] := by
      have := hempty.2
      simp only [stateIsEmpty, Bool.and_eq_true, List.isEmpty_iff] at this
      exact this.1.1.1
    exact hnil.symm
  · rfl


variable {n : Nat}

theorem onTime_crowd {before : List (Event Bytes)} (h : OnTime before)
    (hwatermark : watermarkOf before = I64.min) : OnTime (before ++ [crowd n]) := by
  refine h.concat ?_
  rw [hwatermark]
  intro row hrow
  rw [eq_of_mem_replicate hrow]
  decide

theorem arrivals_crowd (hn : n ≤ 2 ^ 31) : (crowd n).arrivals .left = replicate n (rowAt 0 1 7) :=
  if_pos ⟨rfl, by rwa [length_replicate]⟩

theorem fitting_crowd (hn : n ≤ 2 ^ 31) : Fitting [crowd n] := by
  have hleft : arrivals [crowd n] .left = replicate n (rowAt 0 1 7) :=
    (append_nil _).trans (arrivals_crowd hn)
  have hright : arrivals [crowd n] .right = [] := rfl
  refine fitting_of_few (fun side rows clock hrows => ?_) (fun side row hrow => ?_) fun side => ?_
  · cases mem_singleton.mp hrows
    rwa [length_replicate]
  · cases side with
    | left =>
      rw [hleft] at hrow
      rw [eq_of_mem_replicate hrow]
      decide
    | right => cases hrow
  · cases side with
    | left =>
      rw [hleft, length_replicate]
      omega
    | right => exact Nat.two_pow_pos 32

/-- All rows of the two batches wait. -/
theorem length_left_crowd (hn : n ≤ 2 ^ 31) :
    ((run outerJoin [crowd n, crowd n]).states ⟨0, []⟩).left.length = n + n := by
  have hlefts : arrivals [crowd n, crowd n] .left = replicate (n + n) (rowAt 0 1 7) := by
    rw [← replicate_append_replicate, ← arrivals_crowd hn]
    exact congrArg _ (append_nil _)
  have htime : OnTime [crowd n, crowd n] := onTime_crowd (onTime_crowd onTime_nil rfl) rfl
  have hinv := inv_run (show outerJoin.mode = .eventTime from rfl) (by decide) htime
    (by rw [hlefts, length_replicate]; omega)
  have hleft := congrArg List.length (hinv.keys ⟨0, []⟩).left
  rw [length_map, length_map, hlefts] at hleft
  have hwatermark : watermarkOf [crowd n, crowd n] = I64.min := rfl
  rw [hleft, hwatermark, ofKey, filter_replicate_of_pos (by decide),
    filter_replicate_of_pos (by decide), length_replicate]

/-- Too many waiting rows cannot be stored. -/
theorem storedRun_crowd (hn : n ≤ 2 ^ 31) (hmany : 2 ^ 32 ≤ n + n) :
    storedRun outerJoin [crowd n, crowd n] =
      .error (.execution "temporal join left row count exceeds u32") := by
  obtain ⟨rows, hrows⟩ : ∃ rows, replicate n (rowAt 0 1 7) = rows := ⟨_, rfl⟩
  have hlength : rows.length ≤ 2 ^ 31 := by rwa [← hrows, length_replicate]
  have hkeys : keysOf InputRow.key rows = [⟨0, []⟩] := by
    obtain ⟨m, rfl⟩ := Nat.exists_eq_add_one_of_ne_zero (show n ≠ 0 by omega)
    rw [← hrows, keysOf_replicate]
    rfl
  obtain ⟨store, outputs, hrun, hstored, -⟩ :=
    storedRun_ok (show outerJoin.mode = .eventTime from rfl)
    (by decide) (onTime_crowd onTime_nil rfl) (fitting_crowd hn)
  obtain ⟨op, hop⟩ : ∃ op, run outerJoin [crowd n] = op := ⟨_, rfl⟩
  have hleft : 2 ^ 32 ≤ (((batchOperator outerJoin .left 0).run 0 rows
      (op.advanceClock 0)).1.states ⟨0, []⟩).left.length := by
    rw [← left_writeStates _ (rows.map InputRow.key), ← (op.step_rows outerJoin .left 0 hlength).1,
      ← hop, ← hrows]
    exact hmany.trans (length_left_crowd hn).ge
  rw [nil_append, hop] at hrun hstored
  have hcall : (batchOperator outerJoin .left 0).process store op.bare rows =
      .error (.execution "temporal join left row count exceeds u32") := by
    have hkeys' : keysOf (batchOperator outerJoin .left 0).key rows = [⟨0, []⟩] := hkeys
    have hsave : (batchOperator outerJoin .left 0).save ((batchOperator outerJoin .left 0).states
        ((batchOperator outerJoin .left 0).run 0 rows (op.advanceClock 0)).1 ⟨0, []⟩) =
        .error (.execution "temporal join left row count exceeds u32") := saveState_crowded hleft
    rw [CopyOperator.process, if_pos hlength]
    refine (CopyOperator.processRows_loaded (c := batchOperator outerJoin .left 0)
      (o := op.advanceClock 0) hstored fun _ => {}).trans ?_
    rw [hkeys', mapM_cons, hsave]
    rfl
  have hsplit : [crowd n, crowd n] = [crowd n] ++ [crowd n] := rfl
  rw [hsplit, storedRun_concat, hrun, ok_bind]
  dsimp only
  show ((batchOperator outerJoin .left 0).process store op.bare
    (replicate n (rowAt 0 1 7)) >>= _) >>= _ = _
  rw [hrows, hcall]
  rfl

end StreamFusion.TemporalJoin
