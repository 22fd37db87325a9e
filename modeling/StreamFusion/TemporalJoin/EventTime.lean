import StreamFusion.Lib.Versions
import StreamFusion.TemporalJoin

/-!
# The temporal join on event time

Without a state retention only the watermark removes anything from the state of a key.  What should
be emitted when the watermark moves from one value to the next then depends on what has arrived: the
left rows of a key between the two values, in the order of their arrival, each with the latest
change of the right side up to its own time (`expected`).

The invariant (`KeyInv`) says how much of the arrivals a state still knows: the left rows beyond the
watermark, and enough of the right side to answer every question about a time from the watermark on.
The one timer of a key is at the timer service and not later than any left row that waits
(`Inv.pending`, `KeyInv.timer`), so that no due row is missed.
-/

namespace StreamFusion.TemporalJoin

open State Versions NativeTimerService Function List Operator

variable {ρ : Type}

/-! ## What should be emitted -/

/-- A row of the right side as a change of the version table. -/
def Plan.version (plan : Plan) (row : InputRow ρ) : Int × VersionRow ρ :=
  (row.time, ⟨row.kind, plan.rowIsMatchable row, row.row⟩)

/-- A left row of time `time` meets the entry of the version table that is valid then. -/
def Plan.joined (plan : Plan) (left : ProbeRow ρ) (entry : Option (Int × VersionRow ρ)) :
    Option (OutputRow ρ) :=
  match entry with
  | some (_, version) =>
    if version.kind.adds && version.isMatchable && left.isMatchable then
      some ⟨left.row, some version.row, true, left.kind, -1⟩
    else if plan.isLeft then some ⟨left.row, none, false, left.kind, -1⟩ else none
  | none => if plan.isLeft then some ⟨left.row, none, false, left.kind, -1⟩ else none

/-- A left row as it is stored. -/
def Plan.probe (plan : Plan) (sequence : Nat) (row : InputRow ρ) : ProbeRow ρ :=
  ⟨sequence, row.time, row.kind, plan.rowIsMatchable row, row.row⟩

/-- The rows of a key. -/
def ofKey (key : StateKey) (rows : List (InputRow ρ)) : List (InputRow ρ) :=
  rows.filter fun row => row.key = key

/-- The versions of a key in the order of arrival. -/
def Plan.changes (plan : Plan) (key : StateKey) (rights : List (InputRow ρ)) :
    List (Int × VersionRow ρ) :=
  (ofKey key rights).map plan.version

/-- What a key should emit when the watermark moves: the left rows in between, in the order of their
arrival, with the latest change of the right side up to their time. -/
def Plan.expected (plan : Plan) (lefts rights : List (InputRow ρ)) (key : StateKey)
    (watermark progress : Int) : List (OutputRow ρ) :=
  ((ofKey key lefts).filter fun row => watermark < row.time ∧ row.time ≤ progress).filterMap
    fun row => plan.joined (plan.probe 0 row) (latest (plan.changes key rights) row.time)

/-! ## The operator's version table -/

theorem insertVersion_eq (time : Int) (version : VersionRow ρ) (right : List (Int × VersionRow ρ)) :
    insertVersion time version right = enter time version right := by
  induction right with
  | nil => rfl
  | cons entry right ih => rw [insertVersion, enter, ih]

namespace TemporalState

/-- Sets the event timer of a state. -/
def setEventTimer (timer : Option Int) (state : TemporalState ρ) : TemporalState ρ :=
  { state with eventTimer := timer }

/-- What remains at a watermark. -/
def advanced (watermark : Int) (state : TemporalState ρ) : TemporalState ρ :=
  { state with
    left := state.left.filter (watermark < ·.timestamp)
    right := prune watermark state.right }

end TemporalState

/-- The due rows in the order of their numbers meet the entries of their times, and the version
table is pruned. -/
theorem emitEventRows_eq (plan : Plan) (watermark : Int) (state : TemporalState ρ)
    (hsequences : state.left.Pairwise fun row row' => row.sequence < row'.sequence) :
    emitEventRows plan watermark state = (state.advanced watermark,
        (state.left.filter (·.timestamp ≤ watermark)).filterMap fun left =>
          plan.joined left (entryAt state.right left.timestamp)) := by
  have hsorted : (state.left.filter (·.timestamp ≤ watermark)).Pairwise
      fun row row' => row.sequence ≤ row'.sequence := by
    refine (hsequences.filter _).imp ?_
    intro row row' hlt
    exact hlt.le
  unfold emitEventRows
  rw [hsorted.insertionSort_eq]
  unfold TemporalState.advanced prune
  refine Prod.ext ?_ rfl
  congr 1
  unfold entryAt
  generalize (state.right.filter fun entry => decide (entry.1 ≤ watermark)).getLast? = entry
  rcases entry with _ | ⟨keep, version⟩ <;> rfl

/-! ## The invariant -/

/-- What the state of a key knows of the arrivals, at a watermark. -/
structure KeyInv (plan : Plan) (lefts rights : List (InputRow ρ)) (watermark : Int) (key : StateKey)
    (state : TemporalState ρ) : Prop where
  /-- The left rows beyond the watermark wait. -/
  left : (state.left.map fun probe => { probe with sequence := 0 }) =
    ((ofKey key lefts).filter (watermark < ·.time)).map (plan.probe 0)
  sequences : state.left.Pairwise fun row row' => row.sequence < row'.sequence
  next : ∀ row ∈ state.left, row.sequence < state.nextSequence
  few : state.nextSequence ≤ (ofKey key lefts).length
  sorted : Sorted state.right
  /-- Questions about a time from the watermark on have the same answer as over all changes. -/
  right : ∀ t ≥ watermark, entryAt state.right t = latest (plan.changes key rights) t
  /-- The timer is not later than any waiting row. -/
  timer : ∀ row ∈ state.left, ∃ time, state.eventTimer = some time ∧ time ≤ row.timestamp
  cleanup : state.cleanupTimer = none
  /-- Versions and timers are those of rows that have arrived. -/
  entries : ∀ entry ∈ state.right, entry ∈ plan.changes key rights
  origin : ∀ time, state.eventTimer = some time →
    ∃ row ∈ ofKey key lefts ++ ofKey key rights, row.time = time

/-- Timers that are about to fire are in `firing`. -/
structure Inv (plan : Plan) (lefts rights : List (InputRow ρ)) (watermark : Int)
    (firing : List (TimerKey TimerSpace)) (op : Operator ρ) : Prop where
  keys : ∀ key, KeyInv plan lefts rights watermark key (op.states key)
  pending : ∀ key time, (op.states key).eventTimer = some time →
    ⟨time, key, .event⟩ ∈ op.timers.timerSet .eventTime ∨ ⟨time, key, .event⟩ ∈ firing
  processing : op.timers.timerSet .processingTime = []
  clock : op.currentEventTime = watermark

variable {plan : Plan} {lefts rights : List (InputRow ρ)} {key : StateKey} {state : TemporalState ρ}
  {row : InputRow ρ}

section Arrival

variable {watermark : Int}

theorem ofKey_append (key : StateKey) (rows rows' : List (InputRow ρ)) :
    ofKey key (rows ++ rows') = ofKey key rows ++ ofKey key rows' :=
  filter_append ..

theorem ofKey_singleton (row : InputRow ρ) (key : StateKey) :
    ofKey key [row] = if row.key = key then [row] else [] := by
  simp [ofKey, filter_cons]

variable {time : Int}

section

variable (h : KeyInv plan lefts rights watermark key state)
include h

/-- A row that waits has arrived. -/
theorem KeyInv.row_of_mem {probe : ProbeRow ρ} (hprobe : probe ∈ state.left) :
    ∃ row ∈ ofKey key lefts, row.time = probe.timestamp ∧ row.row = probe.row := by
  have hmem : { probe with sequence := 0 } ∈
      ((ofKey key lefts).filter (watermark < ·.time)).map (plan.probe 0) := by
    rw [← h.left]
    exact mem_map_of_mem hprobe
  obtain ⟨row, hrow, heq⟩ := mem_map.mp hmem
  exact ⟨row, mem_of_mem_filter hrow, congrArg ProbeRow.timestamp heq, congrArg ProbeRow.row heq⟩

/-- A left row waits for the watermark. -/
theorem KeyInv.addLeft (hkey : row.key = key) (htime : watermark < row.time)
    (hfew : (ofKey key lefts).length < 2 ^ 64 - 1) (hle : time ≤ row.time)
    (htimer : ∀ waiting ∈ state.left, time ≤ waiting.timestamp)
    (horigin : time = row.time ∨ state.eventTimer = some time) :
    KeyInv plan (lefts ++ [row]) rights watermark key { state with
        nextSequence := (state.nextSequence + 1) % 2 ^ 64
        left := state.left ++ ([plan.probe state.nextSequence row] : List (ProbeRow ρ))
        eventTimer := some time } := by
  have hmod : (state.nextSequence + 1) % 2 ^ 64 = state.nextSequence + 1 := by
    have := h.few
    exact Nat.mod_eq_of_lt (by omega)
  have hrows : ofKey key (lefts ++ [row]) = ofKey key lefts ++ [row] := by
    rw [ofKey_append, ofKey_singleton, if_pos hkey]
  refine ⟨?_, ?_, ?_, ?_, h.sorted, h.right, ?_, h.cleanup, h.entries, ?_⟩
  · rw [hrows, filter_append, map_append, map_append, ← h.left,
      filter_cons_of_pos (by simpa using htime)]
    rfl
  · refine pairwise_append.mpr ⟨h.sequences, pairwise_singleton _ _, ?_⟩
    intro waiting hwaiting new hnew
    rw [mem_singleton.mp hnew]
    exact h.next waiting hwaiting
  · intro waiting hwaiting
    rw [hmod]
    rcases mem_append.mp hwaiting with hwaiting | hwaiting
    · exact (h.next waiting hwaiting).trans (Nat.lt_succ_self _)
    · rw [mem_singleton.mp hwaiting]
      exact Nat.lt_succ_self _
  · rw [hmod, hrows, length_append]
    exact Nat.succ_le_succ h.few
  · intro waiting hwaiting
    refine ⟨time, rfl, ?_⟩
    rcases mem_append.mp hwaiting with hwaiting | hwaiting
    · exact htimer waiting hwaiting
    · rw [mem_singleton.mp hwaiting]
      exact hle
  · rintro _ ⟨⟩
    rw [hrows]
    rcases horigin with rfl | hold
    · exact ⟨row, by simp, rfl⟩
    · obtain ⟨row', hrow', heq⟩ := h.origin time hold
      refine ⟨row', ?_, heq⟩
      simp only [mem_append] at hrow' ⊢
      tauto

/-- A right row becomes a version. -/
theorem KeyInv.addRight (hkey : row.key = key)
    (htimer : ∀ waiting ∈ state.left, time ≤ waiting.timestamp)
    (horigin : time = row.time ∨ state.eventTimer = some time) :
    KeyInv plan lefts (rights ++ [row]) watermark key { state with
        right := insertVersion row.time ⟨row.kind, plan.rowIsMatchable row, row.row⟩ state.right
        eventTimer := some time } := by
  have hchanges : plan.changes key (rights ++ [row]) = plan.changes key rights ++
      [plan.version row] := by
    rw [Plan.changes, ofKey_append, ofKey_singleton, if_pos hkey, map_append]
    rfl
  refine ⟨h.left, h.sequences, h.next, h.few, ?_, fun t ht => ?_, fun waiting hwaiting =>
    ⟨time, rfl, htimer waiting hwaiting⟩, h.cleanup, fun entry hentry => ?_, ?_⟩
  · rw [insertVersion_eq]
    exact h.sorted.enter _ _
  · rw [insertVersion_eq, entryAt_enter h.sorted, hchanges, latest_concat, h.right t ht]
    rfl
  · rw [insertVersion_eq] at hentry
    rw [hchanges]
    rcases mem_enter hentry with rfl | hold
    · exact mem_append_right _ (mem_singleton.mpr rfl)
    · exact mem_append_left _ (h.entries entry hold)
  · rintro _ ⟨⟩
    rw [ofKey_append, ofKey_singleton, if_pos hkey]
    rcases horigin with rfl | hold
    · exact ⟨row, by simp, rfl⟩
    · obtain ⟨row', hrow', heq⟩ := h.origin time hold
      exact ⟨row', by rw [← append_assoc]; exact mem_append_left _ hrow', heq⟩

/-- Arrivals of other keys do not matter. -/
theorem KeyInv.of_other {lefts' rights' : List (InputRow ρ)}
    (hlefts : ofKey key lefts' = ofKey key lefts)
    (hrights : ofKey key rights' = ofKey key rights) :
        KeyInv plan lefts' rights' watermark key state := by
  have hchanges : plan.changes key rights' = plan.changes key rights := by
    rw [Plan.changes, hrights, Plan.changes]
  refine ⟨?_, h.sequences, h.next, ?_, h.sorted, ?_, h.timer, h.cleanup, ?_, ?_⟩
  · rw [hlefts]
    exact h.left
  · rw [hlefts]
    exact h.few
  · rw [hchanges]
    exact h.right
  · rw [hchanges]
    exact h.entries
  · rw [hlefts, hrights]
    exact h.origin

end

end Arrival

/-! ## Arrivals -/

/-- One more row has arrived. -/
def arrive (side : Side) (row : InputRow ρ) (arrived : Side → List (InputRow ρ)) : Side →
    List (InputRow ρ) :=
  update arrived side (arrived side ++ [row])

/-- The state of a key with a new row, before its timer is set. -/
def Plan.accept (plan : Plan) (side : Side) (row : InputRow ρ) (state : TemporalState ρ) :
    TemporalState ρ :=
  match side with
  | .left => { state with
      nextSequence := (state.nextSequence + 1) % 2 ^ 64
      left := state.left ++ ([plan.probe state.nextSequence row] : List (ProbeRow ρ)) }
  | .right => { state with
      right := insertVersion row.time ⟨row.kind, plan.rowIsMatchable row, row.row⟩ state.right }

variable {arrived : Side → List (InputRow ρ)} {op : Operator ρ}
    {firing : List (TimerKey TimerSpace)}

section Change

variable {watermark : Int}

theorem ofKey_arrive_of_ne {side : Side} (h : row.key ≠ key)
    (side' : Side) : ofKey key (arrive side row arrived side') = ofKey key (arrived side') := by
  unfold arrive
  by_cases hside : side' = side
  · subst hside
    rw [update_self, ofKey_append, ofKey_singleton, if_neg h, append_nil]
  · rw [update_of_ne hside]

/-- A row on time keeps the invariant. -/
theorem Inv.processEventChange (h : Inv plan (arrived .left) (arrived .right) watermark [] op)
    (hmode : plan.mode = .eventTime) (hretention : plan.minStateRetentionMillis ≤ 1) (side : Side)
    (htime : watermark < row.time)
    (hfew : side = .left → (arrived .left).length < 2 ^ 64 - 1) :
    Inv plan (arrive side row arrived .left) (arrive side row arrived .right) watermark []
      (op.processEventChange plan side row) := by
  have hrowTime : op.rowTime plan row = row.time := by
    rw [rowTime, hmode]
    rfl
  have hrefresh : ∀ op' : Operator ρ, op'.refreshCleanupTimer plan row.key = op' :=
    fun op' => if_pos hretention
  -- the state with the row, before its timer
  obtain ⟨state, hstate⟩ : ∃ state, plan.accept side row (op.states row.key) = state := ⟨_, rfl⟩
  have hprocess : op.processEventChange plan side row =
      (op.setState row.key state).registerSmallestEventTimer row.key row.time := by
    unfold Operator.processEventChange
    rw [hrefresh, hrowTime, ← hstate]
    cases side <;> rfl
  have htimerOf : state.eventTimer = (op.states row.key).eventTimer := by
    rw [← hstate]
    cases side <;> rfl
  have hself : (op.setState row.key state).states row.key = state := update_self ..
  obtain ⟨⟨hclock, -, hprocessing⟩, time, hstates, horigin, hle, hcurrent, hothers, hpending⟩ :=
    registerSmallestEventTimer_spec (op.setState row.key state) row.key row.time
  rw [hself] at hstates horigin hcurrent hpending
  rw [htimerOf] at horigin
  have hwaiting : ∀ waiting ∈ (op.states row.key).left, time ≤ waiting.timestamp := by
    intro waiting hmem
    obtain ⟨current, hevent, hbefore⟩ := (h.keys row.key).timer waiting hmem
    exact (hcurrent current (htimerOf.trans hevent)).trans hbefore
  have hrow : KeyInv plan (arrive side row arrived .left) (arrive side row arrived .right) watermark
      row.key { state with eventTimer := some time } := by
    rw [← hstate]
    cases side with
    | left =>
      have hkeyFew : (ofKey row.key (arrived .left)).length < 2 ^ 64 - 1 :=
        Nat.lt_of_le_of_lt (length_filter_le _ _) (hfew rfl)
      exact (h.keys row.key).addLeft rfl htime hkeyFew hle hwaiting horigin
    | right => exact (h.keys row.key).addRight rfl hwaiting horigin
  have hother : ∀ key ≠ row.key, (op.setState row.key state).states key = op.states key :=
    fun key hkey => update_of_ne hkey ..
  rw [hprocess]
  refine ⟨fun key => ?_, fun key time' hevent => Or.inl ?_, hprocessing.trans h.processing,
    hclock.trans h.clock⟩
  · rw [hstates]
    by_cases hkey : key = row.key
    · subst hkey
      rw [update_self]
      exact hrow
    · rw [update_of_ne hkey, hother key hkey]
      exact (h.keys key).of_other (ofKey_arrive_of_ne (Ne.symm hkey) .left)
        (ofKey_arrive_of_ne (Ne.symm hkey) .right)
  · rw [hstates] at hevent
    have hold : ∀ key time', (op.states key).eventTimer = some time' →
        ⟨time', key, .event⟩ ∈ op.timers.timerSet .eventTime :=
      fun key time' hev => (h.pending key time' hev).resolve_right not_mem_nil
    by_cases hkey : key = row.key
    · subst hkey
      rw [update_self] at hevent
      cases hevent
      exact hpending fun current hev => hold _ current (htimerOf.symm.trans hev)
    · rw [update_of_ne hkey, hother key hkey] at hevent
      exact hothers _ (hold key time' hevent) hkey

/-- States that are not written are as good as new. -/
theorem Inv.writeStates (h : Inv plan lefts rights watermark firing op) (keys : List StateKey) :
    Inv plan lefts rights watermark firing (op.writeStates keys) := by
  refine ⟨fun key => ?_, fun key time hevent => ?_, h.processing, h.clock⟩
  · unfold Operator.writeStates
    dsimp only
    split_ifs with hempty
    · have hkey := h.keys key
      obtain ⟨hleft, hright, hevent, -⟩ : (op.states key).left = [] ∧ (op.states key).right = [] ∧
          (op.states key).eventTimer = none ∧ (op.states key).cleanupTimer = none := by
        simpa [stateIsEmpty, and_assoc] using hempty.2
      refine ⟨?_, List.Pairwise.nil, nofun, Nat.zero_le _, List.Pairwise.nil, ?_, nofun,
        rfl, nofun, nofun⟩
      · rw [← hkey.left, hleft]
      · intro t ht
        rw [← hkey.right t ht, hright]
    · exact h.keys key
  · unfold Operator.writeStates at hevent
    dsimp only at hevent
    split_ifs at hevent with hempty
    exact h.pending key time hevent

end Change

/-! ## The watermark moves -/

section Watermark

variable {watermark progress : Int}

section

variable (h : KeyInv plan lefts rights watermark key state)
include h

/-- Rows that are due, numbered or not. -/
theorem filterMap_left (entry : Int → Option (Int × VersionRow ρ)) :
    ((state.left.filter (·.timestamp ≤ progress)).filterMap fun left =>
        plan.joined left (entry left.timestamp)) =
      ((ofKey key lefts).filter fun row => watermark < row.time ∧ row.time ≤ progress).filterMap
        fun row => plan.joined (plan.probe 0 row) (entry row.time) := by
  have hstrip : ((state.left.filter (·.timestamp ≤ progress)).filterMap fun left =>
      plan.joined left (entry left.timestamp)) =
      (((state.left.map fun probe => { probe with sequence := 0 }).filter
        (·.timestamp ≤ progress)).filterMap fun left =>
            plan.joined left (entry left.timestamp)) := by
    rw [filter_map, filterMap_map]
    rfl
  rw [hstrip, h.left, filter_map, filterMap_map, filter_filter]
  congr 1
  refine filter_congr fun row _ => ?_
  rw [comp_apply, Bool.and_comm, Bool.decide_and]
  rfl

/-- The rows up to the watermark are emitted as expected. -/
theorem KeyInv.emitEventRows (timer : Option Int) :
    emitEventRows plan progress (state.setEventTimer timer) =
      ((state.advanced progress).setEventTimer timer,
        plan.expected lefts rights key watermark progress) := by
  rw [emitEventRows_eq plan progress (state.setEventTimer timer) h.sequences]
  refine Prod.ext rfl ((filterMap_left h (entryAt state.right)).trans ?_)
  refine filterMap_congr fun row hrow => ?_
  have hbounds : watermark < row.time ∧ row.time ≤ progress := by
    simpa using (mem_filter.mp hrow).2
  rw [h.right row.time hbounds.1.le]

/-- The state of a key after its due rows have been emitted. -/
theorem KeyInv.advance (hprogress : watermark < progress) (timer : Option Int)
    (htimer : ∀ row ∈ (state.advanced progress).left, ∃ time, timer = some time ∧
      time ≤ row.timestamp)
    (horigin : ∀ time, timer = some time → ∃ row ∈ ofKey key lefts ++ ofKey key rights,
      row.time = time) :
    KeyInv plan lefts rights progress key ((state.advanced progress).setEventTimer timer) := by
  refine ⟨?_, h.sequences.filter _, fun row hrow => h.next row (mem_of_mem_filter hrow), h.few,
    h.sorted.prune progress, fun t ht => ?_, htimer, h.cleanup,
    fun entry hentry => h.entries entry (mem_of_mem_prune hentry), horigin⟩
  · have hfilter :=
      congrArg (List.filter fun probe : ProbeRow ρ => progress < probe.timestamp) h.left
    rw [filter_map, filter_map, filter_filter] at hfilter
    refine hfilter.trans (congrArg _ (filter_congr fun row _ => ?_))
    rw [comp_apply, ← Bool.decide_and]
    exact decide_eq_decide.mpr ⟨fun hboth => hboth.1, fun hlt => ⟨hlt, hprogress.trans hlt⟩⟩
  · exact (entryAt_prune h.sorted ht).trans (h.right t (hprogress.le.trans ht))

/-- A watermark before every waiting row emits nothing. -/
theorem KeyInv.idle (hprogress : watermark < progress)
    (hidle : ∀ row ∈ state.left, progress < row.timestamp) :
    KeyInv plan lefts rights progress key state ∧
        plan.expected lefts rights key watermark progress = [] := by
  have hnone : (state.left.filter (·.timestamp ≤ progress)) = [] := by
    refine filter_eq_nil_iff.mpr fun row hrow => ?_
    simpa using hidle row hrow
  have hall : (state.advanced progress).left = state.left := by
    refine filter_eq_self.mpr fun row hrow => ?_
    simpa using hidle row hrow
  constructor
  · refine ⟨?_, h.sequences, h.next, h.few, h.sorted, fun t ht => h.right t (hprogress.le.trans ht),
      h.timer, h.cleanup, h.entries, h.origin⟩
    rw [← hall]
    refine (h.advance hprogress state.eventTimer (fun row hrow => h.timer row ?_) h.origin).left
    rwa [hall] at hrow
  · have hempty : _ = plan.expected lefts rights key watermark progress :=
      filterMap_left h fun t => latest (plan.changes key rights) t
    rw [hnone] at hempty
    exact hempty.symm

end

/-- Some keys have moved to the new watermark. -/
structure Advancing (plan : Plan) (lefts rights : List (InputRow ρ)) (watermark progress : Int)
    (done : List StateKey) (firing : List (TimerKey TimerSpace)) (op : Operator ρ) : Prop where
  moved : ∀ key ∈ done, KeyInv plan lefts rights progress key (op.states key) ∧
    ∀ time, (op.states key).eventTimer = some time → progress < time
  waiting : ∀ key ∉ done, KeyInv plan lefts rights watermark key (op.states key)
  pending : ∀ key time, (op.states key).eventTimer = some time →
    ⟨time, key, .event⟩ ∈ op.timers.timerSet .eventTime ∨ ⟨time, key, .event⟩ ∈ firing
  ahead : ∀ timer ∈ op.timers.timerSet .eventTime, progress < timer.timestamp
  processing : op.timers.timerSet .processingTime = []
  clock : op.currentEventTime = progress

variable {done : List StateKey}

section

variable (h : Advancing plan lefts rights watermark progress done firing op)
include h

theorem Advancing.congr {done' : List StateKey} (hdone : ∀ key, key ∈ done' ↔ key ∈ done) :
    Advancing plan lefts rights watermark progress done' firing op :=
  ⟨fun key hkey => h.moved key ((hdone key).mp hkey),
    fun key hkey => h.waiting key fun hmem => hkey ((hdone key).mpr hmem),
    h.pending, h.ahead, h.processing, h.clock⟩

theorem Advancing.cleanupTimer (key : StateKey) : (op.states key).cleanupTimer = none := by
  by_cases hkey : key ∈ done
  · exact (h.moved key hkey).1.cleanup
  · exact (h.waiting key hkey).cleanup

end

variable {timer : TimerKey TimerSpace}

section

variable (h : Advancing plan lefts rights watermark progress done (timer :: firing) op)
include h

/-- A timer moves the state of its key. -/
theorem Advancing.move {op' : Operator ρ} {state' : TemporalState ρ}
    (hstates : op'.states = update op.states timer.key state')
    (hkey : KeyInv plan lefts rights progress timer.key state')
    (htimer : ∀ time, state'.eventTimer = some time → progress < time ∧
      ⟨time, timer.key, .event⟩ ∈ op'.timers.timerSet .eventTime)
    (hkeep : ∀ pending ∈ op.timers.timerSet .eventTime, pending ∈ op'.timers.timerSet .eventTime)
    (hahead : ∀ pending ∈ op'.timers.timerSet .eventTime, progress < pending.timestamp)
    (hprocessing : op'.timers.timerSet .processingTime = op.timers.timerSet .processingTime)
    (hclock : op'.currentEventTime = op.currentEventTime) :
    Advancing plan lefts rights watermark progress (timer.key :: done) firing op' := by
  have hother : ∀ key, key ≠ timer.key → op'.states key = op.states key := by
    intro key hne
    rw [hstates, update_of_ne hne]
  have hself : op'.states timer.key = state' := by rw [hstates, update_self]
  refine ⟨fun key hmem => ?_, fun key hnot => ?_, fun key time hevent => ?_, hahead,
    hprocessing.trans h.processing, hclock.trans h.clock⟩
  · by_cases hne : key = timer.key
    · rw [hne, hself]
      exact ⟨hkey, fun time hevent => (htimer time hevent).1⟩
    · rw [hother key hne]
      exact h.moved key ((mem_cons.mp hmem).resolve_left hne)
  · have hne : key ≠ timer.key := fun heq => hnot (heq ▸ mem_cons_self ..)
    rw [hother key hne]
    exact h.waiting key fun hmem => hnot (mem_cons_of_mem _ hmem)
  · by_cases hne : key = timer.key
    · rw [hne] at hevent ⊢
      rw [hself] at hevent
      exact Or.inl (htimer time hevent).2
    · rw [hother key hne] at hevent
      rcases h.pending key time hevent with hpending | hfiring
      · exact Or.inl (hkeep _ hpending)
      · refine Or.inr ((mem_cons.mp hfiring).resolve_left fun heq => hne ?_)
        rw [← heq]

/-- The timer of a key that has not moved yet fires. -/
theorem Advancing.fireMatching (hprogress : watermark < progress)
    (hdue : timer.timestamp ≤ progress)
    (hspace : timer.space = .event) (hmatch :
      (op.states timer.key).eventTimer = some timer.timestamp) :
    timer.key ∉ done ∧ (op.fireTimer plan progress timer).2 =
        plan.expected lefts rights timer.key watermark progress ∧
      Advancing plan lefts rights watermark progress (timer.key :: done) firing
        (op.fireTimer plan progress timer).1 := by
  have hnew : timer.key ∉ done := fun hdone =>
    absurd ((h.moved timer.key hdone).2 _ hmatch) (not_lt.mpr hdue)
  have hkey := h.waiting timer.key hnew
  have hcurrent : ({ op.states timer.key with eventTimer := none } : TemporalState ρ) =
      (op.states timer.key).setEventTimer none := rfl
  unfold fireTimer
  rw [hspace]
  dsimp only
  rw [if_pos hmatch, hcurrent, hkey.emitEventRows none]
  have hleft : ∀ row ∈ ((op.states timer.key).advanced progress).left,
      progress < row.timestamp := by
    intro row hrow
    simpa using (mem_filter.mp hrow).2
  refine ⟨hnew, ?_⟩
  rcases hmin : ((((op.states timer.key).advanced progress).setEventTimer none).left.map
    ProbeRow.timestamp).min? with _ | next
  · -- nothing waits any more
    have hempty : ((op.states timer.key).advanced progress).left = [] :=
      map_eq_nil_iff.mp (List.min?_eq_none_iff.mp hmin)
    refine ⟨rfl, h.move rfl (hkey.advance hprogress none (fun row hrow => ?_) nofun) nofun
      (fun _ hpending => hpending) h.ahead rfl rfl⟩
    rw [hempty] at hrow
    cases hrow
  · obtain ⟨hmem, hsmallest⟩ := List.min?_eq_some_iff.mp hmin
    obtain ⟨first, hfirst, rfl⟩ := mem_map.mp hmem
    have hregister : ∀ pending, pending ∈ ((op.setState timer.key
        (((op.states timer.key).advanced progress).setEventTimer none)).registerEventTimer timer.key
          first.timestamp).timers.timerSet .eventTime ↔
        pending = ⟨first.timestamp, timer.key, .event⟩ ∨ pending ∈ op.timers.timerSet .eventTime :=
      fun pending => mem_register
    obtain ⟨arrived, harrived, htime, -⟩ := hkey.row_of_mem (mem_of_mem_filter hfirst)
    refine ⟨rfl, h.move ?_ (hkey.advance hprogress (some first.timestamp) (fun row hrow => ?_) ?_)
      ?_ ?_ ?_ ?_ rfl⟩
    · unfold registerEventTimer setState
      dsimp only
      rw [update_self, update_idem]
      rfl
    · exact ⟨_, rfl, hsmallest _ (mem_map_of_mem hrow)⟩
    · rintro _ ⟨⟩
      exact ⟨arrived, mem_append_left _ harrived, htime⟩
    · intro time hevent
      cases hevent
      exact ⟨hleft first hfirst, (hregister _).mpr (Or.inl rfl)⟩
    · exact fun pending hpending => (hregister _).mpr (Or.inr hpending)
    · intro pending hpending
      rcases (hregister pending).mp hpending with rfl | hpending
      · exact hleft first hfirst
      · exact h.ahead pending hpending
    · exact timerSet_register_of_ne _ TimerDomain.processingTime_ne_eventTime _

/-- A timer that is not the current one of its key does nothing. -/
theorem Advancing.fireOther
    (hnot : ¬ (timer.space = .event ∧ (op.states timer.key).eventTimer = some timer.timestamp)) :
    op.fireTimer plan progress timer = (op, []) ∧
      Advancing plan lefts rights watermark progress done firing op := by
  constructor
  · unfold fireTimer
    cases hspace : timer.space with
    | event => exact if_neg fun hmatch => hnot ⟨hspace, hmatch⟩
    | cleanup =>
      refine if_neg fun hmatch => ?_
      rw [h.cleanupTimer] at hmatch
      cases hmatch
  · refine ⟨h.moved, h.waiting, fun key time hevent => ?_, h.ahead, h.processing, h.clock⟩
    refine (h.pending key time hevent).imp_right fun hfiring => ?_
    refine (mem_cons.mp hfiring).resolve_left fun heq => hnot ?_
    rw [← heq]
    exact ⟨rfl, hevent⟩

end

/-- All timers fire: some keys move, each once, and emit what they should. -/
theorem Advancing.fireTimers (hprogress : watermark < progress)
    (hdue : ∀ timer ∈ firing, timer.timestamp ≤ progress)
    (h : Advancing plan lefts rights watermark progress done firing op) :
    ∃ keys : List StateKey, keys.Nodup ∧ (∀ key ∈ keys, key ∉ done) ∧
      (fireTimers plan progress firing op).2 =
        keys.flatMap (plan.expected lefts rights · watermark progress) ∧
      Advancing plan lefts rights watermark progress (keys ++ done) []
        (fireTimers plan progress firing op).1 := by
  induction firing generalizing op done with
  | nil => exact ⟨[], nodup_nil, nofun, rfl, h⟩
  | cons timer firing ih =>
    obtain ⟨htimer, hrest⟩ := forall_mem_cons.mp hdue
    by_cases hmatch : timer.space = .event ∧ (op.states timer.key).eventTimer = some timer.timestamp
    · obtain ⟨hnew, houtput, hmoved⟩ := h.fireMatching hprogress htimer hmatch.1 hmatch.2
      obtain ⟨keys, hnodup, hdisjoint, hemitted, hfinal⟩ := ih hrest hmoved
      refine ⟨timer.key :: keys, nodup_cons.mpr ⟨?_, hnodup⟩, ?_, ?_, ?_⟩
      · exact fun hmem => hdisjoint timer.key hmem (mem_cons_self ..)
      · intro key hkey
        rcases mem_cons.mp hkey with rfl | hkey
        · exact hnew
        · exact fun hdone => hdisjoint key hkey (mem_cons_of_mem _ hdone)
      · rw [fireTimers, flatMap_cons, ← hemitted, ← houtput]
      · refine hfinal.congr fun key => ?_
        simp only [cons_append, mem_cons, mem_append]
        tauto
    · obtain ⟨hsame, hmoved⟩ := h.fireOther hmatch
      obtain ⟨keys, hnodup, hdisjoint, hemitted, hfinal⟩ := ih hrest hmoved
      refine ⟨keys, hnodup, hdisjoint, ?_, ?_⟩
      · rw [fireTimers, hsame]
        exact hemitted
      · rw [fireTimers, hsame]
        exact hfinal

/-- **The watermark moves.**  Every key emits what it should, each at one place of the output. -/
theorem Inv.advanceEventTime (h : Inv plan lefts rights watermark [] op)
    (hprogress : watermark < progress) :
    (∃ keys : List StateKey, keys.Nodup ∧ (op.advanceEventTime plan progress).2 =
        keys.flatMap (plan.expected lefts rights · watermark progress) ∧
      ∀ key ∉ keys, plan.expected lefts rights key watermark progress = []) ∧
    Inv plan lefts rights progress [] (op.advanceEventTime plan progress).1 := by
  have hfire : op.advanceEventTime plan progress =
      ({ op with currentEventTime := progress } : Operator ρ).fire plan .eventTime progress := by
    rw [Operator.advanceEventTime, if_neg (by rw [h.clock]; exact not_le.mpr hprogress)]
  obtain ⟨start, hstart⟩ : ∃ start : Operator ρ, { op with
    currentEventTime := progress
    timers := (op.timers.advance .eventTime progress).2 } = start := ⟨_, rfl⟩
  have hadvancing : Advancing plan lefts rights watermark progress []
      (groupByKey (op.timers.advance .eventTime progress).1) start := by
    rw [← hstart]
    refine ⟨nofun, fun key _ => h.keys key, fun key time hevent => ?_,
      fun timer htimer => ?_, ?_, rfl⟩
    · have hpending := (h.pending key time hevent).resolve_right not_mem_nil
      by_cases hdue : time ≤ progress
      · exact Or.inr (mem_groupByKey.mpr (mem_due.mpr ⟨hpending, hdue⟩))
      · exact Or.inl (mem_advance.mpr ⟨hpending, not_le.mp hdue⟩)
    · exact lt_of_mem_advance op.timers .eventTime htimer
    · exact (timerSet_advance_of_ne _ TimerDomain.processingTime_ne_eventTime _).trans h.processing
  have hdue : ∀ timer ∈ groupByKey (op.timers.advance .eventTime progress).1,
      timer.timestamp ≤ progress :=
    fun timer htimer => (mem_due.mp (mem_groupByKey.mp htimer)).2
  obtain ⟨keys, hnodup, -, houtput, hfinal⟩ := hadvancing.fireTimers hprogress hdue
  rw [append_nil] at hfinal
  -- the timer of a key that has not moved lies ahead, and its rows are not due
  have hidle : ∀ key ∉ keys, KeyInv plan lefts rights progress key
      ((fireTimers plan progress (groupByKey (op.timers.advance .eventTime progress).1)
        start).1.states key) ∧ plan.expected lefts rights key watermark progress = [] := by
    intro key hkey
    refine (hfinal.waiting key hkey).idle hprogress fun row hrow => ?_
    obtain ⟨time, hevent, hle⟩ := (hfinal.waiting key hkey).timer row hrow
    have hpending := (hfinal.pending key time hevent).resolve_right not_mem_nil
    exact (hfinal.ahead _ hpending).trans_le hle
  have hresult : Inv plan lefts rights progress [] (fireTimers plan progress
      (groupByKey (op.timers.advance .eventTime progress).1) start).1 := by
    refine ⟨fun key => ?_, hfinal.pending, hfinal.processing, hfinal.clock⟩
    by_cases hkey : key ∈ keys
    · exact (hfinal.moved key hkey).1
    · exact (hidle key hkey).1
  rw [hfire]
  refine ⟨⟨keys, hnodup, ?_, fun key hkey => (hidle key hkey).2⟩, ?_⟩
  · rw [← houtput, ← hstart]
    rfl
  · have hwritten :=
      hresult.writeStates ((op.timers.advance .eventTime progress).1.map TimerKey.key)
    rw [← hstart] at hwritten
    exact hwritten

end Watermark

/-! ## Runs -/

/-- The rows of a side that arrive with a call; a batch that is too long is refused. -/
def Event.arrivals (side : Side) : Event ρ → List (InputRow ρ)
  | .rows side' batch _ => if side' = side ∧ batch.length ≤ 2 ^ 31 then batch else []
  | .eventTime _ => []
  | .processingTime _ => []

theorem Event.arrivals_rows (side side' : Side) (batch : List (InputRow ρ)) (clock : Int) :
    (Event.rows side' batch clock).arrivals side =
      if side' = side ∧ batch.length ≤ 2 ^ 31 then batch else [] := rfl

/-- The rows of a side that have arrived. -/
def arrivals (events : List (Event ρ)) (side : Side) : List (InputRow ρ) :=
  events.flatMap (Event.arrivals side)

/-- The watermark after a call. -/
def Event.watermark (current : Int) : Event ρ → Int
  | .rows _ _ _ => current
  | .eventTime progress => max current progress
  | .processingTime _ => current

/-- The watermark after some calls. -/
def watermarkOf (events : List (Event ρ)) : Int := events.foldl Event.watermark I64.min

/-- No row is late. -/
def Event.OnTime (current : Int) : Event ρ → Prop
  | .rows _ batch _ => ∀ row ∈ batch, current < row.time
  | .eventTime _ => True
  | .processingTime _ => True

/-- Every row of a run arrives beyond the watermark of that moment. -/
def OnTime (events : List (Event ρ)) : Prop :=
  ∀ before event after, events = before ++ event :: after → event.OnTime (watermarkOf before)

/-- The output of a call. -/
def emitted : Except StateError (List (OutputRow ρ)) → List (OutputRow ρ)
  | .ok output => output
  | .error _ => []

/-- What a call emits. -/
def Operator.emits (plan : Plan) (op : Operator ρ) : Event ρ → List (OutputRow ρ)
  | .rows side batch clock => emitted (Operator.processArrow plan side batch clock op).1
  | .eventTime progress => (op.advanceEventTime plan progress).2
  | .processingTime timestamp => (op.advanceProcessingTime plan timestamp).2

section Run

variable {watermark : Int}

/-- The arrivals of the two sides after the rows of a batch. -/
def arriveAll (side : Side) (rows : List (InputRow ρ)) (arrived : Side → List (InputRow ρ)) :
    Side → List (InputRow ρ) :=
  update arrived side (arrived side ++ rows)

theorem arriveAll_cons (side : Side) (row : InputRow ρ) (rows : List (InputRow ρ))
    (arrived : Side → List (InputRow ρ)) :
    arriveAll side (row :: rows) arrived = arriveAll side rows (arrive side row arrived) := by
  unfold arriveAll arrive
  rw [update_self, update_idem, append_assoc]
  rfl

variable {rows : List (InputRow ρ)}

section

variable (hmode : plan.mode = .eventTime)
    (hretention : plan.minStateRetentionMillis ≤ 1) (side : Side)
include hmode hretention side

theorem Inv.processRows (first : Nat) (htimes : ∀ row ∈ rows, watermark < row.time)
    (hfew : (arriveAll side rows arrived .left).length < 2 ^ 64)
    (h : Inv plan (arrived .left) (arrived .right) watermark [] op) :
    (processRows plan side first rows op).2 = [] ∧
      Inv plan (arriveAll side rows arrived .left) (arriveAll side rows arrived .right) watermark []
        (processRows plan side first rows op).1 := by
  induction rows generalizing op arrived first with
  | nil =>
    have hsame : arriveAll side [] arrived = arrived := by
      rw [arriveAll, append_nil, update_eq_self]
    rw [hsame]
    exact ⟨rfl, h⟩
  | cons row rows ih =>
    obtain ⟨hrow, hrest⟩ := forall_mem_cons.mp htimes
    have hroom : side = .left → (arrived .left).length < 2 ^ 64 - 1 := by
      rintro rfl
      rw [arriveAll, update_self, length_append, length_cons] at hfew
      omega
    have hchange : op.processChange plan side row first =
        (op.processEventChange plan side row, []) := by
      rw [processChange, hmode]
    rw [arriveAll_cons] at hfew ⊢
    rw [processRows, hchange]
    exact ih (first + 1) hrest hfew (h.processEventChange hmode hretention side hrow hroom)

/-- A batch on time keeps the invariant and emits nothing. -/
theorem Inv.processArrow (clock : Int) (htimes : ∀ row ∈ rows, watermark < row.time)
    (hfew : (arrived .left ++ (Event.rows side rows clock).arrivals .left).length < 2 ^ 64)
    (h : Inv plan (arrived .left) (arrived .right) watermark [] op) :
    op.emits plan (.rows side rows clock) = [] ∧
      Inv plan (arrived .left ++ (Event.rows side rows clock).arrivals .left)
        (arrived .right ++ (Event.rows side rows clock).arrivals .right) watermark []
        (op.step plan (.rows side rows clock)) := by
  obtain ⟨moved, hmoved⟩ : ∃ moved : Operator ρ,
    { op with currentProcessingTime := max op.currentProcessingTime clock } = moved := ⟨_, rfl⟩
  have hinv : Inv plan (arrived .left) (arrived .right) watermark [] moved := by
    rw [← hmoved]
    exact ⟨h.keys, h.pending, h.processing, h.clock⟩
  by_cases hlength : rows.length ≤ 2 ^ 31
  · have hprocess : Operator.processArrow plan side rows clock op =
        (.ok (Operator.processRows plan side 0 rows moved).2,
          (Operator.processRows plan side 0 rows moved).1.writeStates (rows.map InputRow.key)) := by
      rw [Operator.processArrow, ← hmoved]
      exact if_pos hlength
    have harrive : ∀ side', arrived side' ++ (Event.rows side rows clock).arrivals side' =
        arriveAll side rows arrived side' := by
      intro side'
      rw [Event.arrivals_rows, arriveAll]
      by_cases hside : side' = side
      · rw [hside, update_self, if_pos ⟨rfl, hlength⟩]
      · rw [update_of_ne hside, if_neg fun hboth => hside hboth.1.symm, append_nil]
    rw [harrive] at hfew
    obtain ⟨houtput, hrows⟩ := hinv.processRows hmode hretention side 0 htimes hfew
    show emitted (Operator.processArrow plan side rows clock op).1 = [] ∧
      Inv plan _ _ watermark [] (Operator.processArrow plan side rows clock op).2
    rw [hprocess, harrive, harrive]
    exact ⟨houtput, hrows.writeStates _⟩
  · have hprocess : Operator.processArrow plan side rows clock op =
        (.error (.execution "temporal join batch exceeds i32 rows"), moved) := by
      rw [Operator.processArrow, ← hmoved]
      exact if_neg hlength
    have harrive : ∀ side', (Event.rows side rows clock).arrivals side' = [] :=
      fun side' => if_neg fun hboth => hlength hboth.2
    show emitted (Operator.processArrow plan side rows clock op).1 = [] ∧
      Inv plan _ _ watermark [] (Operator.processArrow plan side rows clock op).2
    rw [hprocess, harrive, harrive, append_nil, append_nil]
    exact ⟨rfl, hinv⟩

end

/-- Without processing timers the processing clock does nothing. -/
theorem Inv.advanceProcessingTime (h : Inv plan lefts rights watermark [] op) (timestamp : Int) :
    (op.advanceProcessingTime plan timestamp).2 = [] ∧
      Inv plan lefts rights watermark [] (op.advanceProcessingTime plan timestamp).1 := by
  unfold Operator.advanceProcessingTime
  split_ifs with hclock
  · exact ⟨rfl, h⟩
  · have hdue : (op.timers.advance .processingTime timestamp).1 = [] := by
      show (op.timers.timerSet .processingTime).filter _ = []
      rw [h.processing]
      rfl
    have hset : (op.timers.advance .processingTime timestamp).2.timerSet .processingTime = [] := by
      refine eq_nil_iff_forall_not_mem.mpr fun timer htimer => ?_
      have hmem := (mem_advance.mp htimer).1
      rw [h.processing] at hmem
      cases hmem
    have hevent : (op.timers.advance .processingTime timestamp).2.timerSet .eventTime =
        op.timers.timerSet .eventTime :=
      timerSet_advance_of_ne _ TimerDomain.processingTime_ne_eventTime.symm _
    have hmoved : Inv plan lefts rights watermark [] { op with
        currentProcessingTime := timestamp
        timers := (op.timers.advance .processingTime timestamp).2 } := by
      refine ⟨h.keys, fun key time htimer => Or.inl ?_, hset, h.clock⟩
      rw [hevent]
      exact (h.pending key time htimer).resolve_right not_mem_nil
    unfold fire
    dsimp only
    rw [hdue]
    exact ⟨rfl, hmoved.writeStates []⟩

theorem inv_fresh : Inv plan [] [] I64.min [] ({} : Operator ρ) :=
  ⟨fun _ => ⟨rfl, List.Pairwise.nil, nofun, Nat.le_refl 0, List.Pairwise.nil, fun _ _ => rfl, nofun,
    rfl, nofun, nofun⟩, nofun, rfl, rfl⟩

theorem arrivals_append (events later : List (Event ρ)) (side : Side) :
    arrivals (events ++ later) side = arrivals events side ++ arrivals later side :=
  flatMap_append ..

section

variable (events : List (Event ρ)) (event : Event ρ)

theorem arrivals_concat (side : Side) :
    arrivals (events ++ [event]) side = arrivals events side ++ event.arrivals side := by
  rw [arrivals_append, arrivals, arrivals, flatMap_singleton]

theorem watermarkOf_concat :
    watermarkOf (events ++ [event]) = event.watermark (watermarkOf events) := by
  rw [watermarkOf, foldl_append]
  rfl

theorem run_concat :
    run plan (events ++ [event]) = (run plan events).step plan event := by
  rw [run, foldl_append]
  rfl

end

variable {events later : List (Event ρ)}

theorem OnTime.of_append (h : OnTime (events ++ later)) : OnTime events :=
  fun before event after hevents =>
  h before event (after ++ later) (by rw [hevents]; simp)

theorem onTime_nil : OnTime ([] : List (Event ρ)) := by
  intro before event after hevents
  simp at hevents

theorem OnTime.concat (h : OnTime events) {event : Event ρ}
    (hevent : event.OnTime (watermarkOf events)) : OnTime (events ++ [event]) := by
  intro before event' after hevents
  rcases eq_nil_or_concat after with rfl | ⟨init, last, rfl⟩
  · obtain ⟨rfl, heq⟩ := append_inj' hevents rfl
    rw [← (List.cons.inj heq).1]
    exact hevent
  · rw [concat_eq_append, ← cons_append, ← append_assoc] at hevents
    exact h before event' init (append_inj' hevents rfl).1

/-- The invariant holds after every run on time. -/
theorem inv_run (hmode : plan.mode = .eventTime) (hretention : plan.minStateRetentionMillis ≤ 1)
    (htime : OnTime events)
    (hfew : (arrivals events .left).length < 2 ^ 64) :
    Inv plan (arrivals events .left) (arrivals events .right) (watermarkOf events) []
        (run plan events) := by
  induction events using List.reverseRecOn with
  | nil => exact inv_fresh
  | append_singleton events event ih =>
    rw [arrivals_concat] at hfew
    have hshort : (arrivals events .left).length < 2 ^ 64 := by
      rw [length_append] at hfew
      omega
    have hinv := ih htime.of_append hshort
    have honTime : event.OnTime (watermarkOf events) := htime events event [] rfl
    rw [arrivals_concat, arrivals_concat, watermarkOf_concat, run_concat]
    cases event with
    | rows side rows clock => exact (hinv.processArrow hmode hretention side clock honTime hfew).2
    | eventTime watermark =>
      show Inv plan (_ ++ []) (_ ++ []) (max (watermarkOf events) watermark) [] _
      rw [append_nil, append_nil]
      by_cases hprogress : watermarkOf events < watermark
      · rw [max_eq_right hprogress.le]
        exact (hinv.advanceEventTime hprogress).2
      · rw [max_eq_left (not_lt.mp hprogress)]
        have hsame : (run plan events).step plan (.eventTime watermark) = run plan events := by
          show ((run plan events).advanceEventTime plan watermark).1 = _
          rw [advanceEventTime, if_pos (by rw [hinv.clock]; exact not_lt.mp hprogress)]
        rw [hsame]
        exact hinv
    | processingTime timestamp =>
      show Inv plan (_ ++ []) (_ ++ []) (watermarkOf events) [] _
      rw [append_nil, append_nil]
      exact (hinv.advanceProcessingTime timestamp).2

/-- What arrives later lies beyond the watermark. -/
theorem le_watermarkOf_append (events later : List (Event ρ)) :
    watermarkOf events ≤ watermarkOf (events ++ later) := by
  induction later using List.reverseRecOn with
  | nil => rw [append_nil]
  | append_singleton later event ih =>
    rw [← append_assoc, watermarkOf_concat]
    refine ih.trans ?_
    cases event with
    | rows side rows clock => exact le_refl _
    | eventTime watermark => exact le_max_left _ _
    | processingTime timestamp => exact le_refl _

theorem lt_time_of_later (h : OnTime (events ++ later)) {side : Side}
    (hrow : row ∈ arrivals later side) : watermarkOf events < row.time := by
  obtain ⟨event, hevent, hmem⟩ := mem_flatMap.mp hrow
  obtain ⟨before, after, rfl⟩ := append_of_mem hevent
  have honTime := h (events ++ before) event after (by simp)
  cases event with
  | rows side' rows clock =>
    have hin : row ∈ rows := by
      rw [Event.arrivals_rows] at hmem
      split_ifs at hmem
      · exact hmem
      · cases hmem
    exact (le_watermarkOf_append events before).trans_lt (honTime row hin)
  | eventTime watermark => cases hmem
  | processingTime timestamp => cases hmem

/-- Later arrivals do not change what is expected up to the watermark. -/
theorem expected_append (h : OnTime (events ++ later))
    {progress : Int} (hprogress : progress ≤ watermarkOf events) (key :
      StateKey) (watermark : Int) :
    plan.expected (arrivals (events ++ later) .left)
      (arrivals (events ++ later) .right) key watermark
        progress =
      plan.expected (arrivals events .left) (arrivals events .right) key watermark progress := by
  have hlate : ∀ side, ∀ row ∈ ofKey key (arrivals later side), progress < row.time :=
    fun side row hrow => hprogress.trans_lt (lt_time_of_later h (mem_of_mem_filter hrow))
  unfold Plan.expected
  rw [arrivals_append, arrivals_append, ofKey_append, filter_append]
  have hnone : (ofKey key (arrivals later .left)).filter
      (fun row => watermark < row.time ∧ row.time ≤ progress) = [] := by
    refine filter_eq_nil_iff.mpr fun row hrow hin => ?_
    have := hlate .left row hrow
    have hbounds : watermark < row.time ∧ row.time ≤ progress := by simpa using hin
    omega
  rw [hnone, append_nil]
  refine filterMap_congr fun row hrow => ?_
  have hbounds : watermark < row.time ∧ row.time ≤ progress := by
    simpa using (mem_filter.mp hrow).2
  rw [Plan.changes, ofKey_append, map_append, latest_append_of_lt]
  · rfl
  · intro change hchange
    obtain ⟨row', hrow', rfl⟩ := mem_map.mp hchange
    exact hbounds.2.trans_lt (hlate .right row' hrow')

end Run

/-- **What a call emits.**  In every run whose rows arrive beyond the
watermark, a call that does not move the watermark emits nothing, and one that moves it emits, for
every key, the left rows of the whole run between the two watermarks, in the order of their arrival,
each joined with the latest right change of the whole run up to its time; the keys come one after
the other.

The numbers of the left rows wrap around after `2 ^ 64` rows, and the order is lost then. -/
theorem emits_eq_expected (plan : Plan) (hmode : plan.mode = .eventTime)
    (hretention : plan.minStateRetentionMillis ≤ 1) (events : List (Event ρ))
    (htime : OnTime events) (hfew : (arrivals events .left).length < 2 ^ 64)
    (before : List (Event ρ)) (event : Event ρ) (after : List (Event ρ))
    (hevents : events = before ++ event :: after) :
    ∃ keys : List StateKey, keys.Nodup ∧
      (run plan before).emits plan event = keys.flatMap (plan.expected (arrivals events .left)
        (arrivals events .right) · (watermarkOf before) (event.watermark (watermarkOf before))) ∧
      ∀ key ∉ keys, plan.expected (arrivals events .left) (arrivals events .right) key
        (watermarkOf before) (event.watermark (watermarkOf before)) = [] := by
  have hsplit : events = (before ++ [event]) ++ after := by rw [hevents]; simp
  have htimeSplit : OnTime ((before ++ [event]) ++ after) := hsplit ▸ htime
  have htimeBefore : OnTime before := OnTime.of_append (hevents ▸ htime)
  have hlength : (arrivals before .left ++ event.arrivals .left).length < 2 ^ 64 := by
    rw [← arrivals_concat]
    refine Nat.lt_of_le_of_lt ?_ hfew
    rw [hsplit, arrivals_append (before ++ [event]), length_append]
    exact Nat.le_add_right _ _
  have hinv : Inv plan (arrivals before .left) (arrivals before .right) (watermarkOf before) []
      (run plan before) := by
    refine inv_run hmode hretention htimeBefore ?_
    rw [length_append] at hlength
    omega
  -- nothing that arrives later is looked at
  have hexpected : ∀ key, plan.expected (arrivals events .left) (arrivals events .right) key
      (watermarkOf before) (event.watermark (watermarkOf before)) =
      plan.expected (arrivals (before ++ [event]) .left) (arrivals (before ++ [event]) .right) key
        (watermarkOf before) (event.watermark (watermarkOf before)) := by
    intro key
    rw [hsplit, expected_append htimeSplit (by rw [watermarkOf_concat])]
  have hnothing : ∀ key progress, progress ≤ watermarkOf before →
      plan.expected (arrivals (before ++ [event]) .left) (arrivals (before ++ [event]) .right) key
        (watermarkOf before) progress = [] := by
    intro key progress hprogress
    refine filterMap_eq_nil_iff.mpr fun row hrow => ?_
    have hbounds : watermarkOf before < row.time ∧ row.time ≤ progress := by
      simpa using (mem_filter.mp hrow).2
    omega
  simp only [hexpected]
  cases event with
  | rows side rows clock =>
    have honTime := htime before (.rows side rows clock) after hevents
    refine ⟨[], nodup_nil, ?_, fun key _ => hnothing key _ (le_refl _)⟩
    exact (hinv.processArrow hmode hretention side clock honTime hlength).1
  | eventTime progress =>
    have hsame : ∀ side, arrivals (before ++ [Event.eventTime progress]) side =
        arrivals before side := by
      intro side
      rw [arrivals_concat]
      exact append_nil _
    by_cases hprogress : watermarkOf before < progress
    · have hmax : (Event.eventTime progress : Event ρ).watermark (watermarkOf before) = progress :=
        max_eq_right hprogress.le
      rw [hsame, hsame, hmax]
      exact (hinv.advanceEventTime hprogress).1
    · have hmax : (Event.eventTime progress : Event ρ).watermark (watermarkOf before) =
          watermarkOf before := max_eq_left (not_lt.mp hprogress)
      refine ⟨[], nodup_nil, ?_, fun key _ => hnothing key _ (le_of_eq hmax)⟩
      show ((run plan before).advanceEventTime plan progress).2 = []
      rw [Operator.advanceEventTime, if_pos (by rw [hinv.clock]; exact not_lt.mp hprogress)]
  | processingTime timestamp =>
    refine ⟨[], nodup_nil, ?_, fun key _ => hnothing key _ (le_refl _)⟩
    exact (hinv.advanceProcessingTime timestamp).1

end StreamFusion.TemporalJoin
