import StreamFusion.Lib.Changelog
import StreamFusion.Lib.Outcome
import StreamFusion.Lib.WrappingInt
import StreamFusion.State.Timers

/-!
# The temporal join

The operator of `planner/operators/temporal_join.rs` joins the rows of the left side with a version
of the right side: on processing time with the current one, on event time with the one that was
valid at the left row's time, once the watermark has passed it.  A plan with a state retention has a
cleanup timer for every key, always on processing time, and a key whose cleanup timer fires loses
its state.

As in the interval join the state of a key is changed in place, and the construction of the Arrow
output and memory accounting are left out.
-/

namespace StreamFusion.TemporalJoin

open State NativeTimerService Function
open Changelog (Kind)

/-- By which time the versions are looked up. -/
inductive TimeMode where
  | eventTime
  | processingTime
  deriving DecidableEq, Repr

/-- What a timer is for. -/
inductive TimerSpace where
  | event
  | cleanup
  deriving DecidableEq, Repr, Ord

/-- The sides of the join. -/
inductive Side where
  | left
  | right
  deriving DecidableEq, Repr

/-- The plan of the join. -/
structure Plan where
  mode : TimeMode
  /-- A left outer join; otherwise the join is an inner one. -/
  isLeft : Bool
  filterNulls : List Bool
  minStateRetentionMillis : Nat
  maxStateRetentionMillis : Nat
  min_le_max : minStateRetentionMillis ≤ maxStateRetentionMillis

/-- A row with its key and time. -/
structure InputRow (ρ : Type) where
  key : StateKey
  keyNulls : List Bool
  time : Int
  kind : Kind
  row : ρ

/-- A left row that waits for the watermark. -/
structure ProbeRow (ρ : Type) where
  sequence : Nat
  timestamp : Int
  kind : Kind
  isMatchable : Bool
  row : ρ

/-- A version of the right side. -/
structure VersionRow (ρ : Type) where
  kind : Kind
  isMatchable : Bool
  row : ρ

/-- The state of a key. -/
structure TemporalState (ρ : Type) where
  nextSequence : Nat := 0
  left : List (ProbeRow ρ) := []
  /-- The versions of the right side by time. -/
  right : List (Int × VersionRow ρ) := []
  eventTimer : Option Int := none
  cleanupTimer : Option Int := none

/-- An output row. -/
structure OutputRow (ρ : Type) where
  left : ρ
  right : Option ρ
  isMatched : Bool
  kind : Kind
  inputOrdinal : Int

variable {ρ : Type}

/-- A version replaces the one of its time. -/
def insertVersion (time : Int) (version : VersionRow ρ) : List (Int × VersionRow ρ) →
    List (Int × VersionRow ρ)
  | [] => [(time, version)]
  | entry :: entries =>
    if entry.1 < time then entry :: insertVersion time version entries
    else if entry.1 = time then (time, version) :: entries
    else (time, version) :: entry :: entries

/-- Has the key no null that the join filters? -/
def Plan.rowIsMatchable (plan : Plan) (row : InputRow ρ) : Bool :=
  (plan.filterNulls.zip row.keyNulls).all fun p => !p.1 || !p.2

/-- The due rows of the left side meet the version that was valid at their time, and versions before
the one that is valid at the watermark are dropped. -/
def emitEventRows (plan : Plan) (watermark : Int) (state : TemporalState ρ) :
    TemporalState ρ × List (OutputRow ρ) :=
  let due := (state.left.filter (·.timestamp ≤ watermark)).insertionSort fun row row' =>
    row.sequence ≤ row'.sequence
  let output := due.filterMap fun left =>
    match (state.right.filter (·.1 ≤ left.timestamp)).getLast? with
    | some (_, version) =>
      if version.kind.adds && version.isMatchable && left.isMatchable then
        some ⟨left.row, some version.row, true, left.kind, -1⟩
      else if plan.isLeft then some ⟨left.row, none, false, left.kind, -1⟩ else none
    | none => if plan.isLeft then some ⟨left.row, none, false, left.kind, -1⟩ else none
  let right := match (state.right.filter (·.1 ≤ watermark)).getLast? with
    | some (keep, _) => state.right.filter (keep ≤ ·.1)
    | none => state.right
  ({ state with left := state.left.filter (watermark < ·.timestamp), right := right }, output)

/-- Is there nothing to store? -/
def stateIsEmpty (state : TemporalState ρ) : Bool :=
  state.left.isEmpty && state.right.isEmpty && state.eventTimer.isNone && state.cleanupTimer.isNone

/-- The operator: the clocks, the states and the timers. -/
structure Operator (ρ : Type) where
  currentEventTime : Int := I64.min
  currentProcessingTime : Int := I64.min
  states : StateKey → TemporalState ρ := fun _ => {}
  timers : NativeTimerService TimerSpace := {}

namespace Operator

variable (plan : Plan) (op : Operator ρ)

/-- Sets the state of a key. -/
def setState (key : StateKey) (state : TemporalState ρ) : Operator ρ :=
  { op with states := update op.states key state }

/-- The time of a row. -/
def rowTime (row : InputRow ρ) : Int :=
  if plan.mode = .processingTime then op.currentProcessingTime else row.time

/-- Registers the event timer of a key. -/
def registerEventTimer (key : StateKey) (timestamp : Int) : Operator ρ :=
  { op.setState key { op.states key with eventTimer := some timestamp } with
    timers := op.timers.register .eventTime ⟨timestamp, key, .event⟩ }

/-- Keeps the earliest event timer of a key. -/
def registerSmallestEventTimer (key : StateKey) (timestamp : Int) : Operator ρ :=
  match (op.states key).eventTimer with
  | some current =>
    if current ≤ timestamp then op
    else registerEventTimer
      { op with timers := op.timers.delete .eventTime ⟨current, key, .event⟩ } key timestamp
  | none => op.registerEventTimer key timestamp

/-- Deletes the cleanup timer of a key. -/
def deleteCleanupTimer (key : StateKey) : Operator ρ :=
  match (op.states key).cleanupTimer with
  | some timestamp =>
    { op.setState key { op.states key with cleanupTimer := none } with
      timers := op.timers.delete .processingTime ⟨timestamp, key, .cleanup⟩ }
  | none => op

/-- A timer that leaves the state its minimal retention is kept; otherwise it is set anew. -/
def refreshCleanupTimer (key : StateKey) : Operator ρ :=
  if plan.minStateRetentionMillis ≤ 1 then
    op
  else if (op.states key).cleanupTimer.any fun timer =>
      I64.wrap (op.currentProcessingTime + I64.wrap plan.minStateRetentionMillis) ≤ timer then
    op
  else
    let deleted := op.deleteCleanupTimer key
    let timestamp := I64.wrap (op.currentProcessingTime + I64.wrap plan.maxStateRetentionMillis)
    { deleted.setState key { deleted.states key with cleanupTimer := some timestamp } with
      timers := deleted.timers.register .processingTime ⟨timestamp, key, .cleanup⟩ }

/-- A row of an event-time join is stored. -/
def processEventChange (side : Side) (row : InputRow ρ) : Operator ρ :=
  let state := op.states row.key
  let time := op.rowTime plan row
  let changed := match side with
    | .left => op.setState row.key
        { state with
          nextSequence := (state.nextSequence + 1) % 2 ^ 64
          left := state.left ++ ([⟨state.nextSequence, time, row.kind, plan.rowIsMatchable row,
            row.row⟩] : List (ProbeRow ρ)) }
    | .right => op.setState row.key
        { state with
          right := insertVersion time ⟨row.kind, plan.rowIsMatchable row, row.row⟩ state.right }
  (changed.registerSmallestEventTimer row.key time).refreshCleanupTimer plan row.key

/-- A row of a processing-time join is stored or joined. -/
def processProcessingChange (side : Side) (row : InputRow ρ) (ordinal : Int) :
    Operator ρ × List (OutputRow ρ) :=
  let state := op.states row.key
  let unmatched : List (OutputRow ρ) :=
    if plan.isLeft then [⟨row.row, none, false, row.kind, ordinal⟩] else []
  match side with
  | .right =>
    if row.kind.adds then
      ((op.setState row.key { state with
        right := [(op.currentProcessingTime,
          ⟨row.kind, plan.rowIsMatchable row, row.row⟩)] }).refreshCleanupTimer plan row.key, [])
    else
      ((op.setState row.key { state with right := [] }).deleteCleanupTimer row.key, [])
  | .left =>
    match state.right.getLast? with
    | some (_, version) =>
      if plan.rowIsMatchable row && version.isMatchable then
        (op.refreshCleanupTimer plan row.key,
          [⟨row.row, some version.row, true, row.kind, ordinal⟩])
      else (op, unmatched)
    | none => (op, unmatched)

/-- A row. -/
def processChange (side : Side) (row : InputRow ρ) (ordinal : Int) :
    Operator ρ × List (OutputRow ρ) :=
  match plan.mode with
  | .processingTime => op.processProcessingChange plan side row ordinal
  | .eventTime => (op.processEventChange plan side row, [])

/-- Rows one after the other. -/
def processRows (side : Side) (first : Nat) : List (InputRow ρ) → Operator ρ →
    Operator ρ × List (OutputRow ρ)
  | [], op => (op, [])
  | row :: rows, op =>
    let (changed, emitted) := op.processChange plan side row first
    let (final, rest) := processRows side (first + 1) rows changed
    (final, emitted ++ rest)

/-- An empty state is not written, so that its sequence starts again. -/
def writeStates (keys : List StateKey) : Operator ρ :=
  { op with
    states := fun key =>
      if key ∈ keys ∧ stateIsEmpty (op.states key) = true then {} else op.states key }

/-- A batch. -/
def processArrow (side : Side) (rows : List (InputRow ρ)) (processingTime : Int) :
    Op StateError (Operator ρ) (List (OutputRow ρ)) := fun op =>
  let op := { op with currentProcessingTime := max op.currentProcessingTime processingTime }
  if rows.length ≤ 2 ^ 31 then
    let (final, emitted) := processRows plan side 0 rows op
    (.ok emitted, final.writeStates (rows.map InputRow.key))
  else
    (.error (.execution "temporal join batch exceeds i32 rows"), op)

/-- A timer that is not the current one of its key does nothing. -/
def fireTimer (progress : Int) (timer : TimerKey TimerSpace) : Operator ρ × List (OutputRow ρ) :=
  let state := op.states timer.key
  match timer.space with
  | .event =>
    if state.eventTimer = some timer.timestamp then
      let (emitted, output) := emitEventRows plan progress { state with eventTimer := none }
      let fired := op.setState timer.key emitted
      match (emitted.left.map ProbeRow.timestamp).min? with
      | some next => (fired.registerEventTimer timer.key next, output)
      | none => (fired, output)
    else (op, [])
  | .cleanup =>
    if state.cleanupTimer = some timer.timestamp then
      let cleared := op.setState timer.key {}
      match state.eventTimer with
      | some event =>
        ({ cleared with timers := op.timers.delete .eventTime ⟨event, timer.key, .event⟩ }, [])
      | none => (cleared, [])
    else (op, [])

/-- Timers one after the other. -/
def fireTimers (progress : Int) : List (TimerKey TimerSpace) → Operator ρ →
    Operator ρ × List (OutputRow ρ)
  | [], op => (op, [])
  | timer :: timers, op =>
    let (fired, emitted) := op.fireTimer plan progress timer
    let (final, rest) := fireTimers progress timers fired
    (final, emitted ++ rest)

/-- Fires the due timers. -/
def fire (domain : TimerDomain) (progress : Int) : Operator ρ × List (OutputRow ρ) :=
  let (fired, timers) := op.timers.advance domain progress
  let (final, output) := fireTimers plan progress (groupByKey fired) { op with timers := timers }
  (final.writeStates (fired.map TimerKey.key), output)

/-- A watermark. -/
def advanceEventTime (watermark : Int) : Operator ρ × List (OutputRow ρ) :=
  if watermark ≤ op.currentEventTime then
    (op, [])
  else
    fire plan { op with currentEventTime := watermark } .eventTime watermark

/-- The clock moves on. -/
def advanceProcessingTime (timestamp : Int) : Operator ρ × List (OutputRow ρ) :=
  if timestamp ≤ op.currentProcessingTime then
    (op, [])
  else
    fire plan { op with currentProcessingTime := timestamp } .processingTime timestamp

end Operator

/-! ## The event timer of a key is pending -/

variable {plan : Plan} {op : Operator ρ}

variable (op) in
/-- The smallest timer: what it is, and that it is pending. -/
theorem Operator.registerSmallestEventTimer_spec (key : StateKey) (timestamp : Int) :
    ((op.registerSmallestEventTimer key timestamp).currentEventTime = op.currentEventTime ∧
      (op.registerSmallestEventTimer key timestamp).currentProcessingTime =
        op.currentProcessingTime ∧
      (op.registerSmallestEventTimer key timestamp).timers.timerSet .processingTime =
        op.timers.timerSet .processingTime) ∧
    ∃ time, (op.registerSmallestEventTimer key timestamp).states =
        update op.states key { op.states key with eventTimer := some time } ∧
      (time = timestamp ∨ (op.states key).eventTimer = some time) ∧
      time ≤ timestamp ∧ (∀ current, (op.states key).eventTimer = some current → time ≤ current) ∧
      (∀ timer ∈ op.timers.timerSet .eventTime, timer.key ≠ key →
        timer ∈ (op.registerSmallestEventTimer key timestamp).timers.timerSet .eventTime) ∧
      ((∀ current, (op.states key).eventTimer = some current →
          ⟨current, key, .event⟩ ∈ op.timers.timerSet .eventTime) →
        ⟨time, key, .event⟩ ∈ (op.registerSmallestEventTimer key timestamp).timers.timerSet
            .eventTime) := by
  have hne := TimerDomain.processingTime_ne_eventTime
  unfold Operator.registerSmallestEventTimer
  rcases hcurrent : (op.states key).eventTimer with _ | current
  · refine ⟨⟨rfl, rfl, timerSet_register_of_ne _ hne _⟩, timestamp, rfl, .inl rfl, le_refl _, nofun,
      fun timer htimer _ => ?_, fun _ => ?_⟩
    · exact mem_register.mpr (Or.inr htimer)
    · exact mem_register.mpr (Or.inl rfl)
  · dsimp only
    split_ifs with hle
    · refine ⟨⟨rfl, rfl, rfl⟩, current, ?_, .inr rfl, hle, ?_, fun timer htimer _ => htimer,
        fun h => h current rfl⟩
      · rw [← hcurrent, update_eq_self]
      · intro current' hcurrent'
        cases hcurrent'
        exact le_refl _
    · refine ⟨⟨rfl, rfl, ?_⟩, timestamp, rfl, .inl rfl, le_refl _, ?_, fun timer htimer hkey => ?_,
        fun _ => ?_⟩
      · refine (timerSet_register_of_ne _ hne _).trans ?_
        exact timerSet_delete_of_ne _ hne _
      · intro current' hcurrent'
        cases hcurrent'
        exact (not_le.mp hle).le
      · refine mem_register.mpr (Or.inr (mem_delete.mpr ⟨htimer, fun heq => hkey ?_⟩))
        rw [heq]
      · exact mem_register.mpr (Or.inl rfl)

/-! ## Runs -/

/-- What the operator is called with. -/
inductive Event (ρ : Type) where
  | rows (side : Side) (rows : List (InputRow ρ)) (processingTime : Int)
  | eventTime (watermark : Int)
  | processingTime (timestamp : Int)

/-- The operator after a call. -/
def Operator.step (plan : Plan) (op : Operator ρ) : Event ρ → Operator ρ
  | .rows side rows processingTime => (Operator.processArrow plan side rows processingTime op).2
  | .eventTime watermark => (op.advanceEventTime plan watermark).1
  | .processingTime timestamp => (op.advanceProcessingTime plan timestamp).1

/-- The operator after some calls. -/
def run (plan : Plan) (events : List (Event ρ)) : Operator ρ :=
  events.foldl (Operator.step plan) {}

end StreamFusion.TemporalJoin
