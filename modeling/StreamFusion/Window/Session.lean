import StreamFusion.Lib.Changelog
import StreamFusion.Lib.Outcome
import StreamFusion.Window.Assign

/-!
# The session window table function

The operator of `planner/operators/session_window_table_function.rs` collects the rows of a key into
sessions: a row opens a session that lasts for the gap, and sessions that touch are merged.  A
session is emitted, row by row, when the clock reaches its last instant, by a timer whose namespace
is the session's bounds.

Memory accounting, the encoding of the state and the counters of dropped rows are left out.  A call
that fails ends the run.
-/

namespace StreamFusion.SessionWindow

open State Window NativeTimerService List Except
open Changelog (Kind)

/-- A validated plan: the gap is positive. -/
structure Plan where
  processingTime : Bool
  sizeMillis : Int
  zone : ShiftTimeZone
  size_pos : 0 < sizeMillis

/-- A row of a batch; on event time a row without a time is dropped. -/
structure InputRow (ρ : Type) where
  key : StateKey
  time : Option Int
  kind : Kind
  row : ρ

/-- A stored row with its sequence number. -/
structure StoredEvent (ρ : Type) where
  sequence : Nat
  rowKind : Kind
  row : ρ
  deriving DecidableEq

/-- A session and its rows. -/
structure Session (ρ : Type) where
  bounds : Bounds
  events : List (StoredEvent ρ)
  deriving DecidableEq

/-- The state of a key. -/
structure GroupState (ρ : Type) where
  nextSequence : Nat := 0
  sessions : List (Session ρ) := []

/-- An output row with the bounds of its session. -/
structure OutputRow (ρ : Type) where
  row : ρ
  bounds : Bounds
  kind : Kind
  deriving DecidableEq

/-- The operator: the clocks, the states and the timers. -/
structure Operator (ρ : Type) where
  currentEventTime : Int := I64.min
  currentProcessingTime : Int := I64.min
  states : StateKey → GroupState ρ := fun _ => {}
  timers : NativeTimerService Bounds := {}

variable {ρ : Type}

/-- The bounds of the session that a row ends up in, the sessions it joins, and the others.  The
bounds grow while the sessions are gone through. -/
def merge : Bounds → List (Session ρ) → Bounds × List (Session ρ) × List (Session ρ)
  | bounds, [] => (bounds, [], [])
  | bounds, session :: sessions =>
    if bounds.start ≤ session.bounds.stop ∧ session.bounds.start ≤ bounds.stop then
      let (merged, joined, kept) := merge ⟨min bounds.start session.bounds.start,
        max bounds.stop session.bounds.stop⟩ sessions
      (merged, session :: joined, kept)
    else
      let (merged, joined, kept) := merge bounds sessions
      (merged, joined, session :: kept)

/-- The rows by sequence number. -/
def sortEvents (events : List (StoredEvent ρ)) : List (StoredEvent ρ) :=
  events.insertionSort fun event event' => event.sequence ≤ event'.sequence

/-- The sessions by bounds. -/
def sortSessions (sessions : List (Session ρ)) : List (Session ρ) :=
  sessions.insertionSort fun session session' =>
    (compare session.bounds session'.bounds).isLE = true

namespace Operator

variable (plan : Plan) (op : Operator ρ)

/-- The domain of the timers. -/
def timerDomain : TimerDomain := if plan.processingTime then .processingTime else .eventTime

/-- The clock of the operator. -/
def currentProgress : Int :=
  if plan.processingTime then op.currentProcessingTime else op.currentEventTime

/-- The timers of the sessions that are merged away are deleted. -/
def deleteTimers (key : StateKey) : List (Session ρ) → NativeTimerService Bounds →
    Except StateError (NativeTimerService Bounds)
  | [], timers => .ok timers
  | session :: sessions, timers => do
    let timestamp ← session.bounds.deadline plan.zone
    deleteTimers key sessions (timers.delete (timerDomain plan) ⟨timestamp, key, session.bounds⟩)

/-- A row joins the sessions that it touches. -/
def processChange (row : InputRow ρ) (timestamp : Int) : Except StateError (Operator ρ) := do
  let state := op.states row.key
  let (bounds, joined, kept) :=
    merge ⟨timestamp, I64.saturatingAdd timestamp plan.sizeMillis⟩ state.sessions
  let deadline ← bounds.deadline plan.zone
  if deadline ≤ op.currentProgress plan then
    .ok op
  else if state.nextSequence + 1 < 2 ^ 64 then
    let event : StoredEvent ρ := ⟨state.nextSequence, row.kind, row.row⟩
    let timers ← deleteTimers plan row.key joined.reverse op.timers
    let session : Session ρ :=
      ⟨bounds, sortEvents (event :: joined.reverse.flatMap Session.events)⟩
    .ok { op with
      states := Function.update op.states row.key
        ⟨state.nextSequence + 1, sortSessions (kept ++ [session])⟩
      timers := timers.register (timerDomain plan) ⟨deadline, row.key, bounds⟩ }
  else
    .error (.execution "session Window TVF sequence overflow")

/-- The rows of a batch that have a time, with the time in the plan's time zone. -/
def timedRows : List (InputRow ρ) → Except StateError (List (InputRow ρ × Int))
  | [] => .ok []
  | row :: rows => do
    let time := if plan.processingTime then some op.currentProcessingTime else row.time
    match time with
    | some time => do
      let timestamp ← plan.zone.toWindowTime time
      let rest ← timedRows rows
      .ok ((row, timestamp) :: rest)
    | none => timedRows rows

/-- A batch. -/
def processArrow (rows : List (InputRow ρ)) (processingTime : Int) :
    Except StateError (Operator ρ) := do
  let op := if plan.processingTime then
      { op with currentProcessingTime := max op.currentProcessingTime processingTime }
    else op
  let changes ← op.timedRows plan rows
  changes.foldlM (fun op change => op.processChange plan change.1 change.2) op

/-- The sessions of the timers that fire are emitted and leave; a key without sessions is forgotten.
The source visits the keys in the order of a hash map, here they come in the order of their
timers. -/
def fireDue (domain : TimerDomain) (timestamp : Int) : Operator ρ × List (OutputRow ρ) :=
  let (fired, timers) := op.timers.advance domain timestamp
  let isFired := fun key (session : Session ρ) =>
    fired.any fun timer => timer.key = key ∧ timer.space = session.bounds
  let output := (fired.map TimerKey.key).dedup.flatMap fun key =>
    ((op.states key).sessions.filter (isFired key)).flatMap fun session =>
      (sortEvents session.events).map fun event =>
        ⟨event.row, session.bounds, event.rowKind⟩
  let states := fun key =>
    if key ∈ fired.map TimerKey.key then
      let kept := (op.states key).sessions.filter fun session => !isFired key session
      if kept = [] then {} else ⟨(op.states key).nextSequence, kept⟩
    else op.states key
  ({ op with states := states, timers := timers }, output)

/-- The clock moves on. -/
def advanceProcessingTime (timestamp : Int) : Operator ρ × List (OutputRow ρ) :=
  if plan.processingTime = false ∨ timestamp ≤ op.currentProcessingTime then
    (op, [])
  else
    fireDue { op with currentProcessingTime := timestamp } .processingTime timestamp

end Operator

end StreamFusion.SessionWindow
