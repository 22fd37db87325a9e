import StreamFusion.Lib.Grouped
import StreamFusion.Lib.Intervals
import StreamFusion.Window.Session

/-!
# Sessions on event time

In UTC and on event time a row occupies the interval from its time to the end of the gap.  What the
operator of `Window/Session.lean` keeps for a key are the components of the rows accepted and not
yet emitted: each session is the span of one component and has its rows in the order of their
arrival (`Holds`).  The sessions of a key do not touch, so the single pass of `merge` is enough: a
session that touches the growing bounds touches the row itself (`merge_eq`).

A journal is kept beside the run (`Journal`): the rows accepted, those that wait, and for every
session emitted the rows that waited at that time.  `session_run` says what the outputs have to do
with it.
-/

namespace StreamFusion

/-- The instants from the start of the window to its end. -/
def Window.Bounds.extent (bounds : Window.Bounds) : Intervals.Extent Int :=
  ⟨bounds.start, bounds.stop⟩

namespace SessionWindow

open State Window Intervals Grouped Operator NativeTimerService Except List
open Changelog (Kind)

variable {ρ : Type}

/-! ## The clock -/

/-- A watermark. -/
def Operator.advanceEventTime (plan : Plan) (op : Operator ρ) (timestamp : Int) :
    Operator ρ × List (OutputRow ρ) :=
  if plan.processingTime = true ∨ timestamp ≤ op.currentEventTime then
    (op, [])
  else
    fireDue { op with currentEventTime := timestamp } .eventTime timestamp

/-- What the operator is called with. -/
inductive Input (ρ : Type) where
  | rows (rows : List (InputRow ρ))
  | watermark (timestamp : Int)

/-- A call, with what it emits; the time of the call has no effect on event time. -/
def Operator.stepEventTime (plan : Plan) (op : Operator ρ) :
    Input ρ → Except StateError (Operator ρ × List (OutputRow ρ))
  | .rows rows => do
    let op ← op.processArrow plan rows 0
    .ok (op, [])
  | .watermark timestamp => .ok (op.advanceEventTime plan timestamp)

/-- The operator after the calls, and everything that it has emitted. -/
def Operator.runEventTime (plan : Plan) (op : Operator ρ) :
    List (Input ρ) → Except StateError (Operator ρ × List (OutputRow ρ))
  | [] => .ok (op, [])
  | input :: inputs => do
    let (op, output) ← op.stepEventTime plan input
    let (op, outputs) ← runEventTime plan op inputs
    .ok (op, output ++ outputs)

/-! ## The journal -/

/-- A row that was accepted.  `number` counts the accepted rows of the run, `sequence` is the number
that the operator gave the row within its key. -/
structure Arrival (ρ : Type) where
  number : Nat
  key : StateKey
  time : Int
  sequence : Nat
  kind : Kind
  row : ρ

/-- The time that a row covers. -/
def Arrival.extent (plan : Plan) (arrival : Arrival ρ) : Extent Int :=
  ⟨arrival.time, I64.saturatingAdd arrival.time plan.sizeMillis⟩

/-- The stored form of a row. -/
def Arrival.event (arrival : Arrival ρ) : StoredEvent ρ :=
  ⟨arrival.sequence, arrival.kind, arrival.row⟩

/-- A session that was emitted at a watermark: its rows, and all rows of the key that had been
accepted and not been emitted by then. -/
structure Emission (ρ : Type) where
  bounds : Bounds
  clock : Int
  pending : List (Arrival ρ)
  rows : List (Arrival ρ)

/-- The output of an emission. -/
def Emission.output (emission : Emission ρ) : List (OutputRow ρ) :=
  emission.rows.map fun arrival => ⟨arrival.row, emission.bounds, arrival.kind⟩

/-- What a run has accepted, what waits and what it has emitted. -/
structure Journal (ρ : Type) where
  arrivals : List (Arrival ρ) := []
  waiting : List (Arrival ρ) := []
  emissions : List (Emission ρ) := []

/-- The bounds of the session that a row joins. -/
def Operator.merged (plan : Plan) (op : Operator ρ) (row : InputRow ρ) (timestamp : Int) : Bounds :=
  (merge ⟨timestamp, I64.saturatingAdd timestamp plan.sizeMillis⟩ (op.states row.key).sessions).1

/-- The deadline of the session that the row would end up in is above the clock. -/
def Operator.accepts (plan : Plan) (op : Operator ρ) (row : InputRow ρ) (timestamp : Int) : Bool :=
  op.currentEventTime < (op.merged plan row timestamp).stop - 1

namespace Journal

/-- The next row of the journal. -/
def arrival (journal : Journal ρ) (op : Operator ρ) (row : InputRow ρ)
    (timestamp : Int) : Arrival ρ :=
  ⟨journal.arrivals.length, row.key, timestamp, (op.states row.key).nextSequence, row.kind, row.row⟩

/-- A row is accepted. -/
def accept (journal : Journal ρ) (op : Operator ρ) (row : InputRow ρ)
    (timestamp : Int) : Journal ρ :=
  { journal with
    arrivals := journal.arrivals ++ [journal.arrival op row timestamp]
    waiting := journal.waiting ++ [journal.arrival op row timestamp] }

/-- The waiting rows of a key. -/
def waitingOf (journal : Journal ρ) (key : StateKey) : List (Arrival ρ) :=
  rowsOf Arrival.key key journal.waiting

/-- Is it a row of the session? -/
def isRow (plan : Plan) (key : StateKey) (b : Bounds) (arrival : Arrival ρ) : Bool :=
  arrival.key = key ∧ (arrival.extent plan).Inside b.extent

/-- Sessions are emitted, and their rows no longer wait. -/
def fire (plan : Plan) (journal : Journal ρ) (clock : Int)
    (sessions : List (StateKey × Bounds)) : Journal ρ :=
  { journal with
    waiting := journal.waiting.filter fun arrival =>
      !sessions.any fun session => isRow plan session.1 session.2 arrival
    emissions := journal.emissions ++ sessions.map fun session =>
      ⟨session.2, clock, journal.waitingOf session.1,
        journal.waiting.filter (isRow plan session.1 session.2)⟩ }

end Journal

/-- Rows with their times, and the journal beside them. -/
def recordChanges (plan : Plan) : Operator ρ → Journal ρ → List (InputRow ρ × Int) →
    Except StateError (Operator ρ × Journal ρ)
  | op, journal, [] => .ok (op, journal)
  | op, journal, change :: changes => do
    let next ← op.processChange plan change.1 change.2
    recordChanges plan next
      (if op.accepts plan change.1 change.2 then journal.accept op change.1 change.2 else journal)
      changes

/-- The sessions whose timers fire, key by key. -/
def Operator.firedSessions (op : Operator ρ) (timestamp : Int) : List (StateKey × Session ρ) :=
  ((op.timers.due .eventTime timestamp).map TimerKey.key).dedup.flatMap fun key =>
    ((op.states key).sessions.filter fun s => (op.timers.due .eventTime timestamp).any fun timer =>
      timer.key = key ∧ timer.space = s.bounds).map fun s => (key, s)

/-- The keys and bounds of the sessions that fire. -/
def Operator.firedBounds (op : Operator ρ) (timestamp : Int) : List (StateKey × Bounds) :=
  (op.firedSessions timestamp).map fun fired => (fired.1, fired.2.bounds)

/-- A call with its entries in the journal. -/
def recordInput (plan : Plan) (op : Operator ρ) (journal : Journal ρ) :
    Input ρ → Except StateError (Operator ρ × Journal ρ × List (OutputRow ρ))
  | .rows rows => do
    let changes ← op.timedRows plan rows
    let (op, journal) ← recordChanges plan op journal changes
    .ok (op, journal, [])
  | .watermark timestamp =>
    .ok ((op.advanceEventTime plan timestamp).1,
      if timestamp ≤ op.currentEventTime then journal
      else journal.fire plan timestamp (op.firedBounds timestamp),
      (op.advanceEventTime plan timestamp).2)

/-- A run with its journal. -/
def record (plan : Plan) (op : Operator ρ) (journal : Journal ρ) :
    List (Input ρ) → Except StateError (Operator ρ × Journal ρ × List (OutputRow ρ))
  | [] => .ok (op, journal, [])
  | input :: inputs => do
    let (op, journal, output) ← recordInput plan op journal input
    let (op, journal, outputs) ← record plan op journal inputs
    .ok (op, journal, output ++ outputs)

/-! ## The single pass -/

/-- The sessions of a key do not touch, and none of them is empty. -/
def Separate (sessions : List (Session ρ)) : Prop :=
  sessions.Pairwise (fun s s' => s.bounds.extent.Apart s'.bounds.extent) ∧
    ∀ s ∈ sessions, s.bounds.start ≤ s.bounds.stop

/-- The pass joins the sessions that touch the row, and no others. -/
theorem merge_eq (b : Bounds) {sessions : List (Session ρ)} (h : Separate sessions) :
    (merge b sessions).1.extent =
        hullAll b.extent ((sessions.filter fun s => b.extent.Touches s.bounds.extent).map
          fun s => s.bounds.extent) ∧
      (merge b sessions).2.1 = sessions.filter (fun s => b.extent.Touches s.bounds.extent) ∧
      (merge b sessions).2.2 = sessions.filter fun s => ¬ b.extent.Touches s.bounds.extent := by
  induction sessions generalizing b with
  | nil => exact ⟨rfl, rfl, rfl⟩
  | cons first sessions ih =>
    obtain ⟨hpair, hvalid⟩ := h
    obtain ⟨hfirst, hrest⟩ := pairwise_cons.mp hpair
    have hseparate : Separate sessions :=
      ⟨hrest, fun s hs => hvalid s (mem_cons_of_mem _ hs)⟩
    unfold merge
    by_cases htouch : b.extent.Touches first.bounds.extent
    · have hjoin : b.start ≤ first.bounds.stop ∧ first.bounds.start ≤ b.stop := htouch
      -- what touches the grown bounds touches the row, since it does not touch the first session
      have hsame : ∀ s ∈ sessions, (b.extent.hull first.bounds.extent).Touches s.bounds.extent ↔
          b.extent.Touches s.bounds.extent := by
        intro s hs
        constructor
        · intro hhull
          exact (htouch.of_hull (hvalid s (mem_cons_of_mem _ hs)) hhull).resolve_right (hfirst s hs)
        · intro hs
          exact hs.mono (Extent.inside_hull_left _ _) (Extent.inside_refl _)
      have hfilter : sessions.filter (fun s => (b.extent.hull first.bounds.extent).Touches
          s.bounds.extent) = sessions.filter fun s => b.extent.Touches s.bounds.extent :=
        filter_congr fun s hs => decide_eq_decide.mpr (hsame s hs)
      have hfilter' : sessions.filter (fun s => ¬ (b.extent.hull first.bounds.extent).Touches
          s.bounds.extent) = sessions.filter fun s => ¬ b.extent.Touches s.bounds.extent :=
        filter_congr fun s hs => decide_eq_decide.mpr (not_congr (hsame s hs))
      obtain ⟨hbounds, hjoined, hkept⟩ := ih ⟨min b.start first.bounds.start,
        max b.stop first.bounds.stop⟩ hseparate
      have hhull : Bounds.extent ⟨min b.start first.bounds.start, max b.stop first.bounds.stop⟩ =
          b.extent.hull first.bounds.extent := rfl
      rw [hhull, hfilter] at hbounds hjoined
      rw [hhull, hfilter'] at hkept
      rw [if_pos hjoin, filter_cons_of_pos (by simpa using htouch),
        filter_cons_of_neg (by simpa using htouch)]
      exact ⟨hbounds, by rw [← hjoined], hkept⟩
    · have hkeep : ¬ (b.start ≤ first.bounds.stop ∧ first.bounds.start ≤ b.stop) := htouch
      obtain ⟨hbounds, hjoined, hkept⟩ := ih b hseparate
      rw [if_neg hkeep, filter_cons_of_neg (by simpa using htouch),
        filter_cons_of_pos (by simpa using htouch)]
      exact ⟨hbounds, hjoined, by rw [← hkept]⟩

/-! ## The timers -/

/-- The timer of a session. -/
def sessionTimer (key : StateKey) (b : Bounds) : TimerKey Bounds :=
  ⟨max (b.stop - 1) I64.min, key, b⟩

section

variable {plan : Plan} {op : Operator ρ} {journal : Journal ρ}

theorem deadline_utc (hzone : plan.zone = .utc) (b : Bounds) :
    b.deadline plan.zone = .ok (max (b.stop - 1) I64.min) := by
  rw [hzone]
  rfl

theorem timerDomain_eventTime (hevent : plan.processingTime = false) :
    timerDomain plan = .eventTime := if_neg (by simp [hevent])

/-- The timers of the sessions are deleted, and no others. -/
theorem deleteTimers_utc (hzone : plan.zone = .utc) (hevent : plan.processingTime = false)
    (key : StateKey) (sessions : List (Session ρ)) (timers : NativeTimerService Bounds) :
    ∃ left, deleteTimers plan key sessions timers = .ok left ∧
      left.eventTime = timers.eventTime.filter fun timer =>
        timer ∉ sessions.map fun s => sessionTimer key s.bounds := by
  induction sessions generalizing timers with
  | nil => exact ⟨timers, rfl, by simp⟩
  | cons session sessions ih =>
    obtain ⟨left, hleft, hevents⟩ := ih (timers.delete .eventTime (sessionTimer key session.bounds))
    refine ⟨left, ?_, ?_⟩
    · rw [deleteTimers, deadline_utc hzone, ok_bind, timerDomain_eventTime hevent]
      exact hleft
    · have hdelete : (timers.delete .eventTime (sessionTimer key session.bounds)).eventTime =
          timers.eventTime.filter (· ≠ sessionTimer key session.bounds) := rfl
      rw [hevents, hdelete, filter_filter]
      refine filter_congr fun timer _ => ?_
      rw [Bool.and_comm]
      simp

theorem insertTimer_perm (timer : TimerKey Bounds) (timers : List (TimerKey Bounds)) :
    (insertTimer timer timers).Perm (timer :: timers) := by
  induction timers with
  | nil => exact List.Perm.refl _
  | cons first timers ih =>
    unfold insertTimer
    split
    · exact (ih.cons first).trans (List.Perm.swap _ _ _)
    · exact List.Perm.refl _

theorem nodup_register {timers : NativeTimerService Bounds} (h : timers.eventTime.Nodup)
    (timer : TimerKey Bounds) : (timers.register .eventTime timer).eventTime.Nodup := by
  unfold register
  split
  · exact h
  · rename_i hnew
    exact (insertTimer_perm timer timers.eventTime).nodup_iff.mpr (nodup_cons.mpr ⟨hnew, h⟩)

/-! ## What holds between calls -/

/-- The sessions of every key are the components of the rows that wait, with their rows in the order
of arrival, each session lies in the future, and the timers are those of the sessions. -/
structure Holds (plan : Plan) (op : Operator ρ) (journal : Journal ρ) : Prop where
  covers : ∀ key, Covers (Arrival.extent plan) (journal.waitingOf key)
    ((op.states key).sessions.map fun s => s.bounds.extent)
  events : ∀ key, ∀ s ∈ (op.states key).sessions, s.events =
    (itemsIn (Arrival.extent plan) (journal.waitingOf key) s.bounds.extent).map Arrival.event
  increasing : ∀ key, (journal.waitingOf key).Pairwise fun a a' => a.sequence < a'.sequence
  below : ∀ key, ∀ a ∈ journal.waitingOf key, a.sequence < (op.states key).nextSequence
  count : ∀ key, (op.states key).nextSequence ≤ journal.arrivals.length
  timers : ∀ timer, timer ∈ op.timers.eventTime ↔
    ∃ s ∈ (op.states timer.key).sessions, timer = sessionTimer timer.key s.bounds
  nodup : op.timers.eventTime.Nodup
  future : ∀ key, ∀ s ∈ (op.states key).sessions, op.currentEventTime < s.bounds.stop - 1
  started : I64.min ≤ op.currentEventTime

theorem holds_fresh (plan : Plan) : Holds plan ({} : Operator ρ) {} where
  covers _ := covers_nil
  events _ _ hs := absurd hs not_mem_nil
  increasing _ := List.Pairwise.nil
  below _ _ ha := absurd ha not_mem_nil
  count _ := Nat.zero_le _
  timers _ := ⟨fun h => absurd h not_mem_nil, fun ⟨_, hs, _⟩ => absurd hs not_mem_nil⟩
  nodup := nodup_nil
  future _ _ hs := absurd hs not_mem_nil
  started := le_refl _

theorem extent_valid (plan : Plan) (a : Arrival ρ) : (a.extent plan).lo ≤ (a.extent plan).hi :=
  I64.le_saturatingAdd (le_of_lt plan.size_pos)

theorem Holds.separate (h : Holds plan op journal) (key : StateKey) :
    Separate (op.states key).sessions := by
  refine ⟨pairwise_map.mp (h.covers key).apart, fun s hs => ?_⟩
  exact (h.covers key).lo_le_hi (fun a _ => extent_valid plan a) _ (mem_map_of_mem hs)

/-! ## A row -/

/-- The sessions that do not touch the bounds. -/
def keptSessions (b : Bounds) (sessions : List (Session ρ)) : List (Session ρ) :=
  sessions.filter fun s => ¬ b.extent.Touches s.bounds.extent

/-- The sessions that touch the bounds. -/
def joinedSessions (b : Bounds) (sessions : List (Session ρ)) : List (Session ρ) :=
  sessions.filter fun s => b.extent.Touches s.bounds.extent

/-- The bounds of a row on its own. -/
def rowBounds (plan : Plan) (timestamp : Int) : Bounds :=
  ⟨timestamp, I64.saturatingAdd timestamp plan.sizeMillis⟩

variable {row : InputRow ρ} {timestamp : Int}

section

variable (hzone : plan.zone = .utc) (hevent : plan.processingTime = false)
include hzone hevent

theorem processChange_late (hstarted : I64.min ≤ op.currentEventTime)
    (hlate : op.accepts plan row timestamp = false) :
    op.processChange plan row timestamp = .ok op := by
  have hclock : op.currentProgress plan = op.currentEventTime := if_neg (by simp [hevent])
  have hstop : (op.merged plan row timestamp).stop - 1 ≤ op.currentEventTime := by
    simpa [accepts] using hlate
  unfold processChange
  dsimp only
  rw [deadline_utc hzone, ok_bind, hclock]
  exact if_pos (max_le hstop hstarted)

/-- What a row that is accepted does to the operator. -/
structure Takes (plan : Plan) (op : Operator ρ) (row : InputRow ρ) (timestamp : Int)
    (op' : Operator ρ) : Prop where
  clock : op'.currentEventTime = op.currentEventTime
  others : ∀ key, row.key ≠ key → op'.states key = op.states key
  next : (op'.states row.key).nextSequence = (op.states row.key).nextSequence + 1
  sessions : (op'.states row.key).sessions.Perm
    (keptSessions (rowBounds plan timestamp) (op.states row.key).sessions ++
      [⟨op.merged plan row timestamp, sortEvents
        (⟨(op.states row.key).nextSequence, row.kind, row.row⟩ ::
          (joinedSessions (rowBounds plan timestamp)
            (op.states row.key).sessions).reverse.flatMap Session.events)⟩])
  timers : ∀ timer, timer ∈ op'.timers.eventTime ↔
    timer = sessionTimer row.key (op.merged plan row timestamp) ∨
      timer ∈ op.timers.eventTime ∧
        ∀ s ∈ joinedSessions (rowBounds plan timestamp) (op.states row.key).sessions,
          timer ≠ sessionTimer row.key s.bounds
  nodup : op.timers.eventTime.Nodup → op'.timers.eventTime.Nodup

/-- An accepted row is taken into its session. -/
theorem processChange_accepted (hseparate : Separate (op.states row.key).sessions)
    (haccept : op.accepts plan row timestamp = true)
    (hroom : (op.states row.key).nextSequence + 1 < 2 ^ 64) :
    ∃ op', op.processChange plan row timestamp = .ok op' ∧ Takes plan op row timestamp op' := by
  obtain ⟨-, hjoined, hkept⟩ := merge_eq (rowBounds plan timestamp) hseparate
  have hclock : op.currentProgress plan = op.currentEventTime := if_neg (by simp [hevent])
  have hstop : op.currentEventTime < (op.merged plan row timestamp).stop - 1 := by
    simpa [accepts] using haccept
  have hopen : ¬ max ((merge ⟨timestamp, I64.saturatingAdd timestamp plan.sizeMillis⟩
      (op.states row.key).sessions).1.stop - 1) I64.min ≤ op.currentEventTime :=
    not_le.mpr (lt_max_of_lt_left hstop)
  obtain ⟨left, hleft, hevents⟩ := deleteTimers_utc hzone hevent row.key
    (joinedSessions (rowBounds plan timestamp) (op.states row.key).sessions).reverse op.timers
  have hdelete : deleteTimers plan row.key ((op.states row.key).sessions.filter fun s =>
      (Bounds.extent ⟨timestamp, I64.saturatingAdd timestamp plan.sizeMillis⟩).Touches
        s.bounds.extent).reverse op.timers = .ok left := hleft
  unfold processChange
  dsimp only
  rw [deadline_utc hzone, ok_bind, hclock, if_neg hopen, if_pos hroom]
  unfold rowBounds at hjoined hkept
  rw [hjoined, hkept, hdelete, ok_bind, timerDomain_eventTime hevent]
  refine ⟨_, rfl, rfl, fun key hkey => Function.update_of_ne (Ne.symm hkey) _ _, ?_, ?_,
    fun timer => ?_, fun hnodup => ?_⟩
  · dsimp only
    rw [Function.update_self]
  · dsimp only
    rw [Function.update_self]
    exact perm_insertionSort _ _
  · have hregister : timer ∈ (left.register .eventTime
        (sessionTimer row.key (op.merged plan row timestamp))).eventTime ↔
        timer = sessionTimer row.key (op.merged plan row timestamp) ∨ timer ∈ left.eventTime :=
      @NativeTimerService.mem_register _ _ _ left .eventTime _ timer
    rw [hevents] at hregister
    refine hregister.trans (or_congr_right ?_)
    rw [mem_filter, decide_eq_true_eq, mem_map]
    refine and_congr_right fun _ => ⟨fun hnot s hs heq => ?_, fun hall => ?_⟩
    · exact hnot ⟨s, mem_reverse.mpr hs, heq.symm⟩
    · rintro ⟨s, hs, heq⟩
      exact hall s (mem_reverse.mp hs) heq.symm
  · refine nodup_register ?_ _
    rw [hevents]
    exact hnodup.filter _

end

/-- Events come out in the order of their sequence numbers. -/
theorem sortEvents_eq {events sorted : List (StoredEvent ρ)} (hperm : events.Perm sorted)
    (hsorted : sorted.Pairwise fun e e' => e.sequence < e'.sequence) :
        sortEvents events = sorted := by
  have hnodup : (sorted.map StoredEvent.sequence).Nodup :=
    pairwise_map.mpr (hsorted.imp ne_of_lt)
  have hsorts : (sortEvents events).Perm sorted := (perm_insertionSort _ _).trans hperm
  refine List.Perm.eq_of_pairwise ?_ (pairwise_insertionSort _ _) (hsorted.imp le_of_lt) hsorts
  intro e e' he he' hle hle'
  exact inj_on_of_nodup_map hnodup (hsorts.mem_iff.mp he) he' (le_antisymm hle hle')

theorem waitingOf_accept (journal : Journal ρ) (op : Operator ρ) (row : InputRow ρ)
    (timestamp : Int) : (journal.accept op row timestamp).waitingOf row.key =
      journal.waitingOf row.key ++ [journal.arrival op row timestamp] := by
  unfold Journal.waitingOf Journal.accept
  rw [rowsOf_append]
  congr 1
  exact rowsOf_cons_self Arrival.key (journal.arrival op row timestamp) []

variable {key : StateKey}

theorem waitingOf_accept_of_ne (journal : Journal ρ) (op : Operator ρ) (timestamp : Int)
    (h : row.key ≠ key) :
    (journal.accept op row timestamp).waitingOf key = journal.waitingOf key := by
  have hother : Arrival.key (journal.arrival op row timestamp) ≠ key := h
  unfold Journal.waitingOf Journal.accept
  rw [rowsOf_append, rowsOf_cons_of_ne Arrival.key hother, rowsOf_nil, append_nil]

/-- The bounds of the sessions that a row joins. -/
theorem map_joinedSessions (b : Bounds) (sessions : List (Session ρ)) :
    (joinedSessions b sessions).map (fun s => s.bounds.extent) =
      touched (sessions.map fun s => s.bounds.extent) b.extent := by
  unfold joinedSessions touched
  rw [filter_map]
  rfl

theorem map_keptSessions (b : Bounds) (sessions : List (Session ρ)) :
    (keptSessions b sessions).map (fun s => s.bounds.extent) =
      (sessions.map fun s => s.bounds.extent).filter fun b' => ¬ b.extent.Touches b' := by
  rw [filter_map]
  rfl

section

variable (h : Holds plan op journal) (row) (timestamp)
include h

theorem merged_extent :
    (op.merged plan row timestamp).extent = hullAll (rowBounds plan timestamp).extent
      (touched ((op.states row.key).sessions.map fun s => s.bounds.extent)
        (rowBounds plan timestamp).extent) := by
  rw [← map_joinedSessions]
  exact (merge_eq (rowBounds plan timestamp) (h.separate row.key)).1

theorem increasing_arrival :
    (journal.waitingOf row.key ++ [journal.arrival op row timestamp]).Pairwise
      fun a a' => a.sequence < a'.sequence := by
  refine pairwise_append.mpr ⟨h.increasing row.key, pairwise_singleton _ _, ?_⟩
  intro a ha a' ha'
  cases mem_singleton.mp ha'
  exact h.below row.key a ha

/-- The rows of the session that a row ends up in, in the order of arrival. -/
theorem events_merged :
    sortEvents (⟨(op.states row.key).nextSequence, row.kind, row.row⟩ ::
        (joinedSessions (rowBounds plan timestamp)
          (op.states row.key).sessions).reverse.flatMap Session.events) =
      (itemsIn (Arrival.extent plan) (journal.waitingOf row.key ++
        [journal.arrival op row timestamp])
        (op.merged plan row timestamp).extent).map Arrival.event := by
  have hvalid : ∀ a ∈ journal.waitingOf row.key, (a.extent plan).lo ≤ (a.extent plan).hi :=
    fun a _ => extent_valid plan a
  have hmerged := merged_extent row timestamp h
  have hinside : ((journal.arrival op row timestamp).extent plan).Inside
      (op.merged plan row timestamp).extent := by
    rw [hmerged]
    exact (inside_hullAll _ _).1
  have hitems : itemsIn (Arrival.extent plan)
      (journal.waitingOf row.key ++ [journal.arrival op row timestamp])
      (op.merged plan row timestamp).extent =
      itemsIn (Arrival.extent plan) (journal.waitingOf row.key)
        (op.merged plan row timestamp).extent ++
        [journal.arrival op row timestamp] := by
    simp [itemsIn, hinside]
  -- the rows of the sessions joined are the rows inside the union
  have hjoined : ((joinedSessions (rowBounds plan timestamp)
        (op.states row.key).sessions).reverse.flatMap Session.events).Perm
      ((itemsIn (Arrival.extent plan) (journal.waitingOf row.key)
        (op.merged plan row timestamp).extent).map Arrival.event) := by
    have hevents : (joinedSessions (rowBounds plan timestamp)
          (op.states row.key).sessions).flatMap Session.events =
        ((touched ((op.states row.key).sessions.map fun s => s.bounds.extent)
          (rowBounds plan timestamp).extent).flatMap
            (itemsIn (Arrival.extent plan) (journal.waitingOf row.key))).map Arrival.event := by
      rw [← map_joinedSessions, flatMap_map, map_flatMap]
      refine flatMap_congr fun s hs => ?_
      exact h.events row.key s (mem_of_mem_filter hs)
    refine ((reverse_perm _).flatMap_right _).trans ?_
    rw [hevents, hmerged]
    exact ((h.covers row.key).itemsIn_merged hvalid _).map _
  refine sortEvents_eq ?_ (pairwise_map.mpr ((increasing_arrival row timestamp h).filter _))
  rw [hitems, map_append]
  exact (hjoined.cons _).trans (perm_append_singleton _ _).symm

end

variable {op' : Operator ρ}

/-- The journal follows an accepted row. -/
theorem Holds.accept (h : Holds plan op journal) (haccept : op.accepts plan row timestamp = true)
    (htakes : Takes plan op row timestamp op') :
    Holds plan op' (journal.accept op row timestamp) := by
  have hsessions := htakes.sessions
  rw [events_merged row timestamp h] at hsessions
  -- the sessions of the row's key, those that were there and the new one
  have hmem : ∀ s ∈ (op'.states row.key).sessions, (s ∈ (op.states row.key).sessions ∧
          ¬ (rowBounds plan timestamp).extent.Touches s.bounds.extent) ∨
        s = ⟨op.merged plan row timestamp, (itemsIn (Arrival.extent plan)
          (journal.waitingOf row.key ++ [journal.arrival op row timestamp])
          (op.merged plan row timestamp).extent).map Arrival.event⟩ := by
    intro s hs
    rcases mem_append.mp (hsessions.mem_iff.mp hs) with hs | hs
    · obtain ⟨hs, hnot⟩ := mem_filter.mp hs
      exact Or.inl ⟨hs, of_decide_eq_true hnot⟩
    · exact Or.inr (mem_singleton.mp hs)
  refine ⟨fun key => ?_, fun key => ?_, fun key => ?_, fun key => ?_, fun key => ?_,
    fun timer => ?_,
    htakes.nodup h.nodup, fun key => ?_, htakes.clock ▸ h.started⟩
  · by_cases hkey : row.key = key
    · subst hkey
      rw [waitingOf_accept]
      have hinsert := (h.covers row.key).insert
        (extent_valid plan (journal.arrival op row timestamp)) fun a _ => extent_valid plan a
      refine hinsert.perm (List.Perm.trans ?_ (hsessions.map _).symm)
      rw [map_append, map_keptSessions, map_singleton, merged_extent row timestamp h]
      exact List.Perm.refl _
    · rw [htakes.others key hkey, waitingOf_accept_of_ne _ _ _ hkey]
      exact h.covers key
  · by_cases hkey : row.key = key
    · subst hkey
      rw [waitingOf_accept]
      intro s hs
      rcases hmem s hs with ⟨hs, hnot⟩ | rfl
      · have hout : ¬ ((journal.arrival op row timestamp).extent plan).Inside s.bounds.extent := by
          intro hin
          have hvalid := extent_valid plan (journal.arrival op row timestamp)
          exact hnot ⟨hvalid.trans hin.2, hin.1.trans hvalid⟩
        rw [h.events row.key s hs]
        simp [itemsIn, hout]
      · rfl
    · rw [htakes.others key hkey, waitingOf_accept_of_ne _ _ _ hkey]
      exact h.events key
  · by_cases hkey : row.key = key
    · subst hkey
      rw [waitingOf_accept]
      exact increasing_arrival row timestamp h
    · rw [waitingOf_accept_of_ne _ _ _ hkey]
      exact h.increasing key
  · by_cases hkey : row.key = key
    · subst hkey
      rw [htakes.next, waitingOf_accept]
      intro a ha
      rcases mem_append.mp ha with ha | ha
      · exact Nat.lt_succ_of_lt (h.below row.key a ha)
      · cases mem_singleton.mp ha
        exact Nat.lt_succ_self _
    · rw [htakes.others key hkey, waitingOf_accept_of_ne _ _ _ hkey]
      exact h.below key
  · have hlength : (journal.accept op row timestamp).arrivals.length =
        journal.arrivals.length + 1 := by simp [Journal.accept]
    rw [hlength]
    by_cases hkey : row.key = key
    · subst hkey
      rw [htakes.next]
      exact Nat.succ_le_succ (h.count row.key)
    · rw [htakes.others key hkey]
      exact (h.count key).trans (Nat.le_succ _)
  · rw [htakes.timers]
    by_cases hkey : row.key = timer.key
    · constructor
      · rintro (heq | ⟨htimer, hnot⟩)
        · refine ⟨_, hkey ▸ hsessions.mem_iff.mpr (mem_append_right _ mem_cons_self), ?_⟩
          rw [← hkey]
          exact heq
        · obtain ⟨s, hs, heq⟩ := (h.timers timer).mp htimer
          rw [← hkey] at hs heq ⊢
          refine ⟨s, hsessions.mem_iff.mpr (mem_append_left _ (mem_filter.mpr ⟨hs, ?_⟩)), heq⟩
          refine decide_eq_true fun htouch => ?_
          exact hnot s (mem_filter.mpr ⟨hs, decide_eq_true htouch⟩) heq
      · rintro ⟨s, hs, heq⟩
        rw [← hkey] at hs heq
        rcases hmem s hs with ⟨hs, hnot⟩ | rfl
        · refine Or.inr ⟨(h.timers timer).mpr ⟨s, hkey ▸ hs, hkey ▸ heq⟩, fun s' hs' heq' => ?_⟩
          have hsame : s.bounds = s'.bounds := congrArg TimerKey.space (heq.symm.trans heq')
          exact hnot (hsame ▸ of_decide_eq_true (mem_filter.mp hs').2)
        · exact Or.inl heq
    · rw [htakes.others timer.key hkey, ← h.timers timer]
      have hother : ∀ b, timer ≠ sessionTimer row.key b := fun b heq =>
        hkey (congrArg TimerKey.key heq).symm
      exact ⟨fun hor => (hor.resolve_left (hother _)).1,
        fun htimer => Or.inr ⟨htimer, fun s _ => hother s.bounds⟩⟩
  · rw [htakes.clock]
    by_cases hkey : row.key = key
    · subst hkey
      intro s hs
      rcases hmem s hs with ⟨hs, -⟩ | rfl
      · exact h.future row.key s hs
      · simpa [accepts] using haccept
    · rw [htakes.others key hkey]
      exact h.future key

/-! ## A watermark -/

variable {s : Session ρ}

section

variable (h : Holds plan op journal)
include h

/-- A session fires if its last instant has come. -/
theorem isFired_iff (hlater : op.currentEventTime < timestamp) (hs : s ∈ (op.states key).sessions) :
    ((op.timers.due .eventTime timestamp).any fun timer =>
      timer.key = key ∧ timer.space = s.bounds) = true ↔ s.bounds.stop - 1 ≤ timestamp := by
  rw [any_eq_true]
  constructor
  · rintro ⟨timer, htimer, hsame⟩
    obtain ⟨rfl, hspace⟩ := of_decide_eq_true hsame
    obtain ⟨htimer, hdue⟩ := mem_due.mp htimer
    obtain ⟨s', -, heq⟩ := (h.timers timer).mp htimer
    rw [heq] at hdue hspace
    have hstop : s'.bounds = s.bounds := hspace
    rw [← hstop]
    exact (le_max_left _ _).trans hdue
  · intro hdue
    refine ⟨sessionTimer key s.bounds, mem_due.mpr ⟨?_, ?_⟩, by
      simp [sessionTimer]⟩
    · exact (h.timers (sessionTimer key s.bounds)).mpr ⟨s, hs, rfl⟩
    · exact max_le hdue (h.started.trans (le_of_lt hlater))

/-- The sessions that end by then are fired. -/
theorem mem_firedSessions (hlater : op.currentEventTime < timestamp) :
    (key, s) ∈ op.firedSessions timestamp ↔ s ∈ (op.states key).sessions ∧
        s.bounds.stop - 1 ≤ timestamp := by
  unfold firedSessions
  rw [mem_flatMap]
  constructor
  · rintro ⟨key', -, hmem⟩
    obtain ⟨s', hs', heq⟩ := mem_map.mp hmem
    cases heq
    obtain ⟨hs', hfired⟩ := mem_filter.mp hs'
    exact ⟨hs', (isFired_iff h hlater hs').mp hfired⟩
  · rintro ⟨hs, hdue⟩
    have hfired := (isFired_iff h hlater hs).mpr hdue
    obtain ⟨timer, htimer, hsame⟩ := any_eq_true.mp hfired
    refine ⟨key, mem_dedup.mpr (mem_map.mpr ⟨timer, htimer, ?_⟩),
      mem_map.mpr ⟨s, mem_filter.mpr ⟨hs, hfired⟩, rfl⟩⟩
    exact (of_decide_eq_true hsame).1

/-- No two of the sessions that fire touch in one key. -/
theorem firedSessions_apart (timestamp : Int) :
    (op.firedSessions timestamp).Pairwise fun x y =>
      x.1 = y.1 → x.2.bounds.extent.Apart y.2.bounds.extent := by
  refine pairwise_flatMap.mpr ⟨fun key _ => ?_, ?_⟩
  · refine pairwise_map.mpr (((h.separate key).1.filter _).imp ?_)
    exact fun hapart _ => hapart
  · refine (nodup_dedup _).imp fun {key key'} hne x hx y hy heq => ?_
    obtain ⟨s, -, rfl⟩ := mem_map.mp hx
    obtain ⟨s', -, rfl⟩ := mem_map.mp hy
    exact absurd heq hne

/-- What a watermark does to the operator. -/
structure Fires (op : Operator ρ) (timestamp : Int) (op' : Operator ρ)
    (output : List (OutputRow ρ)) : Prop where
  clock : op'.currentEventTime = timestamp
  sessions : ∀ key, (op'.states key).sessions =
    (op.states key).sessions.filter fun s => timestamp < s.bounds.stop - 1
  next : ∀ key, (op'.states key).nextSequence = (op.states key).nextSequence ∨
    (op'.states key).sessions = [] ∧ (op'.states key).nextSequence = 0
  timers : op'.timers.eventTime = op.timers.eventTime.filter (timestamp < ·.timestamp)
  output_eq : output = (op.firedSessions timestamp).flatMap fun fired =>
    (sortEvents fired.2.events).map fun event => ⟨event.row, fired.2.bounds, event.rowKind⟩

/-- A watermark fires the sessions that end by then. -/
theorem fireDue_fires (hlater : op.currentEventTime < timestamp) :
    Fires op timestamp (fireDue { op with currentEventTime := timestamp } .eventTime timestamp).1
      (fireDue { op with currentEventTime := timestamp } .eventTime timestamp).2 := by
  have hfilter : ∀ key, ((op.states key).sessions.filter fun s =>
      !(op.timers.due .eventTime timestamp).any fun timer => timer.key = key ∧
        timer.space = s.bounds) =
      (op.states key).sessions.filter fun s => timestamp < s.bounds.stop - 1 := by
    intro key
    refine filter_congr fun s hs => ?_
    have hiff := isFired_iff h hlater hs
    rw [Bool.eq_iff_iff, Bool.not_eq_true', decide_eq_true_eq, ← Bool.not_eq_true, hiff, not_le]
  -- a key none of whose timers fires keeps all sessions
  have hall : ∀ key, key ∉ (op.timers.due .eventTime timestamp).map TimerKey.key →
      (op.states key).sessions.filter (fun s => timestamp < s.bounds.stop - 1) =
        (op.states key).sessions := by
    intro key hkey
    rw [← hfilter key, filter_eq_self]
    intro s _
    rw [Bool.not_eq_true', any_eq_false]
    intro timer htimer hsame
    obtain ⟨rfl, -⟩ := of_decide_eq_true hsame
    exact hkey (mem_map_of_mem htimer)
  unfold fireDue advance
  refine ⟨rfl, fun key => ?_, fun key => ?_, rfl, ?_⟩
  · dsimp only
    by_cases hkey : key ∈ (op.timers.due .eventTime timestamp).map TimerKey.key
    · rw [if_pos hkey, hfilter key]
      split
      · rename_i hnil
        exact hnil.symm
      · rfl
    · rw [if_neg hkey, hall key hkey]
  · dsimp only
    by_cases hkey : key ∈ (op.timers.due .eventTime timestamp).map TimerKey.key
    · rw [if_pos hkey]
      split
      · exact Or.inr ⟨rfl, rfl⟩
      · exact Or.inl rfl
    · rw [if_neg hkey]
      exact Or.inl rfl
  · unfold firedSessions
    rw [flatMap_assoc]
    simp only [flatMap_map]

end

/-- Is the arrival a row of a session that fires? -/
def Operator.firesRow (plan : Plan) (op : Operator ρ) (timestamp : Int) (a : Arrival ρ) : Bool :=
  (op.firedBounds timestamp).any fun fired => Journal.isRow plan fired.1 fired.2 a

variable {a : Arrival ρ}

theorem mem_waitingOf : a ∈ journal.waitingOf key ↔ a ∈ journal.waiting ∧ a.key = key := mem_rowsOf

theorem firesRow_eq (h : Holds plan op journal) (hlater : op.currentEventTime < timestamp)
    (hs : s ∈ (op.states key).sessions)
    (ha : a ∈ itemsIn (Arrival.extent plan) (journal.waitingOf key) s.bounds.extent) :
    op.firesRow plan timestamp a = decide (s.bounds.stop - 1 ≤ timestamp) := by
  obtain ⟨hwaiting, hinside⟩ := mem_itemsIn.mp ha
  have hkey := (mem_waitingOf.mp hwaiting).2
  unfold firesRow firedBounds
  rw [Bool.eq_iff_iff, any_map, any_eq_true, decide_eq_true_eq]
  constructor
  · rintro ⟨⟨key', s'⟩, hfired, hrow⟩
    obtain ⟨hkey', hinside'⟩ := of_decide_eq_true hrow
    have hsame : key = key' := hkey.symm.trans hkey'
    subst hsame
    obtain ⟨hs', hdue⟩ := (mem_firedSessions h hlater).mp hfired
    have hvalid := extent_valid plan a
    have heq : s.bounds.extent = s'.bounds.extent := (h.covers key).eq_of_touches
      (mem_map_of_mem hs) (mem_map_of_mem hs')
      ⟨(hinside.1.trans hvalid).trans hinside'.2, hinside'.1.trans (hvalid.trans hinside.2)⟩
    have hstop : s.bounds.stop = s'.bounds.stop := congrArg Extent.hi heq
    rw [hstop]
    exact hdue
  · intro hdue
    exact ⟨(key, s), (mem_firedSessions h hlater).mpr ⟨hs, hdue⟩, decide_eq_true ⟨hkey, hinside⟩⟩

theorem waitingOf_fire (timestamp : Int) (key : StateKey) :
    (journal.fire plan timestamp (op.firedBounds timestamp)).waitingOf key =
      (journal.waitingOf key).filter fun a => !op.firesRow plan timestamp a := by
  unfold Journal.waitingOf Journal.fire rowsOf
  rw [filter_filter, filter_filter]
  refine filter_congr fun a _ => ?_
  rw [Bool.and_comm]
  rfl

variable {output : List (OutputRow ρ)}

/-- The journal follows a watermark. -/
theorem Holds.fire (h : Holds plan op journal) (hlater : op.currentEventTime < timestamp)
    (hfires : Fires op timestamp op' output) :
    Holds plan op' (journal.fire plan timestamp (op.firedBounds timestamp)) := by
  have hmem : ∀ key, ∀ s, s ∈ (op'.states key).sessions ↔
      s ∈ (op.states key).sessions ∧ timestamp < s.bounds.stop - 1 := by
    intro key s
    rw [hfires.sessions, mem_filter, decide_eq_true_eq]
  have hcovers : ∀ key, Covers (Arrival.extent plan)
      ((journal.fire plan timestamp (op.firedBounds timestamp)).waitingOf key)
      ((op'.states key).sessions.map fun s => s.bounds.extent) := by
    intro key
    have hmap : (op'.states key).sessions.map (fun s => s.bounds.extent) =
        ((op.states key).sessions.map fun s => s.bounds.extent).filter fun b =>
            timestamp < b.hi - 1 := by
      rw [hfires.sessions, filter_map]
      rfl
    rw [waitingOf_fire, hmap]
    refine (h.covers key).filter _ _ fun b hb a ha => ?_
    obtain ⟨s, hs, rfl⟩ := mem_map.mp hb
    rw [firesRow_eq h hlater hs ha, ← decide_not, decide_eq_decide, not_le]
    rfl
  refine ⟨hcovers, fun key s hs => ?_, fun key => ?_, fun key a ha => ?_, fun key => ?_,
    fun timer => ?_, ?_, fun key s hs => ?_, ?_⟩
  · obtain ⟨hs, hlate⟩ := (hmem key s).mp hs
    rw [waitingOf_fire, itemsIn_filter, h.events key s hs]
    intro a ha
    rw [firesRow_eq h hlater hs ha, decide_eq_false (not_le.mpr hlate)]
    rfl
  · rw [waitingOf_fire]
    exact (h.increasing key).filter _
  · rcases hfires.next key with hsame | ⟨hnil, -⟩
    · rw [hsame]
      rw [waitingOf_fire] at ha
      exact h.below key a (mem_of_mem_filter ha)
    · obtain ⟨b, hb, -⟩ := (hcovers key).inside a ha
      rw [hnil] at hb
      cases hb
  · rcases hfires.next key with hsame | ⟨-, hzero⟩
    · rw [hsame]
      exact h.count key
    · rw [hzero]
      exact Nat.zero_le _
  · rw [hfires.timers, mem_filter, decide_eq_true_eq, h.timers timer]
    constructor
    · rintro ⟨⟨s, hs, heq⟩, hlate⟩
      refine ⟨s, (hmem _ _).mpr ⟨hs, ?_⟩, heq⟩
      rw [heq] at hlate
      have hmin := h.started
      simp only [sessionTimer, lt_max_iff] at hlate
      omega
    · rintro ⟨s, hs, heq⟩
      obtain ⟨hs, hlate⟩ := (hmem _ _).mp hs
      refine ⟨⟨s, hs, heq⟩, ?_⟩
      rw [heq]
      exact lt_max_of_lt_left hlate
  · rw [hfires.timers]
    exact h.nodup.filter _
  · rw [hfires.clock]
    exact ((hmem key s).mp hs).2
  · rw [hfires.clock]
    exact h.started.trans (le_of_lt hlater)

/-! ## What the journal says -/

/-- The journal explains the output: every row accepted is in one session emitted or waits, and a
session emitted is a component of the rows that waited. -/
structure Explains (plan : Plan) (journal : Journal ρ) (output : List (OutputRow ρ)) : Prop where
  numbered : journal.arrivals.map Arrival.number = List.range journal.arrivals.length
  once : journal.arrivals.Perm (journal.emissions.flatMap Emission.rows ++ journal.waiting)
  waits : journal.waiting.Sublist journal.arrivals
  output_eq : output = journal.emissions.flatMap Emission.output
  ordered : ∀ e ∈ journal.emissions, e.rows.Sublist e.pending ∧ e.pending.Sublist journal.arrivals
  component : ∀ e ∈ journal.emissions, e.rows ≠ [] ∧
    IsSpan (Arrival.extent plan) e.rows e.bounds.extent ∧
    ∀ a ∈ e.rows, ∀ b ∈ e.pending, Linked (Arrival.extent plan) e.pending a b ↔ b ∈ e.rows
  due : ∀ e ∈ journal.emissions, e.bounds.stop - 1 ≤ e.clock

theorem explains_fresh (plan : Plan) : Explains plan ({} : Journal ρ) [] where
  numbered := rfl
  once := List.Perm.refl _
  waits := List.Sublist.refl _
  output_eq := rfl
  ordered _ he := absurd he not_mem_nil
  component _ he := absurd he not_mem_nil
  due _ he := absurd he not_mem_nil

theorem Explains.accept (h : Explains plan journal output)
    (op : Operator ρ) (row : InputRow ρ) (timestamp : Int) :
    Explains plan (journal.accept op row timestamp) output where
  numbered := by
    simp only [Journal.accept, map_append, map_singleton, length_append,
      length_singleton, range_succ, h.numbered]
    rfl
  once := by
    refine (h.once.append_right _).trans ?_
    rw [append_assoc]
    exact List.Perm.refl _
  waits := h.waits.append (List.Sublist.refl _)
  output_eq := h.output_eq
  ordered e he := ⟨(h.ordered e he).1, (h.ordered e he).2.trans (sublist_append_left _ _)⟩
  component := h.component
  due := h.due

/-- The rows of a session that fires are those that wait inside its bounds. -/
theorem filter_isRow (key : StateKey) (b : Bounds) :
    journal.waiting.filter (Journal.isRow plan key b) =
      itemsIn (Arrival.extent plan) (journal.waitingOf key) b.extent := by
  unfold itemsIn Journal.waitingOf rowsOf
  rw [filter_filter]
  refine filter_congr fun a _ => ?_
  simp [Journal.isRow, Bool.and_comm]

/-- The rows that wait are those of the sessions that fire, and those that go on waiting. -/
theorem waiting_perm (h : Holds plan op journal) (timestamp : Int) : journal.waiting.Perm
      (((op.firedBounds timestamp).flatMap fun session =>
          journal.waiting.filter (Journal.isRow plan session.1 session.2)) ++
        journal.waiting.filter fun a => !op.firesRow plan timestamp a) := by
  have hparts : (op.firedBounds timestamp).Pairwise fun session session' =>
      ∀ a ∈ journal.waiting, Journal.isRow plan session.1 session.2 a = true →
        Journal.isRow plan session'.1 session'.2 a = false := by
    refine pairwise_map.mpr ((firedSessions_apart h timestamp).imp ?_)
    intro fired fired' hapart a _ hrow
    refine decide_eq_false fun hrow' => ?_
    obtain ⟨hkey, hin⟩ := of_decide_eq_true hrow
    obtain ⟨hkey', hin'⟩ := hrow'
    have hvalid := extent_valid plan a
    exact hapart (hkey.symm.trans hkey')
      ⟨(hin.1.trans hvalid).trans hin'.2, hin'.1.trans (hvalid.trans hin.2)⟩
  have hfired := perm_flatMap_filter
    (fun (session : StateKey × Bounds) a => Journal.isRow plan session.1 session.2 a) hparts
  exact (filter_append_perm (op.firesRow plan timestamp) journal.waiting).symm.trans
    (hfired.symm.append_right _)

/-- A session is emitted in the order of arrival. -/
theorem emitted_rows (h : Holds plan op journal)
    (hs : s ∈ (op.states key).sessions) (output : StoredEvent ρ → OutputRow ρ) :
    (sortEvents s.events).map output =
      (itemsIn (Arrival.extent plan) (journal.waitingOf key) s.bounds.extent).map
        fun a => output a.event := by
  have hsorted : s.events.Pairwise fun e e' => e.sequence < e'.sequence := by
    rw [h.events key s hs]
    exact pairwise_map.mpr ((h.increasing key).filter _)
  rw [sortEvents_eq (List.Perm.refl _) hsorted, h.events key s hs, map_map]
  rfl

/-- The output of a watermark is explained by its emissions. -/
theorem Explains.fire (h : Explains plan journal output)
    (hholds : Holds plan op journal) (hlater : op.currentEventTime < timestamp)
    {emitted : List (OutputRow ρ)} (hfires : Fires op timestamp op' emitted) :
    Explains plan (journal.fire plan timestamp (op.firedBounds timestamp)) (output ++ emitted) := by
  -- what is said about a session that fires
  have hnew : ∀ e ∈ (op.firedBounds timestamp).map (fun session =>
      (⟨session.2, timestamp, journal.waitingOf session.1,
        journal.waiting.filter (Journal.isRow plan session.1 session.2)⟩ : Emission ρ)),
      ∃ key, ∃ s ∈ (op.states key).sessions, s.bounds.stop - 1 ≤ timestamp ∧
        e = ⟨s.bounds, timestamp, journal.waitingOf key,
          itemsIn (Arrival.extent plan) (journal.waitingOf key) s.bounds.extent⟩ := by
    intro e he
    obtain ⟨⟨key, b⟩, hb, rfl⟩ := mem_map.mp he
    obtain ⟨⟨key', s⟩, hfired, heq⟩ := mem_map.mp hb
    cases heq
    obtain ⟨hs, hdue⟩ := (mem_firedSessions hholds hlater).mp hfired
    refine ⟨key', s, hs, hdue, ?_⟩
    rw [← filter_isRow]
  refine ⟨h.numbered, ?_, ?_, ?_, fun e he => ?_, fun e he => ?_, fun e he => ?_⟩
  · refine h.once.trans ?_
    have hsplit :=
      (waiting_perm hholds timestamp).append_left (journal.emissions.flatMap Emission.rows)
    refine hsplit.trans (List.Perm.of_eq ?_)
    unfold Journal.fire
    rw [flatMap_append, flatMap_map, append_assoc]
    rfl
  · exact filter_sublist.trans h.waits
  · unfold Journal.fire firedBounds
    rw [flatMap_append, ← h.output_eq, hfires.output_eq, flatMap_map, flatMap_map]
    congr 1
    refine flatMap_congr fun fired hfired => ?_
    obtain ⟨key, s⟩ := fired
    obtain ⟨hs, -⟩ := (mem_firedSessions hholds hlater).mp hfired
    rw [filter_isRow, emitted_rows hholds hs]
    rfl
  · rcases mem_append.mp he with he | he
    · exact h.ordered e he
    · obtain ⟨key, s, -, -, rfl⟩ := hnew e he
      exact ⟨filter_sublist, filter_sublist.trans h.waits⟩
  · rcases mem_append.mp he with he | he
    · exact h.component e he
    · obtain ⟨key, s, hs, -, rfl⟩ := hnew e he
      have hcover := mem_map_of_mem (f := fun s : Session ρ => s.bounds.extent) hs
      have hspan := (hholds.covers key).span _ hcover
      refine ⟨?_, hspan, fun a ha b hb => (hholds.covers key).linked_iff hcover ha hb⟩
      obtain ⟨a, ha, -⟩ := hspan.lo_mem
      exact ne_nil_of_mem ha
  · rcases mem_append.mp he with he | he
    · exact h.due e he
    · obtain ⟨key, s, -, hdue, rfl⟩ := hnew e he
      exact hdue

/-! ## Runs -/

section

variable (hzone : plan.zone = .utc) (hevent : plan.processingTime = false)
include hzone hevent

/-- In UTC every row that has a time goes on with it. -/
theorem timedRows_utc (op : Operator ρ) (rows : List (InputRow ρ)) :
    ∃ changes, op.timedRows plan rows = .ok changes ∧ changes.length ≤ rows.length := by
  induction rows with
  | nil => exact ⟨[], rfl, le_refl _⟩
  | cons row rows ih =>
    obtain ⟨changes, hchanges, hlength⟩ := ih
    rw [timedRows, if_neg (by simp [hevent]), hzone]
    cases row.time with
    | none => exact ⟨changes, hchanges, Nat.le_succ_of_le hlength⟩
    | some time =>
      refine ⟨(row, time) :: changes, ?_, Nat.succ_le_succ hlength⟩
      dsimp only [ShiftTimeZone.utc]
      rw [ok_bind, hchanges]
      rfl

/-- A batch is recorded. -/
theorem recordChanges_ok (changes : List (InputRow ρ × Int))
    (h : Holds plan op journal) (hexplains : Explains plan journal output)
    (hroom : journal.arrivals.length + changes.length < 2 ^ 64) :
    ∃ op' journal', recordChanges plan op journal changes = .ok (op', journal') ∧
      changes.foldlM (fun op change => op.processChange plan change.1 change.2) op = .ok op' ∧
      Holds plan op' journal' ∧ Explains plan journal' output ∧
      journal'.arrivals.length ≤ journal.arrivals.length + changes.length := by
  induction changes generalizing op journal with
  | nil => exact ⟨op, journal, rfl, rfl, h, hexplains, le_refl _⟩
  | cons change changes ih =>
    obtain ⟨row, timestamp⟩ := change
    rw [length_cons] at hroom
    rw [recordChanges, foldlM_cons, length_cons]
    cases haccept : op.accepts plan row timestamp with
    | false =>
      obtain ⟨op', journal', hrecord, hfold, hholds, hexplains, hlength⟩ :=
        ih h hexplains (by omega)
      rw [processChange_late hzone hevent h.started haccept, ok_bind, ok_bind]
      exact ⟨op', journal', hrecord, hfold, hholds, hexplains, by omega⟩
    | true =>
      have hnext : (op.states row.key).nextSequence + 1 < 2 ^ 64 := by
        have := h.count row.key
        omega
      obtain ⟨next, hchange, htakes⟩ :=
        processChange_accepted hzone hevent (h.separate row.key) haccept hnext
      have hlength' : (journal.accept op row timestamp).arrivals.length =
          journal.arrivals.length + 1 := by simp [Journal.accept]
      obtain ⟨op', journal', hrecord, hfold, hholds, hexplains, hlength⟩ :=
        ih (h.accept haccept htakes) (hexplains.accept op row timestamp) (by omega)
      rw [hchange, ok_bind, ok_bind]
      exact ⟨op', journal', hrecord, hfold, hholds, hexplains, by omega⟩

/-- The number of rows of a call. -/
def Input.rowCount : Input ρ → Nat
  | .rows batch => batch.length
  | .watermark _ => 0

/-- A call is recorded. -/
theorem recordInput_ok (h : Holds plan op journal) (hexplains : Explains plan journal output)
    (input : Input ρ) (hroom : journal.arrivals.length + input.rowCount < 2 ^ 64) :
    ∃ op' journal' emitted, recordInput plan op journal input = .ok (op', journal', emitted) ∧
      op.stepEventTime plan input = .ok (op', emitted) ∧
      Holds plan op' journal' ∧ Explains plan journal' (output ++ emitted) ∧
      journal'.arrivals.length ≤ journal.arrivals.length + input.rowCount := by
  cases input with
  | rows rows =>
    obtain ⟨changes, hchanges, hlength⟩ := timedRows_utc hzone hevent op rows
    have hcount : (Input.rows rows).rowCount = rows.length := rfl
    obtain ⟨op', journal', hrecord, hfold, hholds, hexplains, hle⟩ :=
      recordChanges_ok hzone hevent changes h hexplains (by omega)
    refine ⟨op', journal', [], ?_, ?_, hholds, by simpa using hexplains, by omega⟩
    · rw [recordInput, hchanges, ok_bind, hrecord]
      rfl
    · rw [stepEventTime, processArrow, if_neg (by simp [hevent]), hchanges, ok_bind, hfold]
      rfl
  | watermark timestamp =>
    rw [recordInput, stepEventTime]
    unfold advanceEventTime
    by_cases hlater : timestamp ≤ op.currentEventTime
    · rw [if_pos (Or.inr hlater), if_pos hlater]
      exact ⟨op, journal, [], rfl, rfl, h, by simpa using hexplains, Nat.le_add_right _ _⟩
    · have hmoves : ¬ (plan.processingTime = true ∨ timestamp ≤ op.currentEventTime) := by
        simp [hevent, hlater]
      have hfires := fireDue_fires h (not_le.mp hlater)
      rw [if_neg hmoves, if_neg hlater]
      exact ⟨_, _, _, rfl, rfl, h.fire (not_le.mp hlater) hfires,
        hexplains.fire h (not_le.mp hlater) hfires, Nat.le_add_right _ _⟩

/-- A run is recorded. -/
theorem record_ok (inputs : List (Input ρ))
    (h : Holds plan op journal) (hexplains : Explains plan journal output)
    (hroom : journal.arrivals.length + (inputs.map Input.rowCount).sum < 2 ^ 64) :
    ∃ op' journal' emitted, record plan op journal inputs = .ok (op', journal', emitted) ∧
      op.runEventTime plan inputs = .ok (op', emitted) ∧
      Holds plan op' journal' ∧ Explains plan journal' (output ++ emitted) := by
  induction inputs generalizing op journal output with
  | nil => exact ⟨op, journal, [], rfl, rfl, h, by simpa using hexplains⟩
  | cons input inputs ih =>
    rw [map_cons, sum_cons] at hroom
    obtain ⟨next, journal', first, hrecord, hstep, hholds, hexplains, hlength⟩ :=
      recordInput_ok hzone hevent h hexplains input (by omega)
    obtain ⟨op', last, rest, hrecords, hrun, hholds, hexplains⟩ :=
      ih hholds hexplains (by omega)
    refine ⟨op', last, first ++ rest, ?_, ?_, hholds, ?_⟩
    · rw [record, hrecord, ok_bind]
      dsimp only
      rw [hrecords]
      rfl
    · rw [runEventTime, hstep, ok_bind]
      dsimp only
      rw [hrun]
      rfl
    · rw [← append_assoc]
      exact hexplains

end

/-- What is stored: the sessions of a key do not touch, each has one timer, and a row that waits is
in the session of its component, whose last instant the clock has not reached. -/
structure Stored (plan : Plan) (op : Operator ρ) (journal : Journal ρ) : Prop where
  apart : ∀ key, (op.states key).sessions.Pairwise fun s s' =>
    s.bounds.extent.Apart s'.bounds.extent
  timers : ∀ timer, timer ∈ op.timers.eventTime ↔
    ∃ s ∈ (op.states timer.key).sessions, timer = sessionTimer timer.key s.bounds
  nodup : op.timers.eventTime.Nodup
  waits : ∀ key, ∀ a ∈ journal.waitingOf key, ∃ s ∈ (op.states key).sessions,
    s.events = (itemsIn (Arrival.extent plan) (journal.waitingOf key) s.bounds.extent).map
      Arrival.event ∧
    IsSpan (Arrival.extent plan)
      (itemsIn (Arrival.extent plan) (journal.waitingOf key) s.bounds.extent) s.bounds.extent ∧
    (∀ b ∈ journal.waitingOf key, Linked (Arrival.extent plan) (journal.waitingOf key) a b ↔
      b ∈ itemsIn (Arrival.extent plan) (journal.waitingOf key) s.bounds.extent) ∧
    op.currentEventTime < s.bounds.stop - 1

theorem Holds.stored (h : Holds plan op journal) : Stored plan op journal where
  apart key := (h.separate key).1
  timers := h.timers
  nodup := h.nodup
  waits key a ha := by
    obtain ⟨b, hb, hin⟩ := (h.covers key).inside a ha
    obtain ⟨s, hs, rfl⟩ := mem_map.mp hb
    have hitem := mem_itemsIn.mpr ⟨ha, hin⟩
    exact ⟨s, hs, h.events key s hs, (h.covers key).span _ hb,
      fun b' hb' => (h.covers key).linked_iff hb hitem hb', h.future key s hs⟩

end

/-- Sessions with a gap of ten milliseconds. -/
def tenMillis : Plan where
  processingTime := false
  sizeMillis := 10
  zone := .utc
  size_pos := Int.natCast_pos.mpr (Nat.zero_lt_succ 9)

/-- An inserted row of a time. -/
def rowAt (time : Int) (row : Nat) : InputRow Nat := ⟨⟨0, []⟩, some time, .insert, row⟩

end SessionWindow

end StreamFusion
