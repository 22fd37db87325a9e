import StreamFusion.Lib.Changelog
import StreamFusion.Lib.Outcome
import StreamFusion.Lib.Timeline
import StreamFusion.Lib.WrappingInt
import StreamFusion.State.Timers

/-!
# The interval join

The operator of `planner/operators/interval_join.rs` joins two changelogs on a key and on a window
of time: a left row of time `l` meets the right rows of time `r` with `lower ≤ l - r ≤ upper`.  Both
sides are kept under their key and time, so that a row can meet partners that arrive later, and a
row that arrives on one side expires rows of the other side.  A row of an outer side that leaves
without a partner is emitted with nulls in place of the other side.  A stored row has a cleanup
timer, one for every key and side, which is registered here.

The operator has a clock, the watermark or the processing time according to the plan.  Every sum of
times wraps around (`I64.wrap`), as in the source.

Left out are the firing of the cleanup timers, memory accounting, the schema checks, and the Arrow
output, whose rows are listed instead.
-/

namespace StreamFusion.IntervalJoin

open State I64
open Changelog (Kind)

/-- The sides of the join. -/
inductive Side where
  | left
  | right
  deriving DecidableEq, Repr, Ord

/-- The other side. -/
def Side.other : Side → Side
  | left => right
  | right => left

/-- The join types that the plan validation accepts. -/
inductive RegularJoinType where
  | inner
  | left
  | right
  | full
  deriving DecidableEq, Repr

/-- A validated plan: `left - right` is between the bounds, which are in order, and the two
intervals are not negative. -/
structure Plan where
  eventTime : Bool
  joinType : RegularJoinType
  leftLowerBoundMillis : Int
  leftUpperBoundMillis : Int
  minCleanupIntervalMillis : Int
  allowedLatenessMillis : Int
  /-- For every key field, whether a row with a null in it meets nothing. -/
  filterNulls : List Bool
  lower_le_upper : leftLowerBoundMillis ≤ leftUpperBoundMillis
  minCleanup_nonneg : 0 ≤ minCleanupIntervalMillis
  lateness_nonneg : 0 ≤ allowedLatenessMillis

/-- A row of an Arrow batch with the metadata the operator reads.  `key` is the state key of the
row's key fields, and `keyNulls` says which of them are null. -/
structure InputRow (ρ : Type) where
  key : StateKey
  keyNulls : List Bool
  time : Int
  kind : Kind
  row : ρ
  deriving DecidableEq

/-- A row that waits for partners. -/
structure StoredRow (ρ : Type) where
  row : ρ
  /-- The number of partners the row has met, kept for the rows of an outer side. -/
  associations : Int32
  deriving DecidableEq

/-- The state of a key: the rows and the cleanup timer of each side. -/
structure IntervalState (ρ : Type) where
  sideRows : Side → Timeline (StoredRow ρ) := fun _ => Timeline.empty
  cleanupTimers : Side → Option Int := fun _ => none

/-- An output row; a missing side is padded with nulls. -/
structure OutputRow (ρ : Type) where
  left : Option ρ
  right : Option ρ
  kind : Kind
  inputOrdinal : Int
  deriving DecidableEq, Repr

/-- An output row of an input row and what it meets on the other side. -/
def pushPair {ρ : Type} (inputSide : Side) (input other : Option ρ) (kind : Kind)
    (inputOrdinal : Int) :
    OutputRow ρ :=
  match inputSide with
  | .left => ⟨input, other, kind, inputOrdinal⟩
  | .right => ⟨other, input, kind, inputOrdinal⟩

/-! ## What the plan says -/

namespace Plan

variable (plan : Plan)

/-- Are the rows of the side emitted without a partner? -/
def isOuter (side : Side) : Bool :=
  plan.joinType = .full || (side = .left && plan.joinType = .left) ||
    (side = .right && plan.joinType = .right)

/-- The domain of the cleanup timers. -/
def timerDomain : TimerDomain := if plan.eventTime then .eventTime else .processingTime

/-- How long a row of the side waits for rows of the other one. -/
def relativeSize : Side → Int
  | .left => wrap (-plan.leftLowerBoundMillis)
  | .right => plan.leftUpperBoundMillis

/-- Rows of `side` up to this time are of no use to a clock at `progress`. -/
def expirationTime (side : Side) (progress : Int) : Int :=
  if progress = max then
    max
  else
    wrap (wrap (wrap (progress - plan.relativeSize side) - plan.allowedLatenessMillis) - 1)

/-- When a row of the side can be dropped. -/
def cleanupTime (side : Side) (rowTime : Int) : Int :=
  wrap (wrap (wrap (wrap (rowTime + plan.relativeSize side) +
    plan.minCleanupIntervalMillis) + plan.allowedLatenessMillis) + 1)

/-- The times of the rows that a row of `side` and `time` meets on the other side. -/
def qualifiedBounds (side : Side) (time : Int) : Int × Int :=
  match side with
  | .left => (wrap (time - plan.leftUpperBoundMillis), wrap (time - plan.leftLowerBoundMillis))
  | .right => (wrap (time + plan.leftLowerBoundMillis), wrap (time + plan.leftUpperBoundMillis))

/-- Can the row have partners? -/
def rowIsMatchable {ρ : Type} (row : InputRow ρ) : Bool :=
  (plan.filterNulls.zip row.keyNulls).all fun p => !p.1 || !p.2

end Plan

/-! ## The operator -/

/-- The operator's clocks, the state of every key and the pending timers. -/
structure Operator (ρ : Type) where
  currentEventTime : Int := min
  currentProcessingTime : Int := min
  states : StateKey → IntervalState ρ := fun _ => {}
  timers : NativeTimerService Side := {}

variable {ρ : Type}

namespace Operator

variable [DecidableEq ρ] (plan : Plan) (op : Operator ρ)

/-- The current time. -/
def operatorTime : Int :=
  if plan.eventTime then max op.currentEventTime 0 else max op.currentProcessingTime 0

/-- The time of a row. -/
def rowTime (row : InputRow ρ) : Int :=
  if plan.eventTime then row.time else op.operatorTime plan

/-- The stored rows of one side of a key are replaced. -/
def setRows (key : StateKey) (side : Side) (rows : Timeline (StoredRow ρ)) : Operator ρ :=
  { op with
    states := Function.update op.states key
      { op.states key with sideRows := Function.update (op.states key).sideRows side rows } }

/-- Remembers the cleanup timer of a side. -/
def setCleanupTimer (key : StateKey) (side : Side) (timer : Option Int) : Operator ρ :=
  { op with
    states := Function.update op.states key
      { op.states key with
        cleanupTimers := Function.update (op.states key).cleanupTimers side timer } }

/-- Registers a cleanup timer for a row. -/
def registerCleanupTimer (key : StateKey) (side : Side) (rowTime : Int) : Operator ρ :=
  let timestamp := plan.cleanupTime side rowTime
  { op.setCleanupTimer key side (some timestamp) with
    timers := op.timers.register plan.timerDomain ⟨timestamp, key, side⟩ }

/-- The rows of a side up to the expiration leave, and those of an outer side that have met nobody
are emitted alone. -/
def expireRows (key : StateKey) (side : Side) (expiration ordinal : Int) :
    Operator ρ × List (OutputRow ρ) :=
  let rows := (op.states key).sideRows side
  let expired := rows.entries.filter (·.1 ≤ expiration)
  (op.setRows key side (rows.filter (expiration < ·.1)),
    if plan.isOuter side then
      (expired.filter (·.2.associations = 0)).map fun e =>
        pushPair side (some e.2.row) none .insert ordinal
    else
      [])

/-- Does a row meet this stored row of the other side?  If wrapping has put the bounds in the wrong
order then it meets none, which the source says by a test of its own. -/
def isMatch (side : Side) (row : InputRow ρ) (e : Int × StoredRow ρ) : Bool :=
  let (lower, upper) := plan.qualifiedBounds side (op.rowTime plan row)
  plan.rowIsMatchable row && lower ≤ e.1 && e.1 ≤ upper

/-- The matches of a row, which are counted if their side is outer, and the output rows they
give. -/
def emitMatches (side : Side) (row : InputRow ρ) (ordinal : Int) (count : Int32 → Int32) :
    Operator ρ × List (OutputRow ρ) :=
  let others := (op.states row.key).sideRows side.other
  let pairs := (others.entries.filter (op.isMatch plan side row)).map fun e =>
    pushPair side (some row.row) (some e.2.row) row.kind ordinal
  if plan.isOuter side.other then
    (op.setRows row.key side.other (others.modify (op.isMatch plan side row) fun stored =>
      { stored with associations := count stored.associations }), pairs)
  else
    (op, pairs)

/-- A row that can still meet somebody is stored, and the timer of its key and side is set if there
is none. -/
def storeRow (side : Side) (row : InputRow ρ) (associations : Int32) : Operator ρ :=
  let time := op.rowTime plan row
  let stored := op.setRows row.key side
    (((op.states row.key).sideRows side).push time ⟨row.row, associations⟩)
  if (stored.states row.key).cleanupTimers side = none then
    stored.registerCleanupTimer plan row.key side time
  else
    stored

/-- A row that is added. -/
def accumulate (side : Side) (row : InputRow ρ) (ordinal : Int) : Operator ρ × List (OutputRow ρ) :=
  let (met, pairs) := op.emitMatches plan side row ordinal (· + 1)
  if op.operatorTime plan < (plan.qualifiedBounds side (op.rowTime plan row)).2 then
    (met.storeRow plan side row (if plan.isOuter side then Int32.ofNat pairs.length else 0), pairs)
  else if pairs.length = 0 ∧ plan.isOuter side then
    (met, pairs ++ [pushPair side (some row.row) none .insert ordinal])
  else
    (met, pairs)

/-- A row that is taken back. -/
def retract (side : Side) (row : InputRow ρ) (ordinal : Int) : Operator ρ × List (OutputRow ρ) :=
  let time := op.rowTime plan row
  let (met, pairs) := op.emitMatches plan side row ordinal (· - 1)
  let removed := met.setRows row.key side
    (((met.states row.key).sideRows side).removeFirst fun e => e.1 = time ∧ e.2.row = row.row)
  if (plan.qualifiedBounds side time).2 ≤ op.operatorTime plan ∧ pairs.length = 0 ∧
      plan.isOuter side then
    (removed, pairs ++ [pushPair side (some row.row) none row.kind ordinal])
  else
    (removed, pairs)

/-- A row, behind the rows of the other side that have expired. -/
def processChange (side : Side) (row : InputRow ρ) (ordinal : Int) :
    Operator ρ × List (OutputRow ρ) :=
  let expiration := plan.expirationTime side.other (op.operatorTime plan)
  let (expired, alone) := op.expireRows plan row.key side.other expiration ordinal
  let (changed, pairs) := if row.kind.adds then expired.accumulate plan side row ordinal
    else expired.retract plan side row ordinal
  (changed, alone ++ pairs)

end Operator

/-! ## What the setters leave unchanged -/

namespace Operator

variable (plan : Plan) (op : Operator ρ) (key key' : StateKey) (side side' : Side)

/-- The rows of a side change for one key and side. -/
theorem sideRows_setRows (rows : Timeline (StoredRow ρ)) :
    ((op.setRows key side rows).states key').sideRows side' =
      if key' = key ∧ side' = side then rows else (op.states key').sideRows side' := by
  unfold setRows
  by_cases hkey : key' = key
  · subst hkey
    by_cases hside : side' = side
    · subst hside
      simp
    · simp [hside]
  · simp [hkey]

@[simp] theorem cleanupTimers_setRows (rows : Timeline (StoredRow ρ)) :
    ((op.setRows key side rows).states key').cleanupTimers = (op.states key').cleanupTimers := by
  unfold setRows
  by_cases hkey : key' = key
  · subst hkey
    simp
  · simp [hkey]

@[simp] theorem sideRows_setCleanupTimer (timer : Option Int) :
    ((op.setCleanupTimer key side timer).states key').sideRows = (op.states key').sideRows := by
  unfold setCleanupTimer
  by_cases hkey : key' = key
  · subst hkey
    simp
  · simp [hkey]

theorem cleanupTimers_setCleanupTimer (timer : Option Int) :
    ((op.setCleanupTimer key side timer).states key').cleanupTimers side' =
      if key' = key ∧ side' = side then timer else (op.states key').cleanupTimers side' := by
  unfold setCleanupTimer
  by_cases hkey : key' = key
  · subst hkey
    by_cases hside : side' = side
    · subst hside
      simp
    · simp [hside]
  · simp [hkey]

@[simp] theorem sideRows_registerCleanupTimer (rowTime : Int) :
    ((op.registerCleanupTimer plan key side rowTime).states key').sideRows =
        (op.states key').sideRows :=
  sideRows_setCleanupTimer op key key' side _

theorem cleanupTimers_registerCleanupTimer (rowTime : Int) :
    ((op.registerCleanupTimer plan key side rowTime).states key').cleanupTimers side' =
      if key' = key ∧ side' = side then some (plan.cleanupTime side rowTime)
      else (op.states key').cleanupTimers side' :=
  cleanupTimers_setCleanupTimer op key key' side side' _

/-! ## What a row can do -/

/-- A stored row without its count. -/
def uncounted (e : Int × StoredRow ρ) : Int × ρ := (e.1, e.2.row)

/-- Rows leave or are counted anew, and nothing else changes. -/
structure Shrinks (op op' : Operator ρ) : Prop where
  eventTime : op'.currentEventTime = op.currentEventTime
  processingTime : op'.currentProcessingTime = op.currentProcessingTime
  timers : op'.timers = op.timers
  cleanupTimers : ∀ key, (op'.states key).cleanupTimers = (op.states key).cleanupTimers
  rows : ∀ key side, (((op'.states key).sideRows side).entries.map uncounted).Sublist
    (((op.states key).sideRows side).entries.map uncounted)

variable {op} {op' op'' : Operator ρ}

section

variable (h : Shrinks op op')
include h

theorem Shrinks.trans (h' : Shrinks op' op'') : Shrinks op op'' :=
  ⟨h'.eventTime.trans h.eventTime, h'.processingTime.trans h.processingTime,
    h'.timers.trans h.timers,
    fun key => (h'.cleanupTimers key).trans (h.cleanupTimers key),
    fun key side => (h'.rows key side).trans (h.rows key side)⟩

theorem Shrinks.mem {e : Int × StoredRow ρ} (he : e ∈ ((op'.states key).sideRows side).entries) :
    ∃ e' ∈ ((op.states key).sideRows side).entries, uncounted e' = uncounted e :=
  List.mem_map.mp ((h.rows key side).subset (List.mem_map_of_mem he))

theorem Shrinks.operatorTime_eq : op'.operatorTime plan = op.operatorTime plan := by
  unfold operatorTime
  rw [h.eventTime, h.processingTime]

theorem Shrinks.rowTime_eq (row : InputRow ρ) :
    op'.rowTime plan row = op.rowTime plan row := by
  unfold rowTime
  rw [h.operatorTime_eq]

end

variable {key} {side} in
theorem shrinks_setRows {rows : Timeline (StoredRow ρ)}
    (h : (rows.entries.map uncounted).Sublist
      (((op.states key).sideRows side).entries.map uncounted)) :
    Shrinks op (op.setRows key side rows) := by
  refine ⟨rfl, rfl, rfl, fun _ => cleanupTimers_setRows .., fun key' side' => ?_⟩
  rw [sideRows_setRows]
  split
  · rename_i hboth
    rw [hboth.1, hboth.2]
    exact h
  · exact .refl _

theorem shrinks_expireRows (expiration ordinal : Int) :
    Shrinks op (op.expireRows plan key side expiration ordinal).1 :=
  shrinks_setRows (List.filter_sublist.map _)

theorem shrinks_emitMatches (row : InputRow ρ) (ordinal : Int) (count : Int32 → Int32) :
    Shrinks op (op.emitMatches plan side row ordinal count).1 := by
  unfold emitMatches
  split
  · apply shrinks_setRows
    rw [Timeline.modify, List.map_map, List.map_congr_left]
    intro e _
    dsimp only [Function.comp_apply]
    split <;> rfl
  · exact ⟨rfl, rfl, rfl, fun _ => rfl, fun _ _ => .refl _⟩

variable (op) [DecidableEq ρ]

/-- A row lets rows leave and is stored, if at all, while it can still meet somebody. -/
theorem processChange_cases (row : InputRow ρ) (ordinal : Int) : ∃ op', Shrinks op op' ∧
    ((op.processChange plan side row ordinal).1 = op' ∨
      op.operatorTime plan < (plan.qualifiedBounds side (op.rowTime plan row)).2 ∧
        ∃ associations, (op.processChange plan side row ordinal).1 =
          op'.storeRow plan side row associations) := by
  have hexpired : Shrinks op _ := shrinks_expireRows plan row.key side.other
    (plan.expirationTime side.other (op.operatorTime plan)) ordinal
  unfold processChange
  split
  · have hmet := hexpired.trans (shrinks_emitMatches plan side row ordinal (· + 1))
    unfold accumulate
    dsimp only
    split
    · rename_i hearly
      exact ⟨_, hmet, Or.inr ⟨hearly, _, rfl⟩⟩
    · split <;> exact ⟨_, hmet, Or.inl rfl⟩
  · have hmet := hexpired.trans (shrinks_emitMatches plan side row ordinal (· - 1))
    unfold retract
    dsimp only
    split
    all_goals
      refine ⟨_, hmet.trans ?_, Or.inl rfl⟩
      exact shrinks_setRows (List.eraseP_sublist.map _)

/-- A row does not move the clocks. -/
theorem clocks_processChange (row : InputRow ρ) (ordinal : Int) :
    (op.processChange plan side row ordinal).1.currentProcessingTime = op.currentProcessingTime ∧
      (op.processChange plan side row ordinal).1.currentEventTime = op.currentEventTime := by
  obtain ⟨op', hshrinks, heq | ⟨-, associations, heq⟩⟩ :=
    processChange_cases plan op side row ordinal
  · rw [heq]
    exact ⟨hshrinks.processingTime, hshrinks.eventTime⟩
  · rw [heq]
    unfold storeRow
    dsimp only
    split <;> exact ⟨hshrinks.processingTime, hshrinks.eventTime⟩

end Operator

end StreamFusion.IntervalJoin
