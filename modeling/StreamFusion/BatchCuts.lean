import StreamFusion.ChangelogNormalize
import StreamFusion.Deduplicate
import StreamFusion.IntervalJoin.Batches
import StreamFusion.TemporalJoin.Batches

/-!
# Batch cuts

The stateful row operators load the state of a key once for a batch, change the copy row by row and
write it back at the end.  Whether rows arrive in one batch or in several does not show, provided
that the state survives being written and read: its rows and counts fit the format, and no timer is
at the smallest time, which the joins write for a missing timer.
-/

namespace StreamFusion

open State IntervalJoin

open ChangelogNormalize in
/-- The batches of changelog normalisation carry the time they are processed at. -/
theorem ChangelogNormalize.Plan.batch_cuts (plan : Plan) (nowMillis : Int64) {store : Store}
    {view : StateKey → Option StoredRow} {batches : List (List InputRow)}
    (hstore : RowOperator.Holds (Option.map encodeState) Plan.Storable store view)
    (hvalid : ∀ row ∈ batches.flatten, Plan.Valid (nowMillis, row))
    (hlength : batches.flatten.length ≤ 2 ^ 31) :
    ∃ final events, plan.processArrow store nowMillis batches.flatten = .ok (final, events) ∧
      plan.processBatches store (batches.map fun rows => (nowMillis, rows)) =
          .ok (final, events) := by
  have hflatten : (batches.map fun rows => Plan.timed (nowMillis, rows)).flatten =
      Plan.timed (nowMillis, batches.flatten) := by
    simp only [Plan.timed]
    exact List.map_flatten.symm
  have hbatches : (batches.map fun rows => (nowMillis, rows)).map Plan.timed =
      batches.map fun rows => Plan.timed (nowMillis, rows) := by
    rw [List.map_map]
    rfl
  have htimed : ∀ row ∈ (batches.map fun rows => Plan.timed (nowMillis, rows)).flatten,
      Plan.Valid row := by
    intro row hrow
    rw [hflatten] at hrow
    obtain ⟨row', hrow', rfl⟩ := List.mem_map.mp hrow
    exact hvalid row' hrow'
  have hsize : (batches.map fun rows => Plan.timed (nowMillis, rows)).flatten.length ≤ 2 ^ 31 := by
    rw [hflatten, Plan.timed, List.length_map]
    exact hlength
  obtain ⟨final, events, hwhole, hcut⟩ :=
    RowOperator.batch_cuts (operator_refines plan) hstore htimed hsize
  rw [hflatten] at hwhole
  rw [← hbatches] at hcut
  exact ⟨final, events, hwhole, hcut⟩

namespace IntervalJoin

/-- An inner join of equal times. -/
def cutPlan : Plan where
  eventTime := true
  joinType := .inner
  leftLowerBoundMillis := 0
  leftUpperBoundMillis := 0
  minCleanupIntervalMillis := 0
  allowedLatenessMillis := 0
  filterNulls := []
  lower_le_upper := Int.le_refl 0
  minCleanup_nonneg := Int.le_refl 0
  lateness_nonneg := Int.le_refl 0

/-- A row of one key. -/
def cutRow (time : Int) : InputRow Wire.Bytes := ⟨⟨0, []⟩, [], time, .insert, []⟩

/-- An empty store holds the empty states. -/
theorem holds_empty (plan : Plan) (side : Side) (processingTime : Int) {room : Nat}
    (h : room < 2 ^ 32) :
    (batchOperator plan side processingTime).Holds Storable room ∅ fun _ => {} := by
  intro key
  refine ⟨⟨fun _ => ?_, fun _ e he => ?_, fun _ time htime => ?_⟩, ?_⟩
  · simpa using h
  · cases he
  · cases htime
  · rw [Store.get_empty]
    rfl

end IntervalJoin

namespace TemporalJoin

/-- A left outer join on event time with a state retention. -/
def cutPlan : Plan := ⟨.eventTime, true, [], 10, 20, by decide⟩

/-- An empty store holds the empty states. -/
theorem holds_empty (plan : Plan) (side : Side) (processingTime : Int) {room : Nat}
    (h : room < 2 ^ 32) :
    (batchOperator plan side processingTime).Holds (Storable plan) room ∅ fun _ => {} := by
  intro key
  refine ⟨⟨⟨Nat.two_pow_pos 64, ?_, ?_, nofun, nofun, List.Pairwise.nil, nofun,
    nofun, fun _ => rfl⟩,
    fun _ => rfl⟩, ?_⟩
  · simpa using h
  · simpa using h
  · rw [Store.get_empty]
    rfl

end TemporalJoin

namespace IntervalJoin

end IntervalJoin

end StreamFusion
