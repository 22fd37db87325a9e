import StreamFusion.Aggregate.KernelSemantics

/-!
# Merging accumulators

Two accumulators of one call are merged without looking at the rows they were made from.  Counts and
sums are added; of a DISTINCT accumulator only the members count, and the number and the sum of the
members follow the members that appear or disappear.  A sum without a value is a fresh one if it
counts nothing and otherwise one that has overflowed, which stays lost.

`hasDelta` asks whether there is anything to merge.
-/

namespace StreamFusion.Aggregate

open Wire State

/-! ## Members -/

/-- What a change of its multiplicity makes of a member. -/
inductive Crossing where
  | enters
  | leaves
  | stays
  deriving DecidableEq, Repr

/-- What a change of its multiplicity does to a value. -/
def CountedValues.crossing (values : CountedValues) (value : AggregateValue)
    (change : Int64) : Crossing :=
  match decide (0 < values.multiplicity value),
    decide (0 < values.multiplicity value + change) with
  | false, true => .enters
  | true, false => .leaves
  | _, _ => .stays

/-- What a crossing adds to the number of values. -/
def Crossing.change : Crossing → Int64
  | enters => 1
  | leaves => -1
  | stays => 0

/-- A member of the other accumulator, for COUNT(DISTINCT). -/
def mergeMember (state : Int64 × CountedValues) (entry : AggregateValue × Int64) :
    Int64 × CountedValues :=
  (state.1 + (state.2.crossing entry.1 entry.2).change, state.2.add entry.1 entry.2)

/-- A member of the other accumulator, for SUM(DISTINCT). -/
def mergeSumMember (call : Call) (state : Option AggregateValue × Int64 × CountedValues)
    (entry : AggregateValue × Int64) :
    Except StateError (Option AggregateValue × Int64 × CountedValues) := do
  let (value, n, values) := state
  let members := values.add entry.1 entry.2
  match values.crossing entry.1 entry.2 with
  | .enters =>
    let value ← match value with
      | some sum => aggregateAdd sum entry.1 call.outputType
      | none => .ok (if n = 0 then some entry.1 else none)
    .ok (value, n + 1, members)
  | .leaves =>
    let value ← match value with
      | some sum => aggregateSub sum entry.1 call.outputType
      | none => .ok none
    .ok (value, n - 1, members)
  | .stays => .ok (value, n, members)

/-- A member of the other accumulator, for AVG(DISTINCT). -/
def mergeAverageMember (call : Call) (state : Option AggregateValue × Int64 × CountedValues)
    (entry : AggregateValue × Int64) :
    Except StateError (Option AggregateValue × Int64 × CountedValues) := do
  let (value, n, values) := state
  let members := values.add entry.1 entry.2
  let contribution ← averageContribution entry.1 call
  match values.crossing entry.1 entry.2 with
  | .enters =>
    let value ← match value with
      | some sum => aggregateAdd sum contribution call.averageAccumulatorType
      | none => .ok none
    .ok (value, n + 1, members)
  | .leaves =>
    let value ← match value with
      | some sum => aggregateSub sum contribution call.averageAccumulatorType
      | none => .ok none
    .ok (value, n - 1, members)
  | .stays => .ok (value, n, members)

/-! ## One call -/

/-- The sum of two sums; `n` counts what the first one has. -/
def mergeSums (value other : Option AggregateValue) (n : Int64) (type : DataType) :
    Except StateError (Option AggregateValue) :=
  match value, other with
  | some left, some right => aggregateAdd left right type
  | none, some right => .ok (if n = 0 then some right else none)
  | _, none => .ok none

/-- The sum of two running sums; a lost one stays lost. -/
def mergeAverages (value other : Option AggregateValue) (type : DataType) :
    Except StateError (Option AggregateValue) :=
  match value, other with
  | some left, some right => aggregateAdd left right type
  | _, _ => .ok none

/-- Merges the other accumulator, the second one, into the first. -/
def Accumulator.merge (call : Call) : Accumulator → Accumulator → Except StateError Accumulator
  | .count n, .count m => .ok (.count (n + m))
  | .distinctCount n values, .distinctCount _ others =>
    let merged := others.toList.foldl mergeMember (n, values)
    .ok (.distinctCount merged.1 merged.2)
  | .distinctSum value n values, .distinctSum _ _ others => do
    let (value, n, values) ← others.toList.foldlM (mergeSumMember call) (value, n, values)
    .ok (.distinctSum value n values)
  | .distinctAverage value n values, .distinctAverage _ _ others => do
    let (value, n, values) ← others.toList.foldlM (mergeAverageMember call) (value, n, values)
    .ok (.distinctAverage value n values)
  | .sum value n, .sum other m =>
    -- a replaced partial value changes the sum but not the count
    if other.isSome ∨ m ≠ 0 then do
      .ok (.sum (← mergeSums value other n call.outputType) (n + m))
    else
      .ok (.sum value n)
  | .average value n, .average other m =>
    if other.isSome ∨ m ≠ 0 then do
      .ok (.average (← mergeAverages value other call.averageAccumulatorType) (n + m))
    else
      .ok (.average value n)
  | .appendExtremum value, .appendExtremum other =>
    .ok (.appendExtremum (match other with
      | none => value
      | some other => some (better (call.function = .min) value other)))
  | .extremum values, .extremum others =>
    .ok (.extremum (others.toList.foldl (fun values entry => values.add entry.1 entry.2) values))
  | _, _ => .error (.internal "aggregate accumulator variants do not match their calls")

/-! ## A group -/

/-- Call by call. -/
def mergeAccumulators : List Call → List Accumulator → List Accumulator →
    Except StateError (List Accumulator)
  | call :: calls, accumulator :: accumulators, other :: others => do
    let merged ← accumulator.merge call other
    .ok (merged :: (← mergeAccumulators calls accumulators others))
  | _, _, _ => .ok []

/-- Merges the state of another part of the rows. -/
def AccumulatorState.merge (calls : List Call) (state other : AccumulatorState) :
    Except StateError AccumulatorState := do
  if state.accumulators.length ≠ calls.length ∨ other.accumulators.length ≠ calls.length then
    .error (.internal "aggregate accumulator shape does not match its calls")
  else
    .ok ⟨state.rowCount + other.rowCount,
      ← mergeAccumulators calls state.accumulators other.accumulators⟩

end StreamFusion.Aggregate
