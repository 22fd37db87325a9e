import StreamFusion.Aggregate.Accumulator

/-!
# Native kernels

Counts, integer sums and averages and the append-only extrema are computed by accumulators of the
query engine, which the operator creates from the state of a group and keeps for the rest of the
batch.  `DataFusion` is what the operator relies on: the effect of every call on the value that
`evaluate` returns.  All other accumulators, and the counted maps of the DISTINCT counts, are
updated by the operator itself.

A kernel is created by merging the accumulator's value into a fresh one.  Retractions of a sum are
updates with the negated argument, retractions of an append-only extremum are skipped.
-/

namespace StreamFusion.Aggregate

open Wire State

/-! ## The engine -/

/-- An accumulator of the engine: inputs `ι`, partial results `μ` and results `ο`. -/
structure NativeAccumulator (ι μ ο : Type) where
  State : Type
  createAccumulator : State
  mergeBatch : State → μ → State
  updateBatch : State → ι → State
  retractBatch : State → ι → State
  evaluate : State → ο

/-- The better of two values, the earlier one on a tie. -/
def better (minimum : Bool) (current : Option AggregateValue) (candidate : AggregateValue) :
    AggregateValue :=
  match current with
  | none => candidate
  | some current => flinkAppendExtremum current candidate minimum

/-- An optional 64-bit sum after one more summand. -/
def addOptional (sum summand : Option Int64) : Option Int64 :=
  match summand with
  | none => sum
  | some x => some (sum.getD 0 + x)

/-- The accumulators the operator uses: COUNT, the 64-bit SUM, and MIN and MAX of a type. -/
structure DataFusion where
  count : NativeAccumulator Bool Int64 Int64
  sum : NativeAccumulator (Option Int64) (Option Int64) (Option Int64)
  extremum : Bool → DataType →
    NativeAccumulator (Option AggregateValue) (Option AggregateValue) (Option AggregateValue)
  count_create : count.evaluate count.createAccumulator = 0
  count_merge : ∀ s n, count.evaluate (count.mergeBatch s n) = count.evaluate s + n
  count_update : ∀ s present, count.evaluate (count.updateBatch s present) =
    if present then count.evaluate s + 1 else count.evaluate s
  count_retract : ∀ s present, count.evaluate (count.retractBatch s present) =
    if present then count.evaluate s - 1 else count.evaluate s
  sum_create : sum.evaluate sum.createAccumulator = none
  sum_merge : ∀ s x, sum.evaluate (sum.mergeBatch s x) = addOptional (sum.evaluate s) x
  sum_update : ∀ s x, sum.evaluate (sum.updateBatch s x) = addOptional (sum.evaluate s) x
  extremum_create : ∀ minimum type,
    (extremum minimum type).evaluate (extremum minimum type).createAccumulator = none
  extremum_merge : ∀ minimum type s value, (∀ v, value = some v → HasType v type) →
    type.isFloat = false → (extremum minimum type).evaluate
      ((extremum minimum type).mergeBatch s value) =
      match value with
      | none => (extremum minimum type).evaluate s
      | some v => some (better minimum ((extremum minimum type).evaluate s) v)
  extremum_update : ∀ minimum type s value, (∀ v, value = some v → HasType v type) →
    type.isFloat = false → (extremum minimum type).evaluate
      ((extremum minimum type).updateBatch s value) =
      match value with
      | none => (extremum minimum type).evaluate s
      | some v => some (better minimum ((extremum minimum type).evaluate s) v)

/-- An engine whose accumulators are their values. -/
def DataFusion.reference : DataFusion where
  count := ⟨Int64, 0, (· + ·), fun n p => if p then n + 1 else n, fun n p => if p then n - 1 else n,
    id⟩
  sum := ⟨Option Int64, none, addOptional, addOptional, fun s _ => s, id⟩
  extremum minimum _ := ⟨Option AggregateValue, none,
    fun s value => value.elim s fun v => some (better minimum s v),
    fun s value => value.elim s fun v => some (better minimum s v), fun s _ => s, id⟩
  count_create := rfl
  count_merge _ _ := rfl
  count_update _ _ := rfl
  count_retract _ _ := rfl
  sum_create := rfl
  sum_merge _ _ := rfl
  sum_update _ _ := rfl
  extremum_create _ _ := rfl
  extremum_merge _ _ _ value _ _ := by cases value <;> rfl
  extremum_update _ _ _ value _ _ := by cases value <;> rfl

/-! ## Which calls have a kernel -/

/-- Is the call computed by the engine? -/
def reusable (call : Call) : Bool :=
  if call.distinct then
    false
  else
    match call.function with
    | .count | .countStar => true
    | .sum | .sum0 | .avg =>
      call.inputType.any DataType.isInteger && call.outputType.isInteger
    | .min | .max => !call.retractable && !call.inputType.any DataType.isFloat

/-- Does the engine count the changes of a DISTINCT membership? -/
def supports (call : Call) : Bool := call.distinct && call.function = .count

/-- The running state of a call in the engine. -/
inductive Kernel (D : DataFusion) where
  | count (state : D.count.State)
  | sum (state : D.sum.State)
  | extremum (minimum : Bool) (type : DataType) (state : (D.extremum minimum type).State)

/-! ## Creating kernels -/

/-- A value as a cell of an array of the type. -/
def aggregateArray (value : Option AggregateValue) (type : DataType) :
    Except StateError (Option AggregateValue) :=
  match type, type.width, value with
  | .other _, _, _ => .error (.execution "group aggregate cannot emit type")
  | _, _, none => .ok none
  | _, some w, some (.int v) => .ok (some (.int (narrow w v)))
  | .decimal128 _ _, _, some (.int v) => .ok (some (.int v))
  | .float32, _, some (.float32 bits) => .ok (some (.float32 bits))
  | .float64, _, some (.float64 bits) => .ok (some (.float64 bits))
  | .boolean, _, some (.boolean b) => .ok (some (.boolean b))
  | .utf8, _, some (.bytes b) =>
    if validUtf8 b then .ok (some (.bytes b)) else .error (.execution "invalid utf-8")
  | _, _, _ => .error (.internal "group aggregate expected another accumulator value")

/-- A value as a cell of an integer array. -/
def int64Array (value : Option AggregateValue) : Except StateError (Option Int64) := do
  match ← aggregateArray value .int64 with
  | some (.int v) => .ok (some (Int64.ofInt v))
  | _ => .ok none

variable (D : DataFusion)

/-- The kernel of a call, with the value of its accumulator merged in. -/
def Kernel.new (call : Call) (accumulator : Accumulator) : Except StateError (Option (Kernel D)) :=
  if !reusable call && !supports call then
    .ok none
  else
    match call.function, accumulator with
    | .countStar, .count n | .count, .count n | .count, .distinctCount n _ =>
      .ok (some (.count (D.count.mergeBatch D.count.createAccumulator n)))
    | .sum, .sum value _ | .sum0, .sum value _ | .avg, .average value _ => do
      .ok (some (.sum (D.sum.mergeBatch D.sum.createAccumulator (← int64Array value))))
    | .min, .appendExtremum value => do
      let type := call.inputType.getD .int8
      .ok (some (.extremum true type ((D.extremum true type).mergeBatch
        (D.extremum true type).createAccumulator (← aggregateArray value call.outputType))))
    | .max, .appendExtremum value => do
      let type := call.inputType.getD .int8
      .ok (some (.extremum false type ((D.extremum false type).mergeBatch
        (D.extremum false type).createAccumulator (← aggregateArray value call.outputType))))
    | _, _ => .error (.internal "unexpected DataFusion accumulator adapter")

/-- The kernels of all calls; `none` for a call without one. -/
def RowKernels.new : List Call → List Accumulator → Except StateError (List (Option (Kernel D)))
  | call :: calls, accumulator :: accumulators => do
    let kernel ← Kernel.new D call accumulator
    .ok (kernel :: (← RowKernels.new calls accumulators))
  | _, _ => .ok []

/-! ## Applying a row -/

variable {D}

/-- The argument of an arithmetic call, cast to 64 bits. -/
def arithmeticInput (call : Call) (schema : Schema) (row : InputRow) :
    Except StateError (Option Int64) :=
  match call.inputIndex with
  | some index => do
    match ← aggregateValue schema row index with
    | none => .ok none
    | some (.int v) => .ok (some (Int64.ofInt v))
    | some _ => .error (.internal "cast to i64")
  | none => .error (.panic "aggregate call requires an input field")

/-- Does a row count for COUNT? -/
def countInput (call : Call) (schema : Schema) (row : InputRow) : Except StateError Bool :=
  match call.inputIndex with
  | some index => do
    let (_, cell) ← row.column schema index
    .ok cell.isSome
  | none => .ok true

/-- A sum of the engine as a value of the output type. -/
def sumOutput (value : Option Int64) (type : DataType) :
    Except StateError (Option AggregateValue) :=
  match value with
  | none => .ok none
  | some v => aggregateAdd (zeroValue type) (.int v.toInt) type

/-- A row that passes the filter, for a call with a kernel. -/
def Kernel.apply (call : Call) (schema : Schema) (row : InputRow) (accumulate : Bool) :
    Kernel D → Accumulator → Except StateError (Kernel D × Accumulator)
  | .count state, .distinctCount n values => do
    match call.inputIndex with
    | none => .error (.panic "COUNT argument")
    | some index =>
      match ← aggregateValue schema row index with
      | none => .ok (.count state, .distinctCount n values)
      | some value =>
        let members := values.add value (delta accumulate)
        if values.changes value accumulate then
          let state := if accumulate then D.count.updateBatch state true
            else D.count.retractBatch state true
          .ok (.count state, .distinctCount (D.count.evaluate state) members)
        else
          .ok (.count state, .distinctCount n members)
  | .count state, .count _ => do
    let input ← countInput call schema row
    let state := if accumulate then D.count.updateBatch state input
      else D.count.retractBatch state input
    .ok (.count state, .count (D.count.evaluate state))
  | .sum state, .sum _ n => do
    let input ← arithmeticInput call schema row
    let state := D.sum.updateBatch state (if accumulate then input else input.map (- ·))
    let value ← sumOutput (D.sum.evaluate state) call.outputType
    .ok (.sum state, .sum value (if input.isSome then n + delta accumulate else n))
  | .sum state, .average _ n => do
    let input ← arithmeticInput call schema row
    let state := D.sum.updateBatch state (if accumulate then input else input.map (- ·))
    .ok (.sum state, .average ((D.sum.evaluate state).map fun v => .int v.toInt)
      (if input.isSome then n + delta accumulate else n))
  | .extremum minimum type state, .appendExtremum best =>
    if accumulate then do
      match call.inputIndex with
      | none => .error (.panic "aggregate call requires an input field")
      | some index =>
        let state := (D.extremum minimum type).updateBatch state (← aggregateValue schema row index)
        .ok (.extremum minimum type state,
          .appendExtremum ((D.extremum minimum type).evaluate state))
    else
      .ok (.extremum minimum type state, .appendExtremum best)
  | _, _ => .error (.panic "validated native accumulator adapter")

/-- One row and one call, with or without a kernel. -/
def RowKernels.applyCall (call : Call) (schema : Schema) (row : InputRow) (accumulate : Bool)
    (kernel : Option (Kernel D)) (accumulator : Accumulator) :
    Except StateError (Option (Kernel D) × Accumulator) :=
  match kernel with
  | none => do
    let value ← rowAggregateValue call schema row
    let active ← aggregateFilter call schema row
    .ok (none, ← accumulator.applyRow call value active accumulate)
  | some kernel => do
    if ← aggregateFilter call schema row then
      let (kernel, accumulator) ← kernel.apply call schema row accumulate accumulator
      .ok (some kernel, accumulator)
    else
      .ok (some kernel, accumulator)

/-- One row, call by call. -/
def RowKernels.applyCalls (schema : Schema) (row : InputRow) (accumulate : Bool) :
    List Call → List (Option (Kernel D)) → List Accumulator →
      Except StateError (List (Option (Kernel D)) × List Accumulator)
  | call :: calls, kernel :: kernels, accumulator :: accumulators => do
    let (kernel, accumulator) ← RowKernels.applyCall call schema row accumulate kernel accumulator
    let (kernels, accumulators) ← applyCalls schema row accumulate calls kernels accumulators
    .ok (kernel :: kernels, accumulator :: accumulators)
  | _, _, _ => .ok ([], [])

/-- One row and the state of its group. -/
def RowKernels.apply (calls : List Call) (schema : Schema) (row : InputRow) (accumulate : Bool)
    (kernels : List (Option (Kernel D))) (state : AccumulatorState) :
    Except StateError (List (Option (Kernel D)) × AccumulatorState) := do
  let (kernels, accumulators) ←
    RowKernels.applyCalls schema row accumulate calls kernels state.accumulators
  .ok (kernels, ⟨state.rowCount + delta accumulate, accumulators⟩)

end StreamFusion.Aggregate
