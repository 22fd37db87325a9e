import StreamFusion.Aggregate.Value

/-!
# Aggregate calls and their accumulators

A plan names its aggregate calls; `lowerCall` is the check every call passes before the operator is
built.  An input batch has typed columns, and a row is a list of cells, one for each column.  A call
reads its argument and its filter from a row.

The state of a group is a row count and one accumulator for each call.  `applyValue` is what one
argument does to one accumulator, in either direction; `accumulatorValue` is the visible result.
Counters are 64-bit and wrap.
-/

namespace StreamFusion.Aggregate

open Wire State

/-! ## Calls -/

/-- The aggregate functions. -/
inductive AggregateFunction where
  | countStar
  | count
  | sum
  | sum0
  | min
  | max
  | avg
  deriving DecidableEq, Repr

/-- An aggregate call: its function, the columns of its argument and its filter, and its types. -/
structure Call where
  function : AggregateFunction
  inputIndex : Option Nat
  filterIndex : Option Nat
  distinct : Bool
  inputType : Option DataType
  outputType : DataType
  retractable : Bool
  deriving DecidableEq, Repr

/-- The type of the running sum of an average. -/
def Call.averageAccumulatorType (call : Call) : DataType :=
  match call.inputType with
  | some .int8 | some .int16 | some .int32 | some .int64 => .int64
  | some .float32 | some .float64 => .float64
  | some (.decimal128 _ scale) => .decimal128 38 scale
  | _ => .other "unreachable"

/-- The types that SUM takes. -/
def ensureSumType (type : DataType) : Except StateError Unit :=
  match type with
  | .int8 | .int16 | .int32 | .int64 | .float32 | .float64 | .decimal128 _ _ => .ok ()
  | _ => .error (.plan "group aggregate SUM type is not supported")

/-- The types that MIN and MAX take. -/
def ensureExtremumType (type : DataType) : Except StateError Unit :=
  match type with
  | .int8 | .int16 | .int32 | .int64 | .float32 | .float64 | .decimal128 _ _ | .boolean | .utf8
  | .date32 | .time32 .second | .time32 .millisecond | .time64 .microsecond | .time64 .nanosecond
  | .timestamp _ _ => .ok ()
  | _ => .error (.plan "group aggregate MIN/MAX type is not supported")

/-- The input, buffer and output types an average may have. -/
def averageTypes : DataType → DataType → DataType → Bool
  | .int8, accumulator, output => accumulator = .int64 && output = .int8
  | .int16, accumulator, output => accumulator = .int64 && output = .int16
  | .int32, accumulator, output => accumulator = .int64 && output = .int32
  | .int64, accumulator, output => accumulator = .int64 && output = .int64
  | .float32, accumulator, output => accumulator = .float64 && output = .float32
  | .float64, accumulator, output => accumulator = .float64 && output = .float64
  | .decimal128 _ inputScale, accumulator, .decimal128 precision outputScale =>
    accumulator = .decimal128 38 inputScale && precision = 38 && inputScale ≤ outputScale
  | _, _, _ => false

/-- The types that AVG takes. -/
def ensureAverageTypes (input accumulator output : DataType) : Except StateError Unit :=
  if averageTypes input accumulator output then .ok ()
  else .error (.plan
    "group aggregate AVG requires a Flink-compatible input/buffer/output triple")

/-- The checks of a call of the plan; `accumulatorType` is the buffer type the plan may name. -/
def lowerCall (call : Call) (accumulatorType : Option DataType) : Except StateError Call := do
  if call.function = .countStar ∧ call.inputIndex.isSome then
    .error (.plan "COUNT(*) must not name an input field")
  if call.function = .countStar ∧ call.distinct then
    .error (.plan "COUNT(DISTINCT *) is not a valid aggregate call")
  if call.function ≠ .countStar ∧ call.inputIndex.isNone then
    .error (.plan "aggregate call requires an input field")
  match call.function with
  | .countStar | .count =>
    if call.outputType ≠ .int64 then .error (.plan "COUNT output must be BIGINT")
  | .sum | .sum0 =>
    ensureSumType call.outputType
    match call.inputType with
    | some inputType => ensureSumType inputType
    | none => .error (.panic "SUM input was validated")
  | .avg =>
    match call.inputType with
    | some inputType =>
      ensureAverageTypes inputType (accumulatorType.getD call.outputType) call.outputType
    | none => .error (.panic "AVG input was validated")
  | .min | .max =>
    ensureExtremumType call.outputType
    match call.inputType with
    | some inputType =>
      ensureExtremumType inputType
      if inputType ≠ call.outputType then
        .error (.plan "MIN/MAX input does not match output")
    | none => .error (.panic "extremum input was validated")
  .ok call

/-! ## Input rows -/

/-- A row of a batch: its group, its change kind and its cells.  A column of a type the aggregates
do not know is only asked whether a cell is null; any value stands for its other cells. -/
structure InputRow where
  key : StateKey
  kind : Int8
  cells : List (Option AggregateValue)
  deriving DecidableEq, Repr

/-- The types of the input columns. -/
abbrev Schema := List DataType

/-- The cell of a column, with the type of the column. -/
def InputRow.column (row : InputRow) (schema : Schema) (index : Nat) :
    Except StateError (DataType × Option AggregateValue) :=
  match schema[index]?, row.cells[index]? with
  | some type, some cell => .ok (type, cell)
  | _, _ => .error (.panic "column index out of bounds")

/-- The value of a cell; all NaNs are read as one. -/
def aggregateValue (schema : Schema) (row : InputRow) (index : Nat) :
    Except StateError (Option AggregateValue) := do
  let (type, cell) ← row.column schema index
  match cell, type with
  | none, _ => .ok none
  | some _, .other name => .error (.execution ("group aggregate cannot read input type " ++ name))
  | some value, _ => .ok (some value.canonical)

/-- The argument of a call; a plain COUNT only asks whether there is one. -/
def rowAggregateValue (call : Call) (schema : Schema) (row : InputRow) :
    Except StateError (Option AggregateValue) :=
  match call.inputIndex with
  | some index =>
    if call.function = .count ∧ call.distinct = false then do
      let (_, cell) ← row.column schema index
      .ok (if cell.isNone then none else some (.boolean true))
    else
      aggregateValue schema row index
  | none => .ok none

/-- A null predicate is false. -/
def aggregateFilter (call : Call) (schema : Schema) (row : InputRow) : Except StateError Bool :=
  match call.filterIndex with
  | none => .ok true
  | some index => do
    match ← row.column schema index with
    | (.boolean, none) => .ok false
    | (.boolean, some (.boolean value)) => .ok value
    | _ => .error (.execution
        ("aggregate FILTER input " ++ toString index ++ " is not Arrow Boolean"))

/-! ## Accumulators -/

/-- The values of a DISTINCT call, each with its multiplicity. -/
abbrev CountedValues := Std.ExtTreeMap AggregateValue Int64 compare

/-- What one call has accumulated. -/
inductive Accumulator where
  | count (count : Int64)
  | distinctCount (count : Int64) (values : CountedValues)
  | sum (value : Option AggregateValue) (count : Int64)
  | distinctSum (value : Option AggregateValue) (count : Int64) (values : CountedValues)
  | average (value : Option AggregateValue) (count : Int64)
  | distinctAverage (value : Option AggregateValue) (count : Int64) (values : CountedValues)
  | appendExtremum (value : Option AggregateValue)
  | extremum (values : CountedValues)

/-- The accumulator of a group without rows. -/
def Accumulator.new (call : Call) : Accumulator :=
  match call.function with
  | .countStar | .count => if call.distinct then .distinctCount 0 ∅ else .count 0
  | .sum | .sum0 => if call.distinct then .distinctSum none 0 ∅ else .sum none 0
  | .avg =>
    if call.distinct then
      .distinctAverage (some (zeroValue call.averageAccumulatorType)) 0 ∅
    else
      .average (some (zeroValue call.averageAccumulatorType)) 0
  | .min | .max => if call.retractable then .extremum ∅ else .appendExtremum none

/-- The state of a group: the number of its rows and an accumulator for each call. -/
structure AccumulatorState where
  rowCount : Int64
  accumulators : List Accumulator

/-- The state of a group without rows. -/
def AccumulatorState.new (calls : List Call) : AccumulatorState :=
  ⟨0, calls.map .new⟩

/-- What a row adds to a count. -/
def delta (accumulate : Bool) : Int64 := if accumulate then 1 else -1

/-- The signed multiplicity of a value, zero if it is not in the map. -/
def CountedValues.multiplicity (values : CountedValues) (value : AggregateValue) : Int64 :=
  values[value]?.getD 0

/-- Changes the multiplicity of a value; a value with multiplicity zero leaves the map. -/
def CountedValues.add (values : CountedValues) (value : AggregateValue) (delta : Int64) :
    CountedValues :=
  let current := values.multiplicity value + delta
  if current = 0 then values.erase value else values.insert value current

/-- Is it the first accumulation of a value or its last retraction? -/
def CountedValues.changes (values : CountedValues) (value : AggregateValue)
    (accumulate : Bool) : Bool :=
  if accumulate then values.multiplicity value = 0
  else values.multiplicity value + delta accumulate = 0

/-- An argument of AVG in the type of the running sum. -/
def averageContribution (value : AggregateValue) (call : Call) : Except StateError AggregateValue :=
  match value, call.inputType, call.averageAccumulatorType with
  | .int value, some .int8, .int64 | .int value, some .int16, .int64
  | .int value, some .int32, .int64 | .int value, some .int64, .int64 => .ok (.int value)
  | .float32 bits, some .float32, .float64 => .ok (float64Value (Float32.ofBits bits).toFloat)
  | .float64 bits, some .float64, .float64 => .ok (.float64 bits)
  | .int value, some (.decimal128 _ inputScale), .decimal128 38 sumScale =>
    if inputScale = sumScale then .ok (.int value) else .error (.internal "AVG cannot convert")
  | _, _, _ => .error (.internal "AVG cannot convert")

/-- The sum after one argument; a sum without a value starts from the argument itself. -/
def addToSum (sum : Option AggregateValue) (value : AggregateValue) (type : DataType)
    (accumulate : Bool) : Except StateError (Option AggregateValue) :=
  match sum, accumulate with
  | some current, true => aggregateAdd current value type
  | some current, false => aggregateSub current value type
  | none, true => .ok (some value)
  | none, false => aggregateSub (zeroValue type) value type

/-- The running sum of an average after one argument; once lost, it stays lost. -/
def addToAverage (sum : Option AggregateValue) (value : AggregateValue) (call : Call)
    (accumulate : Bool) : Except StateError (Option AggregateValue) := do
  let contribution ← averageContribution value call
  match sum, accumulate with
  | some current, true => aggregateAdd current contribution call.averageAccumulatorType
  | some current, false => aggregateSub current contribution call.averageAccumulatorType
  | none, _ => .ok none

/-- What an argument that is not null does to an accumulator. -/
def Accumulator.applyValue (call : Call) (value : AggregateValue) (accumulate : Bool) :
    Accumulator → Except StateError Accumulator
  | .count n => .ok (.count (n + delta accumulate))
  | .distinctCount n values =>
    .ok (.distinctCount
      (if values.changes value accumulate then n + delta accumulate else n)
      (values.add value (delta accumulate)))
  | .sum total n => do
    .ok (.sum (← addToSum total value call.outputType accumulate) (n + delta accumulate))
  | .distinctSum total n values => do
    if values.changes value accumulate then
      .ok (.distinctSum (← addToSum total value call.outputType accumulate)
        (n + delta accumulate) (values.add value (delta accumulate)))
    else
      .ok (.distinctSum total n (values.add value (delta accumulate)))
  | .average total n => do
    .ok (.average (← addToAverage total value call accumulate) (n + delta accumulate))
  | .distinctAverage total n values => do
    if values.changes value accumulate then
      .ok (.distinctAverage (← addToAverage total value call accumulate)
        (n + delta accumulate) (values.add value (delta accumulate)))
    else
      .ok (.distinctAverage total n (values.add value (delta accumulate)))
  | .appendExtremum best =>
    .ok (.appendExtremum (some (match best with
      | some current => flinkAppendExtremum current value (call.function = .min)
      | none => value)))
  | .extremum values => .ok (.extremum (values.add value (delta accumulate)))

/-- One call and its accumulator; an inactive call ignores the row, and so does a call without an
argument, unless it counts rows. -/
def Accumulator.applyRow (call : Call) (value : Option AggregateValue) (active accumulate : Bool)
    (accumulator : Accumulator) : Except StateError Accumulator :=
  if active then
    match accumulator, value with
    | .count n, none =>
      .ok (.count (if call.inputIndex.isNone then n + delta accumulate else n))
    | accumulator, some value => accumulator.applyValue call value accumulate
    | accumulator, none => .ok accumulator
  else
    .ok accumulator

/-! ## Results -/

/-- The result of AVG. -/
def averageValue (value : Option AggregateValue) (count : Int64) (call : Call) :
    Option AggregateValue :=
  if count = 0 then
    none
  else
    -- the quotient of two 64-bit integers, truncated and wrapped
    let quotient (sum : Int) : Int := narrow 64 ((narrow 64 sum).tdiv count.toInt)
    match value, call.averageAccumulatorType, call.outputType with
    | some (.int sum), .int64, .int8 => some (.int (narrow 8 (quotient sum)))
    | some (.int sum), .int64, .int16 => some (.int (narrow 16 (quotient sum)))
    | some (.int sum), .int64, .int32 => some (.int (narrow 32 (quotient sum)))
    | some (.int sum), .int64, .int64 => some (.int (quotient sum))
    | some (.float64 sum), .float64, .float32 =>
      some (float32Value (Float.ofBits sum / Float.ofInt count.toInt).toFloat32)
    | some (.float64 sum), .float64, .float64 =>
      some (float64Value (Float.ofBits sum / Float.ofInt count.toInt))
    | some (.int sum), .decimal128 _ sumScale, .decimal128 precision outputScale =>
      (flinkDivideNonzero sum sumScale.toNat count.toInt 0 precision outputScale).map .int
    | _, _, _ => none

/-- The first value with a positive multiplicity. -/
def firstPositive (entries : List (AggregateValue × Int64)) : Option AggregateValue :=
  (entries.find? fun entry => 0 < entry.2).map Prod.fst

/-- The result of a call. -/
def accumulatorValue (call : Call) : Accumulator → Option AggregateValue
  | .count count => some (.int count.toInt)
  | .distinctCount count _ => some (.int count.toInt)
  | .sum value count =>
    if count = 0 then
      if call.function = .sum0 then some (zeroValue call.outputType) else none
    else
      value
  | .distinctSum value count _ => if count = 0 then none else value
  | .average value count => averageValue value count call
  | .distinctAverage value count _ => averageValue value count call
  | .appendExtremum value => value
  | .extremum values =>
    if call.function = .min then firstPositive values.toList
    else firstPositive values.toList.reverse

/-- The results of all calls. -/
def AccumulatorState.values (state : AccumulatorState) (calls : List Call) :
    List (Option AggregateValue) :=
  List.zipWith accumulatorValue calls state.accumulators

end StreamFusion.Aggregate
