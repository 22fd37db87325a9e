import StreamFusion.Lib.Outcome
import StreamFusion.Exchange.KeyGroup

/-!
# The hash exchange

A batch is cut into frames, and every frame carries a key group by which the receiving side finds
its channel.  One way to cut collects the rows of each channel and tags them with the least key
group of the channel; the other cuts the batch into runs of rows of one key group, which can still
be routed after a change of the parallelism.  Either way the rows may be sent with their encoded
keys in an additional column, and are then routed by these.

A row is a list of cells.  `RowEncoder` is what routing needs to know about the encoding of keys: it
looks at one row, and its result consists of whole words.  Memory admission and the IPC encoding of
a frame are left out: a frame is its rows.
-/

namespace StreamFusion.Exchange

open Wire

variable {C F : Type}

/-- The encoding of keys over cells of type `C` and key fields of type `F`. -/
structure RowEncoder (C F : Type) where
  encode : List (Nat × F) → List C → Except ExchangeError Bytes
  /-- The value of a cell of a Binary column, unless it is null. -/
  binaryValue : C → Option Bytes
  ofBinary : Bytes → C
  binaryValue_ofBinary (bytes : Bytes) : binaryValue (ofBinary bytes) = some bytes
  words {fields : List (Nat × F)} {row : List C} {bytes : Bytes} :
    encode fields row = .ok bytes → bytes.length % 4 = 0

/-- A field of the key: an encoded key, or a field to be encoded. -/
inductive KeyField (F : Type) where
  | preencodedBinaryRow
  | plain (kind : F)

/-- A batch: which of its columns are Arrow Binary columns, and its rows. -/
structure RecordBatch (C : Type) where
  binary : List Bool
  rows : List (List C)
  width : ∀ row ∈ rows, row.length = binary.length

/-- The number of columns. -/
def RecordBatch.numColumns (batch : RecordBatch C) : Nat := batch.binary.length

/-- The column of an encoded key, if there is one among the key fields. -/
def preencodedColumn (fields : List (Nat × KeyField F)) : Option Nat :=
  fields.findSome? fun field =>
    match field.2 with
    | .preencodedBinaryRow => some field.1
    | .plain _ => none

/-- The fields to be encoded. -/
def plainFields (fields : List (Nat × KeyField F)) : List (Nat × F) :=
  fields.filterMap fun field =>
    match field.2 with
    | .preencodedBinaryRow => none
    | .plain kind => some (field.1, kind)

/-! ## Visiting the rows -/

section Visit

variable (E : RowEncoder C F) (batch : RecordBatch C) (fields : List (Nat × KeyField F))

/-- The key bytes of a row, as routing reads them. -/
def routingKey (row : List C) : Except ExchangeError Bytes :=
  match preencodedColumn fields with
  | some column =>
    match row[column]?.bind E.binaryValue with
    | none => .error (.invalidArgument "a preencoded BinaryRow exchange key cannot be null")
    | some key =>
      if key.length % 4 = 0 then .ok key
      else .error (.invalidArgument "a preencoded BinaryRow exchange key must be word aligned")
  | none => E.encode (plainFields fields) row

/-- What the key fields of a batch have to satisfy. -/
def checkRouting : Except ExchangeError Unit :=
  if batch.rows.length - 1 > 4294967295 then
    .error (.invalidArgument "exchange batch exceeds UInt32 indexing")
  else if fields.any fun field => field.1 ≥ batch.numColumns then
    .error (.invalidArgument "exchange key column is outside the input schema")
  else
    match preencodedColumn fields with
    | some column =>
      if fields.length ≠ 1 then
        .error (.invalidArgument "a preencoded BinaryRow key must be the only exchange key field")
      else if batch.binary[column]? ≠ some true then
        .error (.castError "a preencoded BinaryRow exchange key requires Arrow Binary")
      else .ok ()
    | none => .ok ()

/-- The visited rows: their positions and key groups. -/
def visitKeyGroups (maxParallelism : UInt32) : Except ExchangeError (List (UInt32 × UInt32)) := do
  checkRouting batch fields
  batch.rows.zipIdx.mapM fun entry => do
    let key ← routingKey E fields entry.1
    let keyGroup ← assignKeyGroup key maxParallelism
    .ok (UInt32.ofNat entry.2, keyGroup)

/-! ## Rows of a channel -/

/-- A row is pushed to the rows of its destination. -/
def pushRow (maxParallelism destinations : UInt32) (rows : List (List UInt32))
    (visit : UInt32 × UInt32) : Except ExchangeError (List (List UInt32)) :=
  let destination := (destinationOf maxParallelism destinations visit.2).toNat
  if destination < rows.length then .ok (rows.modify destination (· ++ [visit.1]))
  else .error (.assertion "index out of bounds")

/-- The positions of the rows of each channel. -/
def routingRows (maxParallelism destinations : UInt32) :
    Except ExchangeError (List (List UInt32)) := do
  let visits ← visitKeyGroups E batch fields maxParallelism
  visits.foldlM (pushRow maxParallelism destinations) (List.replicate destinations.toNat [])

/-- The rows of one channel. -/
structure RoutedBatch where
  destination : UInt32
  rows : List UInt32

/-- The rows of the channels that get some. -/
def routeBatch (maxParallelism parallelism : UInt32) : Except ExchangeError (List RoutedBatch) :=
  if parallelism = 0 ∨ parallelism > maxParallelism ∨ maxParallelism > 32768 then
    .error (.invalidArgument
      (s!"Flink exchange requires 0 < parallelism ({parallelism}) " ++
        s!"<= max parallelism ({maxParallelism}) <= 32768"))
  else do
    let destinationRows ← routingRows E batch fields maxParallelism parallelism
    .ok ((destinationRows.zipIdx.filter fun entry => !entry.1.isEmpty).map fun entry =>
      ⟨UInt32.ofNat entry.2, entry.1⟩)

/-- The first columns of all rows. -/
def project (columns : Nat) : Except ExchangeError (List (List C)) :=
  if columns > batch.numColumns then
    .error (.invalidArgument "exchange transport column count exceeds input schema")
  else .ok (batch.rows.map fun row => row.take columns)

/-- The rows at the given positions: a slice if they are consecutive, gathered otherwise. -/
def RoutedBatch.materializeProjected (routed : RoutedBatch) (columns : Nat) :
    Except ExchangeError (List (List C)) := do
  let projected ← project batch columns
  match routed.rows with
  | [] => .ok []
  | first :: _ =>
    let start := first.toNat
    if start < projected.length ∧ routed.rows.length ≤ projected.length - start ∧
        routed.rows.zipIdx.all fun entry => entry.1.toNat = start + entry.2 then
      .ok ((projected.drop start).take routed.rows.length)
    else
      routed.rows.mapM fun row =>
        match projected[row.toNat]? with
        | some values => .ok values
        | none => .error (.assertion "index out of bounds")

/-! ## Runs of a key group -/

/-- A run of rows of one key group. -/
structure KeyGroupBatch where
  keyGroup : UInt32
  start : Nat
  len : Nat

/-- A row continues the last run or starts a new one. -/
def pushRun (runs : List KeyGroupBatch) (visit : UInt32 × UInt32) : List KeyGroupBatch :=
  match runs.getLast? with
  | some last =>
    if last.keyGroup = visit.2 then runs.dropLast ++ [{ last with len := last.len + 1 }]
    else runs ++ [⟨visit.2, visit.1.toNat, 1⟩]
  | none => [⟨visit.2, visit.1.toNat, 1⟩]

/-- The runs of a batch. -/
def routeBatchByKeyGroup (maxParallelism : UInt32) : Except ExchangeError (List KeyGroupBatch) :=
  if maxParallelism = 0 ∨ maxParallelism > 32768 then
    .error (.invalidArgument
      s!"Flink exchange max parallelism {maxParallelism} is outside 1..=32768")
  else do
    let visits ← visitKeyGroups E batch fields maxParallelism
    .ok (visits.foldl pushRun [])

/-- The rows of a run. -/
def KeyGroupBatch.materializeProjected (run : KeyGroupBatch) (columns : Nat) :
    Except ExchangeError (List (List C)) := do
  let projected ← project batch columns
  .ok ((projected.drop run.start).take run.len)

/-! ## Frames -/

/-- A frame: its rows and the key group it is routed by. -/
structure RoutedFrame (C : Type) where
  keyGroup : UInt32
  rows : List (List C)

/-- The frames of a batch. -/
def frameHashExchangeBatch (maxParallelism parallelism : UInt32) (preserveKeyGroups : Bool)
    (transportColumnCount : Nat) : Except ExchangeError (List (RoutedFrame C)) :=
  if preserveKeyGroups then do
    let runs ← routeBatchByKeyGroup E batch fields maxParallelism
    runs.mapM fun run =>
      do .ok ⟨run.keyGroup, ← run.materializeProjected batch transportColumnCount⟩
  else do
    let routed ← routeBatch E batch fields maxParallelism parallelism
    routed.mapM fun part => do
      .ok ⟨channelTag maxParallelism parallelism part.destination,
        ← part.materializeProjected batch transportColumnCount⟩

end Visit

/-- The rows that arrive at a channel. -/
def delivered (maxParallelism parallelism : UInt32) (frames : List (RoutedFrame C))
    (channel : UInt32) : List (List C) :=
  frames.flatMap fun frame =>
    if selectChannel maxParallelism parallelism frame.keyGroup = .ok channel then frame.rows else []

/-! ## Generated keys -/

section Generated

variable (E : RowEncoder C F) (batch : RecordBatch C) (fields : List (Nat × KeyField F))

/-- The key bytes of a row, as the encoder writes them. -/
def encodeBinaryRow (row : List C) : Except ExchangeError Bytes :=
  match preencodedColumn fields with
  | some column =>
    if fields.length ≠ 1 then
      .error (.invalidArgument "a preencoded BinaryRow key must be the only exchange key field")
    else
      match row[column]?.bind E.binaryValue with
      | none => .error (.invalidArgument "a preencoded BinaryRow exchange key cannot be null")
      | some key =>
        if batch.binary[column]? = some true then .ok key
        else .error (.castError "a preencoded BinaryRow exchange key requires Arrow Binary")
  | none => E.encode (plainFields fields) row

/-- The keys of the rows; `written` bytes are in the column already. -/
def generateKeys (written : Nat) : List (List C) → Except ExchangeError (List Bytes)
  | [] => .ok []
  | row :: rows => do
    let key ← encodeBinaryRow E batch fields row
    if written + key.length > 2147483647 then
      .error (.resourcesExhausted "native routing keys exceed Arrow Binary offset capacity")
    else do
      let keys ← generateKeys (written + key.length) rows
      .ok (key :: keys)

/-- A batch with its keys in one more column. -/
def withKeys (keys : List Bytes) : RecordBatch C where
  binary := batch.binary ++ [true]
  rows := batch.rows.zipWith (fun row key => row ++ [E.ofBinary key]) keys
  width := by
    intro row hrow
    rw [List.mem_iff_getElem] at hrow
    obtain ⟨i, hi, rfl⟩ := hrow
    rw [List.getElem_zipWith, List.length_append, List.length_append,
      batch.width _ (List.getElem_mem _)]
    rfl

/-- The plan of an exchange. -/
structure NativeExchangePlan where
  schemaFields : Option Nat
  transportRoutingKey : Bool
  /-- The metadata columns, with the index of a routing key among them. -/
  metadataColumns : Option (Option Nat)
  maxParallelism : UInt32
  parallelism : UInt32
  preserveKeyGroups : Bool

namespace NativeExchangePlan

variable (plan : NativeExchangePlan)

/-- Are the keys generated here? -/
def generated : Bool := plan.transportRoutingKey && plan.metadataColumns = some none

/-- The number of columns that are sent. -/
def transportColumnCount (fields : Nat) : Nat :=
  if plan.transportRoutingKey then Wire.saturatingAdd fields 1 else fields

/-- The frames of a batch. -/
def frame (batch : RecordBatch C) (fields : List (Nat × KeyField F)) :
    Except ExchangeError (List (RoutedFrame C)) :=
  match plan.schemaFields with
  | none => .error (.execution "exchange schema is required")
  | some columns =>
    frameHashExchangeBatch E batch fields plan.maxParallelism plan.parallelism
      plan.preserveKeyGroups (plan.transportColumnCount columns)

/-- A batch, with generated keys if the plan says so. -/
def routeRecordBatch : Except ExchangeError (List (RoutedFrame C)) :=
  if plan.generated then
    if plan.schemaFields ≠ some batch.numColumns then
      .error (.execution
        "native routing-key generation requires exactly the declared input columns")
    else do
      let keys ← generateKeys E batch fields 0 batch.rows
      plan.frame E (withKeys E batch keys) [(batch.numColumns, .preencodedBinaryRow)]
  else
    plan.frame E batch fields

end NativeExchangePlan

end Generated

end StreamFusion.Exchange
