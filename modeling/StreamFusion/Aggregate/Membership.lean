import StreamFusion.State.Store
import StreamFusion.Aggregate.RowKernels
import StreamFusion.Aggregate.StateCodec

/-!
# DISTINCT members as entries of their own

If all DISTINCT calls of a plan are counts over exact types, the members of a group are not part of
the group's state.  Every member is an entry behind a prefix of the group, shared by the calls with
the same argument, and holds one count for each of them; the state of the group, the header, holds
only the number of members.  A batch loads the members its rows name, and the other ones only to
delete them when the group disappears.

On append-only input the counts are not needed and an entry says only which calls have seen the
member.  A group whose state is still in the older inline form keeps it until it is touched.
-/

namespace StreamFusion.Aggregate

open Wire State

/-! ## The layout -/

/-- How the counts of a member are stored. -/
inductive Mode where
  | counted
  | presence
  deriving DecidableEq, Repr

/-- The calls that share an argument; storage is anchored to the position of the first one. -/
structure MemberColumn where
  input : Nat
  identity : Nat
  calls : List Nat
  dataType : DataType
  deriving DecidableEq, Repr

/-- The columns whose members are stored outside of the state. -/
structure MembershipLayout where
  appendOnly : Bool
  columns : List MemberColumn
  deriving DecidableEq, Repr

/-- The types whose members are stored as entries. -/
def exactMemberType : DataType → Bool
  | .boolean | .int8 | .int16 | .int32 | .int64 | .utf8 | .decimal128 _ _ | .date32 | .time32 _
  | .time64 _ | .timestamp _ _ => true
  | _ => false

namespace MembershipLayout

/-- Can the members of the DISTINCT calls be stored outside? -/
def eligible (calls : List Call) : Bool :=
  let distinct := calls.filter fun call => call.distinct
  !distinct.isEmpty && distinct.all fun call =>
    supports call && call.inputType.any exactMemberType

/-- A DISTINCT call joins the column of its argument or opens one. -/
def addCall (columns : List MemberColumn) (entry : Call × Nat) :
    Except StateError (List MemberColumn) :=
  match entry.1.inputIndex, entry.1.inputType with
  | some input, some dataType =>
    match columns.find? fun column => column.input = input with
    | some column =>
      if column.dataType ≠ dataType then
        .error (.plan "DISTINCT argument has conflicting types")
      else
        .ok (columns.map fun column =>
          if column.input = input then { column with calls := column.calls ++ [entry.2] }
          else column)
    | none => .ok (columns ++ [⟨input, entry.2, [entry.2], dataType⟩])
  | _, _ => .error (.panic "distinct argument")

/-- The layout of some calls. -/
def new (calls : List Call) (appendOnly : Bool) : Except StateError MembershipLayout := do
  let columns ← (calls.zipIdx.filter fun entry => entry.1.distinct).foldlM addCall []
  .ok ⟨appendOnly, columns⟩

end MembershipLayout

/-! ## The encoding of headers and members -/

/-- What a state without its members starts with. -/
def headerMagic : Bytes := [83, 70, 71, 68]

/-- What a vector of counts starts with. -/
def countsMagic : Bytes := [83, 70, 68, 86, 1]

/-- What a vector of marks starts with. -/
def presenceMagic : Bytes := [83, 70, 68, 86, 2]

/-- Are the members of a state stored outside? -/
def isHeader (bytes : Bytes) : Bool := headerMagic.isPrefixOf bytes

/-- The bytes of the state itself. -/
def headerBytes (bytes : Bytes) : Except StateError Bytes :=
  if isHeader bytes then
    if bytes[4]? = some 1 ∨ bytes[4]? = some 2 then .ok (bytes.drop 5)
    else .error (.execution "unsupported external DISTINCT header version")
  else
    .ok bytes

/-- A state without its members. -/
def encodeHeader (state : AccumulatorState) (mode : Mode) : Bytes :=
  headerMagic ++ ((if mode = .presence then 2 else 1) :: encodeState state)

/-- The counts of a member, one for each call. -/
def encodeCounts (counts : List Int64) : Bytes :=
  countsMagic ++ (leBytes 4 counts.length ++ counts.flatMap i64Bytes)

/-- The bits of a byte, lowest first. -/
def packByte : List Bool → Nat
  | [] => 0
  | bit :: bits => (if bit then 1 else 0) + 2 * packByte bits

/-- Eight bits a byte. -/
def packBits : Nat → List Bool → Bytes
  | 0, _ => []
  | n + 1, bits => UInt8.ofNat (packByte (bits.take 8)) :: packBits n (bits.drop 8)

/-- The marks of a member, one for each call. -/
def encodePresence (counts : List Int64) : Bytes :=
  presenceMagic ++ (leBytes 4 counts.length ++
    packBits ((counts.length + 7) / 8) (counts.map (· ≠ 0)))

/-- The counts of the eight-byte chunks. -/
def chunkCounts : Nat → Bytes → List Int64
  | 0, _ => []
  | n + 1, bytes =>
    (UInt64.ofNat (leNat (bytes.take 8))).toInt64 :: chunkCounts n (bytes.drop 8)

/-- Reads the counts of a member. -/
def decodeCounts (bytes : Bytes) (count : Nat) : Except StateError (List Int64) :=
  if bytes.length ≠ 9 + count * 8 ∨ ¬ countsMagic.isPrefixOf bytes ∨
      leNat ((bytes.drop 5).take 4) ≠ count then
    .error (.execution "invalid external DISTINCT count vector")
  else
    .ok (chunkCounts count (bytes.drop 9))

/-- The mark of one call. -/
def presenceBit (bytes : Bytes) (index : Nat) : Int64 :=
  if ((bytes.drop 9)[index / 8]?.getD 0).toNat.testBit (index % 8) then 1 else 0

/-- Reads the counts or marks of a member. -/
def decodeMembers (bytes : Bytes) (count : Nat) (mode : Mode) : Except StateError (List Int64) :=
  if mode = .counted then
    decodeCounts bytes count
  else if bytes.length ≠ 9 + (count + 7) / 8 ∨ ¬ presenceMagic.isPrefixOf bytes ∨
      leNat ((bytes.drop 5).take 4) ≠ count ∨
      (count % 8 ≠ 0 ∧ (bytes.getLast?.getD 0).toNat / 2 ^ (count % 8) ≠ 0) then
    .error (.execution "invalid external DISTINCT presence vector")
  else
    .ok ((List.range count).map (presenceBit bytes))

namespace MembershipLayout

/-- The mode of a group; a group in an older form keeps all its counts. -/
def mode (layout : MembershipLayout) (bytes : Option Bytes) : Except StateError Mode :=
  match bytes with
  | none => .ok (if layout.appendOnly then .presence else .counted)
  | some bytes => do
    let _ ← headerBytes bytes
    if isHeader bytes ∧ bytes[4]? = some 2 then
      if layout.appendOnly then .ok .presence
      else .error (.execution
        "append-only DISTINCT presence state cannot restore to a retractable plan")
    else
      .ok .counted

/-- Does the accumulator hold members inline? -/
def hasMembers : Accumulator → Bool
  | .distinctCount _ values => !values.isEmpty
  | _ => false

/-- Reads a state, with or without its members. -/
def decode (layout : MembershipLayout) (bytes : Bytes) (calls : List Call) :
    Except StateError AccumulatorState := do
  let _ ← layout.mode (some bytes)
  let state ← decodeState (← headerBytes bytes) calls
  if isHeader bytes ∧ state.accumulators.any hasMembers then
    .error (.execution "external DISTINCT header contains inline membership")
  else
    .ok state

/-- An accumulator without its members. -/
def clearMembers : Accumulator → Accumulator
  | .distinctCount n _ => .distinctCount n ∅
  | accumulator => accumulator

/-- Writes a state without its members. -/
def encode (state : AccumulatorState) (mode : Mode) : Bytes :=
  encodeHeader ⟨state.rowCount, state.accumulators.map clearMembers⟩ mode

end MembershipLayout

/-! ## The keys of members -/

/-- The row format of the Arrow library, of which nothing is assumed. -/
structure RowConverter where
  encode : DataType → AggregateValue → Bytes

/-- An encoding of this kind: that of the values in a state. -/
def RowConverter.reference : RowConverter where
  encode _ := encodeValue

/-- What a sortable key starts with. -/
def sortableFormat : Bytes := [83, 70, 79, 83, 1, 59]

/-- A namespace and a length-framed identity; no such string is the start of another one. -/
def sortablePrefix (space : UInt8) (identity : Bytes) : Except StateError Bytes :=
  if identity.length < 2 ^ 32 then
    .ok (space :: (sortableFormat ++ ((leBytes 4 identity.length).reverse ++ identity)))
  else
    .error (.execution "state partition key exceeds UInt32")

/-- The common start of the keys of a group's members. -/
def membersOf (key : StateKey) : Except StateError Bytes := sortablePrefix 0xd0 key.key

/-- The key of a member. -/
def memberKey (start : Bytes) (identity : Nat) (row : Bytes) (keyGroup : UInt32) : StateKey :=
  ⟨keyGroup, start ++ ((leBytes 4 identity).reverse ++ row)⟩

/-- A member of a group that a batch works on, with its stored counts. -/
structure Member where
  column : MemberColumn
  value : AggregateValue
  original : List Int64

/-- The counts of a value in the accumulators of a column. -/
def memberCounts (state : Option AccumulatorState) (column : MemberColumn)
    (value : AggregateValue) : List Int64 :=
  column.calls.map fun index =>
    match state with
    | none => 0
    | some state =>
      match state.accumulators[index]? with
      | some (.distinctCount _ values) => values.multiplicity value
      | _ => 0

/-! ## Loading members -/

/-- A table with one entry for each key; the first one stays. -/
def insertMember (members : List (StateKey × Member)) (key : StateKey) (member : Member) :
    List (StateKey × Member) :=
  if members.any fun entry => entry.1 = key then members else members ++ [(key, member)]

/-- Does the row pass the filter of a call of the column? -/
def selected (calls : List Call) (schema : Schema) (row : InputRow) (column : MemberColumn) :
    Except StateError Bool :=
  column.calls.foldlM (fun selected index =>
    match calls[index]? with
    | some call => do .ok (selected || (← aggregateFilter call schema row))
    | none => .error (.panic "column index out of bounds")) false

section Load

variable (converter : RowConverter) (calls : List Call) (schema : Schema)

/-- A member that no call has counted yet. -/
def newMember (start : Bytes) (keyGroup : UInt32) (column : MemberColumn)
    (members : List (StateKey × Member)) (value : AggregateValue) : List (StateKey × Member) :=
  insertMember members
    (memberKey start column.identity (converter.encode column.dataType value) keyGroup)
    ⟨column, value, column.calls.map fun _ => 0⟩

/-- The member a row names, if it names one. -/
def collectRow (start : Bytes) (column : MemberColumn) (members : List (StateKey × Member))
    (row : InputRow) : Except StateError (List (StateKey × Member)) := do
  if ← selected calls schema row column then
    match ← aggregateValue schema row column.input with
    | none => .ok members
    | some value => .ok (newMember converter start row.key.keyGroup column members value)
  else
    .ok members

/-- The members that an older state holds itself. -/
def collectInline (start : Bytes) (keyGroup : UInt32) (column : MemberColumn)
    (state : AccumulatorState) (members : List (StateKey × Member)) : List (StateKey × Member) :=
  column.calls.foldl (fun members (index : Nat) =>
    match state.accumulators[index]? with
    | some (Accumulator.distinctCount _ values) =>
      (values.toList.map Prod.fst).foldl (newMember converter start keyGroup column) members
    | _ => members) members

/-- The members of a group that the batch may change. -/
def collectMembers (layout : MembershipLayout) (start : Bytes) (keyGroup : UInt32)
    (inline : Option AccumulatorState) (rows : List InputRow) :
    Except StateError (List (StateKey × Member)) :=
  layout.columns.foldlM (fun members column => do
    let members ← rows.foldlM (collectRow converter calls schema start column) members
    match inline with
    | some state => .ok (collectInline converter start keyGroup column state members)
    | none => .ok members) []

/-- Puts a count that is not zero into the accumulator of a call. -/
def putCount (value : AggregateValue) (state : AccumulatorState) (entry : Nat × Int64) :
    AccumulatorState :=
  if entry.2 = 0 then
    state
  else
    ⟨state.rowCount, state.accumulators.modify entry.1 fun accumulator =>
      match accumulator with
      | .distinctCount n values => .distinctCount n (values.insert value entry.2)
      | accumulator => accumulator⟩

/-- Reads the stored counts of a member into the state. -/
def loadMember (store : Store) (mode : Mode) (state : AccumulatorState)
    (entry : StateKey × Member) : Except StateError AccumulatorState :=
  match store.get entry.1 with
  | none => .ok state
  | some stored => do
    let counts ← decodeMembers stored entry.2.column.calls.length mode
    .ok ((entry.2.column.calls.zip counts).foldl (putCount entry.2.value) state)

/-- Does the group disappear within the rows, and what is its row count then? -/
def predictReset (start : Int64) (changes : List Bool) : Int64 × Bool :=
  changes.foldl (fun (rowCount, reset) accumulate =>
    if rowCount = 0 ∧ accumulate = false then
      (rowCount, reset)
    else
      (rowCount + delta accumulate, reset || rowCount + delta accumulate = 0)) (start, false)

end Load

/-- The members that a batch has loaded for a group. -/
structure MembershipBatch where
  members : List (StateKey × Member)
  cleanup : List StateKey
  reset : Bool

/-- The size of a page of members. -/
def pageBudget : Nat := 1024 * 1024

/-- Loads the members of a group; the state is `external` if it is a header. -/
def MembershipLayout.load (converter : RowConverter) (calls : List Call) (schema : Schema)
    (layout : MembershipLayout) (store : Store) (key : StateKey) (external : Bool) (mode : Mode)
    (state : Option AccumulatorState) (rows : List InputRow) (changes : List Bool) :
    Except StateError (Option AccumulatorState × MembershipBatch) := do
  let start ← membersOf key
  let members ← collectMembers converter calls schema layout start key.keyGroup
    (if external then none else state) rows
  let state ←
    match external, state with
    | true, some state => do .ok (some (← members.foldlM (loadMember store mode) state))
    | _, state => .ok state
  let members := if external then members.map fun entry =>
      (entry.1, { entry.2 with original := memberCounts state entry.2.column entry.2.value })
    else members
  let reset := (predictReset ((state.map fun state => state.rowCount).getD 0) changes).2
  let cleanup ← if external &&
    reset then store.visitPrefix key.keyGroup start pageBudget else .ok []
  .ok (state, ⟨members, cleanup, reset⟩)

/-- The mutations of the members of a touched group. -/
def MembershipBatch.mutations (batch : MembershipBatch) (mode : Mode)
    (state : Option AccumulatorState) : List StateMutation :=
  let written := batch.members.filterMap fun entry =>
    let counts := memberCounts state entry.2.column entry.2.value
    let current := if mode = .presence then counts.map fun n => if n ≠ 0 then 1 else 0 else counts
    if batch.cleanup.contains entry.1 || batch.reset || current ≠ entry.2.original then
      some ⟨entry.1, if current.any (· ≠ 0) then
        some (if mode = .presence then encodePresence current else encodeCounts current)
      else none⟩
    else
      none
  written ++ (batch.cleanup.filter fun key => !batch.members.any fun entry => entry.1 = key).map
    fun key => ⟨key, none⟩

end StreamFusion.Aggregate
