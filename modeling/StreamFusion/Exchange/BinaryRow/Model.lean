import StreamFusion.Lib.FloatBits
import StreamFusion.Lib.SlotLayout
import StreamFusion.Exchange.Partitioner

/-!
# The encoding of keys

A key is encoded as a row of Flink: a mask of the null fields, a slot of eight bytes for each field,
and behind the slots what does not fit into them.  Lists, maps and structs are containers of the
same kind inside the variable part of the container they belong to, with offsets that count from
their own start. A list of a narrow type has narrow slots.

An Arrow value is a `Value` of a `DataType`; `Column` is the cell of a batch, which always has the
type of its column.  The writer works on one buffer.  Every index into it is inside the buffer, and
a splice is written for `copy_from_slice`.
-/

namespace StreamFusion.Exchange.BinaryRow

open Wire SlotLayout

/-! ## Types and values -/

/-- The units of Arrow times. -/
inductive TimeUnit where
  | second
  | millisecond
  | microsecond
  | nanosecond
  deriving DecidableEq

/-- The Arrow types of key columns. -/
inductive DataType where
  | boolean
  | int8
  | int16
  | int32
  | int64
  | float32
  | float64
  | utf8
  | binary
  | fixedSizeBinary (size : Nat)
  | date32
  | time32 (unit : TimeUnit)
  | timestamp (unit : TimeUnit)
  | decimal128 (precision : Nat)
  | list (element : DataType)
  | struct (fields : List DataType)
  | map (key value : DataType)
  /-- Any other type. -/
  | other

/-- The Flink types of key fields. -/
inductive KeyField where
  | nested
  | boolean
  | tinyInt
  | smallInt
  | integer
  | bigInt
  | float
  | double
  | string
  | binary
  | date
  | time
  | timestamp (precision : Nat)
  | decimal (precision : Nat)
  deriving DecidableEq

/-- A value of an array; floating point numbers are bit patterns. -/
inductive Value where
  | null
  | bool (value : Bool)
  | int (value : Int)
  | float (bits : Nat)
  | bytes (value : Bytes)
  | list (elements : List Value)
  | map (keys values : List Value)
  | struct (columns : List Value)

/-- Does the value fit into so many bits? -/
def inWidth (width : Nat) (value : Int) : Bool :=
  -2 ^ (width - 1) ≤ value && value < 2 ^ (width - 1)

mutual

/-- Is the value one of the type? -/
def hasType : DataType → Value → Bool
  | _, .null => true
  | .boolean, .bool _ => true
  | .int8, .int value => inWidth 8 value
  | .int16, .int value => inWidth 16 value
  | .int32, .int value => inWidth 32 value
  | .int64, .int value => inWidth 64 value
  | .float32, .float bits => bits < 2 ^ 32
  | .float64, .float bits => bits < 2 ^ 64
  | .utf8, .bytes _ => true
  | .binary, .bytes _ => true
  | .fixedSizeBinary size, .bytes value => value.length = size
  | .date32, .int value => inWidth 32 value
  | .time32 _, .int value => inWidth 32 value
  | .timestamp _, .int value => inWidth 64 value
  | .decimal128 _, .int value => inWidth 128 value
  | .list element, .list elements => haveType element elements
  | .map key value, .map keys values =>
    keys.length = values.length && haveType key keys && haveType value values
  | .struct fields, .struct columns => haveTypes fields columns
  | _, _ => false

/-- Are all elements values of the type? -/
def haveType (type : DataType) : List Value → Bool
  | [] => true
  | value :: values => hasType type value && haveType type values

/-- Are the fields of a struct values of its types? -/
def haveTypes : List DataType → List Value → Bool
  | [], [] => true
  | type :: types, value :: values => hasType type value && haveTypes types values
  | _, _ => false

end

/-- A cell and its type. -/
structure Column where
  type : DataType
  value : Value
  typed : hasType type value = true

mutual

/-- The key field of an Arrow type. -/
def fromArrowType : DataType → Except ExchangeError KeyField
  | .boolean => .ok .boolean
  | .int8 => .ok .tinyInt
  | .int16 => .ok .smallInt
  | .int32 => .ok .integer
  | .int64 => .ok .bigInt
  | .float32 => .ok .float
  | .float64 => .ok .double
  | .utf8 => .ok .string
  | .binary => .ok .binary
  | .fixedSizeBinary _ => .ok .binary
  | .date32 => .ok .date
  | .time32 .second => .ok .time
  | .time32 .millisecond => .ok .time
  | .timestamp .second => .ok (.timestamp 0)
  | .timestamp .millisecond => .ok (.timestamp 3)
  | .timestamp .microsecond => .ok (.timestamp 6)
  | .timestamp .nanosecond => .ok (.timestamp 9)
  | .decimal128 precision => .ok (.decimal precision)
  | .list element => do
    let _ ← fromArrowType element
    .ok .nested
  | .struct fields => do
    fromArrowTypes fields
    .ok .nested
  | .map key value => do
    let _ ← fromArrowType key
    let _ ← fromArrowType value
    .ok .nested
  | _ => .error (.invalidArgument "Flink BinaryRow key does not support Arrow type")

/-- All types have key fields. -/
def fromArrowTypes : List DataType → Except ExchangeError Unit
  | [] => .ok ()
  | type :: types => do
    let _ ← fromArrowType type
    fromArrowTypes types

end

/-! ## What is written for a scalar -/

/-- An integer of so many bytes, little-endian. -/
def leInt (width : Nat) (value : Int) : Bytes := leBytes width (value % 2 ^ (8 * width)).toNat

/-- What is written of a scalar. -/
inductive Scalar where
  | fixed (bytes : Bytes)
  | bytes (value : Bytes)
  | noncompactTimestamp (millis : Int) (nanos : Nat)
  | noncompactDecimal (unscaled : Int)

/-- A time of day in milliseconds. -/
def timeMillis (unit : TimeUnit) (value : Int) : Except ExchangeError Int :=
  match unit with
  | .second =>
    if inWidth 32 (value * 1000) then .ok (value * 1000)
    else .error (.invalidArgument "TIME key milliseconds overflow")
  | .millisecond => .ok value
  | _ => .error (.castError "Flink TIME key requires Arrow Time32 second or millisecond")

/-- The milliseconds of a timestamp and the nanoseconds within the last one. -/
def timestampParts (unit : TimeUnit) (value : Int) : Except ExchangeError (Int × Nat) :=
  match unit with
  | .second =>
    if inWidth 64 (value * 1000) then .ok (value * 1000, 0)
    else .error (.invalidArgument "timestamp key milliseconds overflow")
  | .millisecond => .ok (value, 0)
  | .microsecond => .ok (value / 1000, (value % 1000 * 1000).toNat)
  | .nanosecond => .ok (value / 1000000, (value % 1000000).toNat)

/-- What is written of a value. -/
def scalarOf (kind : KeyField) (type : DataType) (value : Value) : Except ExchangeError Scalar :=
  match kind, type, value with
  | .boolean, .boolean, .bool value => .ok (.fixed [if value then 1 else 0])
  | .tinyInt, .int8, .int value => .ok (.fixed (leInt 1 value))
  | .smallInt, .int16, .int value => .ok (.fixed (leInt 2 value))
  | .integer, .int32, .int value => .ok (.fixed (leInt 4 value))
  | .bigInt, .int64, .int value => .ok (.fixed (leInt 8 value))
  | .float, .float32, .float bits => .ok (.fixed (leBytes 4 bits))
  | .double, .float64, .float bits => .ok (.fixed (leBytes 8 bits))
  | .string, .utf8, .bytes value => .ok (.bytes value)
  | .binary, .binary, .bytes value => .ok (.bytes value)
  | .binary, .fixedSizeBinary _, .bytes value => .ok (.bytes value)
  | .date, .date32, .int value => .ok (.fixed (leInt 4 value))
  | .time, .time32 unit, .int value => do
    let millis ← timeMillis unit value
    .ok (.fixed (leInt 4 millis))
  | .timestamp precision, .timestamp unit, .int value => do
    let parts ← timestampParts unit value
    if precision ≤ 3 then .ok (.fixed (leInt 8 parts.1))
    else .ok (.noncompactTimestamp parts.1 parts.2)
  | .decimal precision, .decimal128 _, .int value =>
    if precision ≤ 18 then
      if inWidth 64 value then .ok (.fixed (leInt 8 value))
      else .error (.invalidArgument "DECIMAL key does not fit Flink's compact representation")
    else .ok (.noncompactDecimal value)
  | .nested, _, _ => .error (.invalidArgument "expected nested key")
  | _, _, _ => .error (.castError "key row expected another array")

/-- Bytes that only repeat the sign are dropped, except for the last one. -/
def dropSign : Bytes → Bytes
  | current :: next :: rest =>
    if (current = 0 ∧ next &&& 0x80 = 0) ∨ (current = 0xff ∧ next &&& 0x80 ≠ 0) then
      dropSign (next :: rest)
    else current :: next :: rest
  | bytes => bytes

/-- An integer without superfluous sign bytes, big-endian. -/
def minimalTwosComplement (value : Int) : Bytes := dropSign (leInt 16 value).reverse

/-! ## The writer -/

/-- A row or array in the making: where it starts and how its slots lie. -/
structure BinaryRowWriter where
  base : Nat
  stride : Nat
  nullBitOffset : Nat
  nullBytes : Nat

/-- Overwrites bytes. -/
def splice (offset : Nat) (value bytes : Bytes) : Bytes :=
  bytes.take offset ++ value ++ bytes.drop (offset + value.length)

/-- Cuts off, or fills up with zeros. -/
def resize (length : Nat) (bytes : Bytes) : Bytes :=
  bytes.take length ++ zeros (length - bytes.length)

/-- An offset in the upper half of a word and a size in the lower half. -/
def offsetAndSize (offset size : Nat) : Bytes := leBytes 8 (offset <<< 32 ||| size)

namespace BinaryRowWriter

variable (writer : BinaryRowWriter) (position : Nat)

/-- Where the slot of a field is. -/
def fieldOffset : Nat := writer.base + writer.nullBytes + position * writer.stride

/-- Sets the null bit of a field. -/
def setNull (bytes : Bytes) : Bytes :=
  let bit := position + writer.nullBitOffset
  bytes.modify (writer.base + bit / 8) fun byte => byte ||| 1 <<< UInt8.ofNat (bit % 8)

/-- Writes the slot of a field. -/
def writeFixed (value bytes : Bytes) : Bytes := splice (writer.fieldOffset position) value bytes

/-- The container is filled up to a multiple of eight bytes. -/
def align (bytes : Bytes) : Bytes :=
  resize (writer.base + nextMultipleOf8 (bytes.length - writer.base)) bytes

/-- Writes a string: into its slot, or behind the slots and where it is. -/
def writeBytes (value bytes : Bytes) : Bytes :=
  let fieldOffset := writer.fieldOffset position
  if value.length ≤ 7 then
    (splice fieldOffset value bytes).set (fieldOffset + 7) (0x80 ||| UInt8.ofNat value.length)
  else
    let variableOffset := bytes.length
    let bytes := writer.align (bytes ++ value)
    splice fieldOffset (offsetAndSize (variableOffset - writer.base) value.length) bytes

/-- Writes the milliseconds behind the slots and the nanoseconds into the slot. -/
def writeNoncompactTimestamp (millis : Int) (nanos : Nat) (bytes : Bytes) : Bytes :=
  let variableOffset := bytes.length
  writer.writeFixed position (offsetAndSize (variableOffset - writer.base) nanos)
    (bytes ++ leInt 8 millis)

/-- Writes a large decimal behind the slots. -/
def writeNoncompactDecimal (unscaled : Int) (bytes : Bytes) : Bytes :=
  let encoded := minimalTwosComplement unscaled
  let variableOffset := bytes.length
  let bytes := splice variableOffset encoded (resize (variableOffset + 16) bytes)
  writer.writeFixed position (offsetAndSize (variableOffset - writer.base) encoded.length) bytes

/-- Writes a scalar. -/
def writeScalar (scalar : Scalar) (bytes : Bytes) : Bytes :=
  match scalar with
  | .fixed value => writer.writeFixed position value bytes
  | .bytes value => writer.writeBytes position value bytes
  | .noncompactTimestamp millis nanos => writer.writeNoncompactTimestamp position millis nanos bytes
  | .noncompactDecimal unscaled => writer.writeNoncompactDecimal position unscaled bytes

/-- The slot of a nested container that was appended from `start` on. -/
def finishNested (start : Nat) (bytes : Bytes) : Bytes :=
  let size := bytes.length - start
  writer.align (writer.writeFixed position (offsetAndSize (start - writer.base) size) bytes)

end BinaryRowWriter

/-- Starts a row behind other bytes. -/
def openRow (arity : Nat) (bytes : Bytes) : BinaryRowWriter × Bytes :=
  let nullBytes := (arity + 63 + 8) / 64 * 8
  (⟨bytes.length, 8, 8, nullBytes⟩, resize (bytes.length + (nullBytes + arity * 8)) bytes)

/-- The width of the slots of an array. -/
def arrayStride : KeyField → Nat
  | .boolean => 1
  | .tinyInt => 1
  | .smallInt => 2
  | .integer => 4
  | .float => 4
  | .date => 4
  | .time => 4
  | _ => 8

/-- The size of the count and the null bits of an array. -/
def arrayNullBytes (count : Nat) : Nat := 4 + (count + 31) / 32 * 4

/-- Starts an array behind other bytes. -/
def openArray (kind : KeyField) (count : Nat) (bytes : Bytes) : BinaryRowWriter × Bytes :=
  let stride := arrayStride kind
  let base := bytes.length
  let nullBytes := arrayNullBytes count
  (⟨base, stride, 32, nullBytes⟩,
    splice base (leInt 4 count)
      (resize (base + nextMultipleOf8 (nullBytes + count * stride)) bytes))

/-- Not-a-number has one bit pattern in an array. -/
def canonicalFloat (bits : Nat) : Nat :=
  if FloatBits.binary32.isNaN bits then 0x7fc00000 else bits

/-- All NaNs are one. -/
def canonicalDouble (bits : Nat) : Nat :=
  if FloatBits.binary64.isNaN bits then 0x7ff8000000000000 else bits

mutual

/-- Writes a value into its field. -/
def writeValue (writer : BinaryRowWriter) (position : Nat) (kind : KeyField) (type : DataType) :
    Value → Bytes → Except ExchangeError Bytes
  | .null, bytes => .ok (writer.setNull position bytes)
  | .list elements, bytes =>
    match kind, type with
    | .nested, .list element => do
      let start := bytes.length
      let kind ← fromArrowType element
      let (child, bytes) := openArray kind elements.length bytes
      let bytes ← writeElements child kind element 0 elements bytes
      .ok (writer.finishNested position start bytes)
    | _, _ => .error (.castError "key row expected another array")
  | .map keys values, bytes =>
    match kind, type with
    | .nested, .map key value => do
      let start := bytes.length
      let keyKind ← fromArrowType key
      let (child, bytes) := openArray keyKind keys.length (bytes ++ zeros 4)
      let bytes ← writeElements child keyKind key 0 keys bytes
      let keySize := bytes.length - start - 4
      let bytes := splice start (leInt 4 keySize) bytes
      let valueKind ← fromArrowType value
      let (child, bytes) := openArray valueKind values.length bytes
      let bytes ← writeElements child valueKind value 0 values bytes
      .ok (writer.finishNested position start bytes)
    | _, _ => .error (.castError "key row expected another array")
  | .struct columns, bytes =>
    match kind, type with
    | .nested, .struct fields => do
      let start := bytes.length
      let (child, bytes) := openRow fields.length bytes
      let bytes ← writeColumns child 0 fields columns bytes
      .ok (writer.finishNested position start bytes)
    | _, _ => .error (.castError "key row expected another array")
  | value, bytes => do
    let scalar ← scalarOf kind type value
    .ok (writer.writeScalar position scalar bytes)

/-- Writes the elements of an array. -/
def writeElements (writer : BinaryRowWriter) (kind : KeyField) (type : DataType) (position : Nat) :
    List Value → Bytes → Except ExchangeError Bytes
  | [], bytes => .ok bytes
  | value :: values, bytes => do
    let bytes ← match kind, value with
      | .float, .float bits =>
        .ok (writer.writeFixed position (leBytes 4 (canonicalFloat bits)) bytes)
      | .double, .float bits =>
        .ok (writer.writeFixed position (leBytes 8 (canonicalDouble bits)) bytes)
      | _, _ => writeValue writer position kind type value bytes
    writeElements writer kind type (position + 1) values bytes

/-- Writes the fields of a struct. -/
def writeColumns (writer : BinaryRowWriter) (position : Nat) :
    List DataType → List Value → Bytes → Except ExchangeError Bytes
  | type :: types, value :: values, bytes => do
    let kind ← fromArrowType type
    let bytes ← writeValue writer position kind type value bytes
    writeColumns writer (position + 1) types values bytes
  | _, _, bytes => .ok bytes

end

/-! ## Keys -/

/-- Writes the key fields of a row. -/
def writeFields (writer : BinaryRowWriter) (row : List Column) (position : Nat) :
    List (Nat × KeyField) → Bytes → Except ExchangeError Bytes
  | [], bytes => .ok bytes
  | (column, kind) :: fields, bytes =>
    match row[column]? with
    | some cell => do
      let bytes ← writeValue writer position kind cell.type cell.value bytes
      writeFields writer row (position + 1) fields bytes
    | none => .error (.assertion "index out of bounds")

/-- The key of a row. -/
def encodeBinaryRowInto (fields : List (Nat × KeyField)) (row : List Column) :
    Except ExchangeError Bytes :=
  let (writer, bytes) := openRow fields.length []
  writeFields writer row 0 fields bytes

example : encodeBinaryRowInto [(0, .integer), (1, .string)]
    [⟨.int32, .int 42, by decide⟩, ⟨.utf8, .bytes [97, 98, 99], rfl⟩] =
    .ok [0, 0, 0, 0, 0, 0, 0, 0, 42, 0, 0, 0, 0, 0, 0, 0, 97, 98, 99, 0, 0, 0, 0, 0x83] := by
  decide +kernel

end StreamFusion.Exchange.BinaryRow
