import StreamFusion.Lib.FloatBits
import StreamFusion.Lib.Outcome
import StreamFusion.Aggregate.Value

/-!
# The values Top-N compares

A row of the operator is a list of values, one for each column of its input.  `compareRows` is the
order of the sort columns: nulls are placed by the plan and not turned around by a descending
column, and not-a-number is neither less nor greater than any other number.  `equalRows` is the
equality a retraction is looked up with.  `rowHasNan` asks whether the order of the sort columns can
be trusted to be one.

`SortKeys.new` decides from the schema whether the sort columns can be encoded into byte strings
whose plain order is `compareRows`; it accepts no floating-point and no nested column, and so no
column that can hold a value that is not a number (`canHaveNan_of_new`).
-/

namespace StreamFusion.TopN

open FloatBits
open Aggregate (TimeUnit)

/-! ## Types and values -/

/-- The types of the columns. -/
inductive DataType where
  | null
  | boolean
  | int8
  | int16
  | int32
  | int64
  | uint8
  | uint16
  | uint32
  | uint64
  | float32
  | float64
  | utf8
  | largeUtf8
  | binary
  | largeBinary
  | fixedSizeBinary (size : Nat)
  | decimal128 (precision : Nat) (scale : Int)
  | date32
  | date64
  | time32 (unit : TimeUnit)
  | time64 (unit : TimeUnit)
  | timestamp (unit : TimeUnit) (zone : Option String)
  | duration (unit : TimeUnit)
  | list (item : DataType)
  | largeList (item : DataType)
  | fixedSizeList (item : DataType) (size : Nat)
  | struct (fields : List DataType)
  | map (key value : DataType)
  | other (name : String)

/-- A cell of a column.  `integer` stands for every integer width, decimals, dates, times and
timestamps; `bytes` for strings and binary values; `other` for the types without a comparison. -/
inductive Value where
  | null
  | boolean (value : Bool)
  | integer (value : Int)
  | float32 (bits : UInt32)
  | float64 (bits : UInt64)
  | bytes (value : List UInt8)
  | list (items : List Value)
  | struct (fields : List Value)
  | map (entries : List (Value × Value))
  | other (payload : List UInt8)

/-- The values of a row. -/
abbrev Row := List Value

/-- The value of a column. -/
def Row.column (row : Row) (index : Nat) : Value := row.getD index .null

/-- Is the value null? -/
def Value.isNull : Value → Bool
  | .null => true
  | _ => false

/-! ## The order of the sort columns -/

/-- `partial_cmp(..).unwrap_or(Ordering::Equal)`. -/
def comparePartial (format : Format) (left right : Nat) : Ordering :=
  if format.less left right then .lt else if format.less right left then .gt else .eq

mutual

/-- Compares two values. -/
def compareValues (nullsLast : Bool) : Value → Value → Except String Ordering
  | .null, .null => .ok .eq
  | .null, _ => .ok (if nullsLast then .gt else .lt)
  | _, .null => .ok (if nullsLast then .lt else .gt)
  | .boolean left, .boolean right => .ok (compare left right)
  | .integer left, .integer right => .ok (compare left right)
  | .float32 left, .float32 right => .ok (comparePartial binary32 left.toNat right.toNat)
  | .float64 left, .float64 right => .ok (comparePartial binary64 left.toNat right.toNat)
  | .bytes left, .bytes right => .ok (compare left right)
  | .list left, .list right => compareRanges left right
  | .struct left, .struct right => compareStruct left right
  | .map _, .map _ => .error "Flink Top-N ordering type is not implemented natively"
  | .other _, .other _ => .error "Flink Top-N ordering type is not implemented natively"
  | _, _ => .error "top-n compared different Arrow types"

/-- Item by item, and then by length. -/
def compareRanges : List Value → List Value → Except String Ordering
  | [], [] => .ok .eq
  | [], _ :: _ => .ok .lt
  | _ :: _, [] => .ok .gt
  | left :: lefts, right :: rights => do
    match ← compareValues false left right with
    | .eq => compareRanges lefts rights
    | ordering => .ok ordering

/-- Compares the fields of two structs. -/
def compareStruct : List Value → List Value → Except String Ordering
  | left :: lefts, right :: rights => do
    match ← compareValues false left right with
    | .eq => compareStruct lefts rights
    | ordering => .ok ordering
  | _, _ => .ok .eq

end

/-- One sort column: its index, whether it ascends, and whether its nulls come last. -/
structure SortColumn where
  index : Nat
  ascending : Bool
  nullsLast : Bool
  deriving DecidableEq

/-- Top-level nulls are placed before the direction is applied to the other values. -/
def compareRows : List SortColumn → Row → Row → Except String Ordering
  | [], _, _ => .ok .eq
  | column :: columns, left, right => do
    match ← compareValues column.nullsLast (left.column column.index) (right.column column.index)
      with
    | .eq => compareRows columns left right
    | ordering =>
      .ok (if column.ascending || (left.column column.index).isNull
          || (right.column column.index).isNull then ordering else ordering.swap)

/-! ## Equality -/

/-- The equality of the floating-point standard. -/
def equalIeee (format : Format) (left right : Nat) : Bool :=
  !format.isNaN left && !format.isNaN right && format.number left == format.number right

/-- The value of the first entry whose key passes the test. -/
def firstEntry (test : Value → Except String Bool) : List (Value × Value) →
    Except String (Option Value)
  | [] => .ok none
  | (key, value) :: entries => do
    if ← test key then .ok (some value) else firstEntry test entries

mutual

/-- Are two values equal? -/
def equalValues : Value → Value → Except String Bool
  | .null, .null => .ok true
  | .float32 left, .float32 right => .ok (equalIeee binary32 left.toNat right.toNat)
  | .float64 left, .float64 right => .ok (equalIeee binary64 left.toNat right.toNat)
  | .boolean left, .boolean right => .ok (left == right)
  | .integer left, .integer right => .ok (left == right)
  | .bytes left, .bytes right => .ok (left == right)
  | .list left, .list right => equalRanges left right
  | .struct left, .struct right => equalRanges left right
  | .map left, .map right =>
    if left.length = right.length then equalMaps left right else .ok false
  | .other _, .other _ => .error "Flink Top-N ordering type is not implemented natively"
  | _, _ => .ok false

/-- Are the values equal one by one? -/
def equalRanges : List Value → List Value → Except String Bool
  | [], [] => .ok true
  | left :: lefts, right :: rights => do
    if ← equalValues left right then equalRanges lefts rights else .ok false
  | _, _ => .ok false

/-- Every entry on the left has an entry on the right with an equal key, and the first of those has
an equal value. -/
def equalMaps : List (Value × Value) → List (Value × Value) → Except String Bool
  | [], _ => .ok true
  | (key, value) :: entries, rights => do
    match ← firstEntry (equalValues key) rights with
    | none => .ok false
    | some right => if ← equalValues value right then equalMaps entries rights else .ok false

end

/-- Are the rows equal in these columns? -/
def equalRows : List Nat → Row → Row → Except String Bool
  | [], _, _ => .ok true
  | index :: indices, left, right => do
    if ← equalValues (left.column index) (right.column index) then equalRows indices left right
    else .ok false

/-! ## Values that are not numbers -/

mutual

/-- Can a value of the type hold a NaN? -/
def dataTypeCanHaveNan : DataType → Bool
  | .float32 => true
  | .float64 => true
  | .list item => dataTypeCanHaveNan item
  | .largeList item => dataTypeCanHaveNan item
  | .fixedSizeList item _ => dataTypeCanHaveNan item
  | .struct fields => anyCanHaveNan fields
  | _ => false

/-- Can one of the fields hold a NaN? -/
def anyCanHaveNan : List DataType → Bool
  | [] => false
  | field :: fields => dataTypeCanHaveNan field || anyCanHaveNan fields

end

mutual

/-- Does the value hold a NaN? -/
def valueHasNan : Value → Bool
  | .float32 bits => binary32.isNaN bits.toNat
  | .float64 bits => binary64.isNaN bits.toNat
  | .list items => rangeHasNan items
  | .struct fields => rangeHasNan fields
  | _ => false

/-- Does one of the values hold a NaN? -/
def rangeHasNan : List Value → Bool
  | [] => false
  | value :: values => valueHasNan value || rangeHasNan values

end

/-- Does the row hold a NaN in a sort column? -/
def rowHasNan (row : Row) (columns : List SortColumn) : Bool :=
  columns.any fun column => valueHasNan (row.column column.index)

/-! ## Encoded sort keys -/

/-- The column types whose encoded order is the order of `compareValues`. -/
def SortKeys.accepts : DataType → Bool
  | .null | .boolean | .int8 | .int16 | .int32 | .int64 | .uint8 | .uint16 | .uint32 | .uint64
  | .utf8 | .largeUtf8 | .binary | .largeBinary | .fixedSizeBinary _ | .decimal128 _ _
  | .date32 | .date64 | .time32 _ | .time64 _ | .timestamp _ _ | .duration _ => true
  | _ => false

/-- Nested null ordering and floating peers require Flink-specific comparison, so they have no
keys. -/
def SortKeys.fields (schema : List DataType) : List SortColumn → Except String Bool
  | [] => .ok true
  | column :: columns =>
    match schema[column.index]? with
    | none => .error "sortable state column outside schema"
    | some field => if SortKeys.accepts field then SortKeys.fields schema columns else .ok false

/-- Are there encoded sort keys for these columns? -/
def SortKeys.new (schema : List DataType) (columns : List SortColumn) : Except String Bool :=
  if columns = [] then .ok false else SortKeys.fields schema columns

theorem dataTypeCanHaveNan_of_accepts {field : DataType} (h : SortKeys.accepts field = true) :
    dataTypeCanHaveNan field = false := by
  cases field <;> first | rfl | exact Bool.noConfusion h

/-- The test of `insert_sorted`: can a sort column hold a value that is not a number? -/
def canHaveNan (schema : List DataType) (columns : List SortColumn) : Bool :=
  columns.any fun column => dataTypeCanHaveNan (schema.getD column.index .null)

variable {columns : List SortColumn} {schema : List DataType}

/-- **Encoded keys are never used where the order is not one.** -/
theorem canHaveNan_of_fields (h : SortKeys.fields schema columns = .ok true) :
    canHaveNan schema columns = false := by
  induction columns with
  | nil => rfl
  | cons column columns ih =>
    unfold SortKeys.fields at h
    split at h
    · cases h
    · next field hfield =>
      by_cases haccepts : SortKeys.accepts field = true
      · rw [if_pos haccepts] at h
        have htype : schema.getD column.index .null = field := by
          rw [List.getD_eq_getElem?_getD, hfield, Option.getD_some]
        unfold canHaveNan at ih ⊢
        rw [List.any_cons, ih h, htype, dataTypeCanHaveNan_of_accepts haccepts]
        rfl
      · rw [if_neg haccepts] at h
        exact Bool.noConfusion (Except.ok.inj h)

theorem canHaveNan_of_new (h : SortKeys.new schema columns = .ok true) :
    canHaveNan schema columns = false := by
  unfold SortKeys.new at h
  split at h
  · exact Bool.noConfusion (Except.ok.inj h)
  · exact canHaveNan_of_fields h

end StreamFusion.TopN
