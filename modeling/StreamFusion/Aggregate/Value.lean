import StreamFusion.Lib.FloatBits
import StreamFusion.State.Backend

/-!
# The values of an aggregate

An accumulator works on five kinds of values: booleans, integers (of every width, decimals and times
included), the two floating-point formats, which are kept as bits, and strings, which are kept as
bytes.  The kind is not the type: the width of an integer or the precision of a decimal is known
from the plan only, and the arithmetic below is told the type it works in.

Integers are the mathematical ones.  Where the code computes in `i8` to `i64` the result is reduced
to the balanced residue (`narrow`); decimals are 128-bit and checked against their precision, and an
overflow makes the value disappear.  The counted maps of the accumulators order values,
floating-point numbers by `FloatBits.Format.compareTotal`.
-/

namespace StreamFusion.Aggregate

open Wire State FloatBits

/-- The units of Arrow times. -/
inductive TimeUnit where
  | second
  | millisecond
  | microsecond
  | nanosecond
  deriving DecidableEq, Repr

/-- The column types the aggregates know, and the others by name. -/
inductive DataType where
  | boolean
  | int8
  | int16
  | int32
  | int64
  | float32
  | float64
  | decimal128 (precision : Nat) (scale : Int)
  | utf8
  | date32
  | time32 (unit : TimeUnit)
  | time64 (unit : TimeUnit)
  | timestamp (unit : TimeUnit) (zone : Option String)
  | other (name : String)
  deriving DecidableEq, Repr

/-- Is it one of the four plain integer types? -/
def DataType.isInteger : DataType → Bool
  | int8 | int16 | int32 | int64 => true
  | _ => false

/-- The floating-point types. -/
def DataType.isFloat : DataType → Bool
  | float32 | float64 => true
  | _ => false

/-- The width of the types that are stored as machine integers. -/
def DataType.width : DataType → Option Nat
  | int8 => some 8
  | int16 => some 16
  | int32 | date32 | time32 _ => some 32
  | int64 | time64 _ | timestamp _ _ => some 64
  | _ => none

/-- A value of a column or of an accumulator. -/
inductive AggregateValue where
  | boolean (value : Bool)
  | int (value : Int)
  | float32 (bits : UInt32)
  | float64 (bits : UInt64)
  | bytes (value : Bytes)
  deriving DecidableEq, Repr

/-- The tag of a stored value. -/
def valueTag : AggregateValue → UInt8
  | .boolean _ => 1
  | .int _ => 2
  | .float32 _ => 3
  | .float64 _ => 4
  | .bytes _ => 5

/-! ## The order of the values -/

/-- The order of single-precision numbers, by their bits. -/
def flinkF32Cmp (left right : UInt32) : Ordering := binary32.compareTotal left.toNat right.toNat

/-- The order of double-precision numbers, by their bits. -/
def flinkF64Cmp (left right : UInt64) : Ordering := binary64.compareTotal left.toNat right.toNat

instance : Ord AggregateValue where
  compare
    | .boolean left, .boolean right => compare left right
    | .int left, .int right => compare left right
    | .float32 left, .float32 right => flinkF32Cmp left right
    | .float64 left, .float64 right => flinkF64Cmp left right
    | .bytes left, .bytes right => compare left right
    | left, right => compare (valueTag left) (valueTag right)

theorem flinkF32Cmp_eq (a b : UInt32) :
    flinkF32Cmp a b = compare (binary32.rank a.toNat) (binary32.rank b.toNat) :=
  binary32.compareTotal_eq_compare a.toNat_lt b.toNat_lt

theorem flinkF64Cmp_eq (a b : UInt64) :
    flinkF64Cmp a b = compare (binary64.rank a.toNat) (binary64.rank b.toNat) :=
  binary64.compareTotal_eq_compare a.toNat_lt b.toNat_lt

variable {a b : AggregateValue}

/-- Two values of one kind compare by their payload, two of different kinds by their tag. -/
theorem compare_of_tag_ne (h : valueTag a ≠ valueTag b) :
    compare a b = compare (valueTag a) (valueTag b) := by
  cases a <;> cases b <;> first | rfl | exact absurd rfl h

instance : Std.OrientedOrd AggregateValue where
  eq_swap {a b} := by
    by_cases htag : valueTag a = valueTag b
    · cases a <;> cases b <;> cases htag
      · exact Std.OrientedOrd.eq_swap (α := Bool)
      · exact Std.OrientedOrd.eq_swap (α := Int)
      · show flinkF32Cmp _ _ = (flinkF32Cmp _ _).swap
        rw [flinkF32Cmp_eq, flinkF32Cmp_eq]
        exact Std.OrientedOrd.eq_swap
      · show flinkF64Cmp _ _ = (flinkF64Cmp _ _).swap
        rw [flinkF64Cmp_eq, flinkF64Cmp_eq]
        exact Std.OrientedOrd.eq_swap
      · exact Std.OrientedOrd.eq_swap (α := Bytes)
    · rw [compare_of_tag_ne htag, compare_of_tag_ne (Ne.symm htag)]
      exact Std.OrientedOrd.eq_swap

theorem isLE_tag (h : (compare a b).isLE) :
    (compare (valueTag a) (valueTag b)).isLE := by
  by_cases htag : valueTag a = valueTag b
  · simp [htag]
  · rwa [compare_of_tag_ne htag] at h

instance : Std.TransOrd AggregateValue where
  isLE_trans {a b c} hab hbc := by
    have htag := Std.TransOrd.isLE_trans (isLE_tag hab) (isLE_tag hbc)
    by_cases hac : valueTag a = valueTag c
    · -- the tags of the three values are then all the same
      have hba : valueTag a = valueTag b := by
        have h₁ := isLE_tag hab
        have h₂ := isLE_tag hbc
        rw [← hac] at h₂
        exact Std.LawfulEqOrd.eq_of_compare (Std.OrientedCmp.isLE_antisymm h₁ h₂)
      cases a <;> cases b <;> cases hba <;> cases c <;> cases hac
      · exact Std.TransOrd.isLE_trans (α := Bool) hab hbc
      · exact Std.TransOrd.isLE_trans (α := Int) hab hbc
      · change (flinkF32Cmp _ _).isLE at hab hbc ⊢
        rw [flinkF32Cmp_eq] at *
        exact Std.TransOrd.isLE_trans hab hbc
      · change (flinkF64Cmp _ _).isLE at hab hbc ⊢
        rw [flinkF64Cmp_eq] at *
        exact Std.TransOrd.isLE_trans hab hbc
      · exact Std.TransOrd.isLE_trans (α := Bytes) hab hbc
    · rwa [compare_of_tag_ne hac]

instance : Std.LawfulEqOrd AggregateValue where
  eq_of_compare {a b} h := by
    by_cases htag : valueTag a = valueTag b
    · cases a <;> cases b <;> cases htag
      · rw [Std.LawfulEqOrd.eq_of_compare (α := Bool) h]
      · rw [Std.LawfulEqOrd.eq_of_compare (α := Int) h]
      · rename_i a b
        change flinkF32Cmp a b = .eq at h
        rw [flinkF32Cmp_eq] at h
        rw [UInt32.toNat_inj.mp (binary32.rank_injective (Std.LawfulEqOrd.eq_of_compare h)
          a.toNat_lt b.toNat_lt)]
      · rename_i a b
        change flinkF64Cmp a b = .eq at h
        rw [flinkF64Cmp_eq] at h
        rw [UInt64.toNat_inj.mp (binary64.rank_injective (Std.LawfulEqOrd.eq_of_compare h)
          a.toNat_lt b.toNat_lt)]
      · rw [Std.LawfulEqOrd.eq_of_compare (α := Bytes) h]
    · rw [compare_of_tag_ne htag] at h
      exact absurd (Std.LawfulEqOrd.eq_of_compare h) htag

/-! ## Types of values -/

/-- The value fits into so many bits. -/
def InWidth (w : Nat) (value : Int) : Prop := -(2 ^ (w - 1) : Int) ≤ value ∧ value < 2 ^ (w - 1)

instance (w : Nat) (value : Int) : Decidable (InWidth w value) :=
  inferInstanceAs (Decidable (_ ∧ _))

/-- The value has at most so many digits. -/
def InPrecision (precision : Nat) (value : Int) : Prop :=
  -(10 ^ precision - 1 : Int) ≤ value ∧ value ≤ 10 ^ precision - 1

instance (precision : Nat) (value : Int) : Decidable (InPrecision precision value) :=
  inferInstanceAs (Decidable (_ ∧ _))

/-- Are the bytes a string? -/
def validUtf8 (value : Bytes) : Bool := (ByteArray.mk value.toArray).validateUTF8

/-- The values of a column of the type.  Strings have 32-bit offsets, decimals at most 38 digits. -/
def HasType : AggregateValue → DataType → Prop
  | .boolean _, type => type = .boolean
  | .int value, .decimal128 precision _ => precision ≤ 38 ∧ InPrecision precision value
  | .int value, type => ∃ w, type.width = some w ∧ InWidth w value
  | .float32 _, type => type = .float32
  | .float64 _, type => type = .float64
  | .bytes value, type => type = .utf8 ∧ value.length < 2 ^ 31 ∧ validUtf8 value

/-- The check of restored values: the kind, but not the range. -/
def aggregateValueMatchesType : AggregateValue → DataType → Bool
  | .boolean _, type => type = .boolean
  | .float32 _, type => type = .float32
  | .float64 _, type => type = .float64
  | .bytes _, type => type = .utf8
  | .int _, .decimal128 _ _ => true
  | .int _, type => type.width.isSome

variable {type : DataType}

theorem HasType.matches {value : AggregateValue} (h : HasType value type) :
    aggregateValueMatchesType value type = true := by
  cases value with
  | int value =>
    cases type <;> first | rfl | (obtain ⟨w, hw, -⟩ := h; cases hw)
  | boolean _ => exact decide_eq_true (show type = .boolean from h)
  | float32 _ => exact decide_eq_true (show type = .float32 from h)
  | float64 _ => exact decide_eq_true (show type = .float64 from h)
  | bytes _ => exact decide_eq_true h.1

/-! ## Arithmetic -/

/-- The value a cast to a machine integer of the width keeps. -/
def narrow (w : Nat) (value : Int) : Int := value.bmod (2 ^ w)

variable {w : Nat}

theorem narrow_of_inWidth (hw : 0 < w) {v : Int} (h : InWidth w v) : narrow w v = v := by
  obtain ⟨n, rfl⟩ : ∃ n, w = n + 1 := ⟨w - 1, by omega⟩
  obtain ⟨hlow, hhigh⟩ := h
  simp only [Nat.add_sub_cancel] at hlow hhigh
  apply Int.bmod_eq_of_le <;> push_cast [pow_succ] <;> omega

theorem inWidth_narrow (hw : 0 < w) (v : Int) : InWidth w (narrow w v) := by
  obtain ⟨n, rfl⟩ : ∃ n, w = n + 1 := ⟨w - 1, by omega⟩
  have hpos : 0 < 2 ^ (n + 1) := by positivity
  have hlow := Int.le_bmod (x := v) hpos
  have hhigh := Int.bmod_lt (x := v) hpos
  unfold InWidth narrow
  push_cast [pow_succ] at *
  omega

theorem narrow_narrow {w w' : Nat} (h : w ≤ w') (v : Int) : narrow w (narrow w' v) = narrow w v :=
  Int.bmod_bmod_of_dvd (pow_dvd_pow 2 h)

theorem narrow_add_narrow (w : Nat) (a b : Int) : narrow w (narrow w a + narrow w b) =
    narrow w (a + b) := by
  rw [narrow, narrow, narrow, Int.bmod_add_bmod, Int.add_bmod_bmod]
  rfl

theorem narrow_sub_narrow (w : Nat) (a b : Int) : narrow w (narrow w a - narrow w b) =
    narrow w (a - b) := by
  rw [narrow, narrow, narrow, Int.bmod_sub_bmod, Int.sub_bmod_bmod]
  rfl

theorem DataType.width_bounds (h : type.width = some w) : 0 < w ∧ w ≤ 64 := by
  cases type <;> cases h <;> decide

/-- An operation on integers of a width, with overflow. -/
def wrapping (operation : Int → Int → Int) (w : Nat) (left right : Int) : AggregateValue :=
  .int (narrow w (operation (narrow w left) (narrow w right)))

/-- The result of a 128-bit operation, if it fits. -/
def checkedI128 (value : Int) : Option Int := if InWidth 128 value then some value else none

/-- An operation on decimals; an overflow has no value. -/
def decimalOperation (operation : Int → Int → Int) (left right : Int) (precision : Nat) :
    Option AggregateValue :=
  ((checkedI128 (operation left right)).filter fun value =>
    -(10 ^ precision - 1 : Int) ≤ value ∧ value ≤ 10 ^ precision - 1).map .int

/-- All NaNs are one value. -/
def canonical32 (bits : UInt32) : UInt32 := if binary32.isNaN bits.toNat then 0x7fc00000 else bits

/-- All NaNs are one. -/
def canonical64 (bits : UInt64) : UInt64 :=
  if binary64.isNaN bits.toNat then 0x7ff8000000000000 else bits

/-- A single-precision result. -/
def float32Value (value : Float32) : AggregateValue := .float32 (canonical32 value.toBits)

/-- A double-precision result. -/
def float64Value (value : Float) : AggregateValue := .float64 (canonical64 value.toBits)

/-- A value with its NaNs made one. -/
def AggregateValue.canonical : AggregateValue → AggregateValue
  | .float32 bits => .float32 (canonical32 bits)
  | .float64 bits => .float64 (canonical64 bits)
  | value => value

/-- `aggregate_add` and `aggregate_sub`, which differ in the operation and its name. -/
def aggregateArithmetic (name : String) (operation : Int → Int → Int)
    (operation32 : Float32 → Float32 → Float32) (operation64 : Float → Float → Float)
    (left right : AggregateValue) (type : DataType) : Except StateError (Option AggregateValue) :=
  match left, right, type with
  | .int left, .int right, .int8 => .ok (some (wrapping operation 8 left right))
  | .int left, .int right, .int16 => .ok (some (wrapping operation 16 left right))
  | .int left, .int right, .int32 => .ok (some (wrapping operation 32 left right))
  | .int left, .int right, .int64 => .ok (some (wrapping operation 64 left right))
  | .int left, .int right, .decimal128 precision _ =>
    .ok (decimalOperation operation left right precision)
  | .float32 left, .float32 right, .float32 =>
    .ok (some (float32Value (operation32 (.ofBits left) (.ofBits right))))
  | .float64 left, .float64 right, .float64 =>
    .ok (some (float64Value (operation64 (.ofBits left) (.ofBits right))))
  | _, _, _ => .error (.internal ("group aggregate cannot " ++ name))

/-- The sum of two values of a type. -/
def aggregateAdd : AggregateValue → AggregateValue → DataType →
    Except StateError (Option AggregateValue) :=
  aggregateArithmetic "add" (· + ·) (· + ·) (· + ·)

/-- The difference of two values of a type. -/
def aggregateSub : AggregateValue → AggregateValue → DataType →
    Except StateError (Option AggregateValue) :=
  aggregateArithmetic "subtract" (· - ·) (· - ·) (· - ·)

/-- Zero in a type. -/
def zeroValue : DataType → AggregateValue
  | .float32 => float32Value 0
  | .float64 => float64Value 0
  | _ => .int 0

/-- One step of an append-only extremum: raw comparison on floating point, the order of the values
elsewhere. -/
def flinkAppendExtremum (current candidate : AggregateValue) (minimum : Bool) : AggregateValue :=
  let replace := match current, candidate with
    | .float32 current, .float32 candidate =>
      if minimum then binary32.less candidate.toNat current.toNat
      else binary32.less current.toNat candidate.toNat
    | .float64 current, .float64 candidate =>
      if minimum then binary64.less candidate.toNat current.toNat
      else binary64.less current.toNat candidate.toNat
    | current, candidate =>
      if minimum then (compare candidate current).isLT else (compare candidate current).isGT
  if replace then candidate else current

/-! ### Decimal division

The quotient is rounded half up to 38 significant digits first and to the target scale after
that. -/

/-- The significant digits of a quotient. -/
def divisionDigits : Int := 38

/-- The exponent of the leading digit of a quotient of positive numbers. -/
def decimalExponent (numerator denominator : Nat) : Int :=
  let candidate : Int := (Nat.toDigits 10 numerator).length - (Nat.toDigits 10 denominator).length
  if 0 ≤ candidate then
    if numerator < denominator * 10 ^ candidate.toNat then candidate - 1 else candidate
  else
    if numerator * 10 ^ (-candidate).toNat < denominator then candidate - 1 else candidate

/-- A quotient rounded half up. -/
def roundHalfUp (numerator denominator : Nat) : Nat :=
  if numerator % denominator * 2 ≥ denominator then numerator / denominator + 1
  else numerator / denominator

/-- A value that fits the precision. -/
def checkedDecimal (value : Int) (precision : Nat) : Option Int :=
  if 10 ^ precision ≤ value.natAbs then none else checkedI128 value

/-- The quotient of two decimals, rounded once to 38 digits and once to the scale. -/
def flinkDivideNonzero (left : Int) (leftScale : Nat) (right : Int) (rightScale precision : Nat)
    (targetScale : Int) : Option Int :=
  if left = 0 then
    some 0
  else
    let numerator := left.natAbs * 10 ^ rightScale
    let denominator := right.natAbs * 10 ^ leftScale
    let exponent := decimalExponent numerator denominator
    let significantShift := divisionDigits - 1 - exponent
    let significant :=
      if 0 ≤ significantShift then roundHalfUp (numerator * 10 ^ significantShift.toNat) denominator
      else roundHalfUp numerator (denominator * 10 ^ (-significantShift).toNat)
    let outputShift := exponent - (divisionDigits - 1) + targetScale
    let unscaled :=
      if 0 ≤ outputShift then significant * 10 ^ outputShift.toNat
      else roundHalfUp significant (10 ^ (-outputShift).toNat)
    checkedDecimal (if (left < 0) ≠ (right < 0) then -(unscaled : Int) else unscaled) precision

end StreamFusion.Aggregate
