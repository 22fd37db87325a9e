import Mathlib.Algebra.Order.Group.Int
import StreamFusion.Exchange.BinaryRow.Format

/-!
# What a key keeps of its values

Two values of one type are told apart by their cells, except where the encoding drops something:
not-a-number has one bit pattern in an array, and a timestamp is cut to milliseconds if that is the
precision of its field.  `keyNormal` is what remains.

This module has the scalars.  Numbers are injective in two's complement, also without the bytes that
only repeat the sign.  A slot that holds a short value is told from a slot that holds an offset by
its highest bit, as long as the offsets stay below 2 GiB.
-/

namespace StreamFusion.Exchange.BinaryRow

open Wire SlotLayout List Except

/-! ## What the encoding keeps -/

/-- A timestamp at the precision of its field. -/
def truncated (precision : Nat) (unit : TimeUnit) (value : Int) : Int :=
  if precision ≤ 3 then
    match unit with
    | .microsecond => value / 1000 * 1000
    | .nanosecond => value / 1000000 * 1000000
    | _ => value
  else value

mutual

/-- A value as far as its encoding keeps it. -/
def normal : DataType → Value → Value
  | .list element, .list elements => .list (normalElements element elements)
  | .map key value, .map keys values => .map (normalElements key keys) (normalElements value values)
  | .struct fields, .struct columns => .struct (normalColumns fields columns)
  | _, value => value

/-- The elements of an array. -/
def normalElements (type : DataType) : List Value → List Value
  | [] => []
  | value :: values =>
    (match type, value with
      | .float32, .float bits => .float (canonicalFloat bits)
      | .float64, .float bits => .float (canonicalDouble bits)
      | _, _ => normal type value) :: normalElements type values

/-- The fields of a struct. -/
def normalColumns : List DataType → List Value → List Value
  | type :: types, value :: values => normal type value :: normalColumns types values
  | _, _ => []

end

/-- The value of a key field as far as the encoding keeps it. -/
def keyNormal (kind : KeyField) (type : DataType) (value : Value) : Value :=
  match kind, type, value with
  | .timestamp precision, .timestamp unit, .int value => .int (truncated precision unit value)
  | _, _, _ => normal type value

/-! ## Numbers -/

theorem leNat_append (xs ys : Bytes) : leNat (xs ++ ys) =
    leNat xs + 256 ^ xs.length * leNat ys := by
  induction xs with
  | nil => simp
  | cons byte xs ih =>
    rw [cons_append, leNat_cons, leNat_cons, ih, length_cons, pow_succ]
    ring

variable {width : Nat} {value : Int}

theorem inWidth_iff : inWidth width value = true ↔ -2 ^ (width - 1) ≤ value ∧
    value < 2 ^ (width - 1) := by
  rw [inWidth, Bool.and_eq_true, decide_eq_true_eq, decide_eq_true_eq]

variable {value' : Int}

/-- Numbers in range are told apart by their bytes. -/
theorem leInt_inj (hwidth : 0 < width)
    (hvalue : inWidth (8 * width) value = true) (hvalue' : inWidth (8 * width) value' = true)
    (h : leInt width value = leInt width value') : value = value' := by
  have hpos : (0 : Int) < 2 ^ (8 * width) := by positivity
  have hlt : ∀ v : Int, (v % 2 ^ (8 * width)).toNat < 256 ^ width := by
    intro v
    have hmod := Int.emod_lt_of_pos v hpos
    have hnonneg := Int.emod_nonneg v hpos.ne'
    have hpow : (256 : Int) ^ width = 2 ^ (8 * width) := by
      rw [pow_mul]
      norm_num
    zify
    rw [Int.toNat_of_nonneg hnonneg, hpow]
    exact hmod
  have hnat := leBytes_injective (hlt value) (hlt value') h
  have hmod : value % 2 ^ (8 * width) = value' % 2 ^ (8 * width) := by
    have hnonneg := Int.emod_nonneg value hpos.ne'
    have hnonneg' := Int.emod_nonneg value' hpos.ne'
    omega
  have hdvd : (2 : Int) ^ (8 * width) ∣ value - value' :=
    Int.dvd_of_emod_eq_zero (Int.emod_eq_emod_iff_emod_sub_eq_zero.mp hmod)
  have hhalf : (2 : Int) ^ (8 * width) = 2 * 2 ^ (8 * width - 1) := by
    rw [← pow_succ', Nat.sub_add_cancel (by omega)]
  rw [inWidth_iff] at hvalue hvalue'
  have habs : |value - value'| < 2 ^ (8 * width) := by
    rw [abs_lt, hhalf]
    constructor <;> omega
  exact sub_eq_zero.mp (Int.eq_zero_of_abs_lt_dvd hdvd habs)

/-- The sign of a number, as the byte that its encoding repeats. -/
def signOf : Bytes → UInt8
  | [] => 0
  | byte :: _ => if byte &&& 0x80 = 0 then 0 else 0xff

theorem signOf_dropSign (bytes : Bytes) : signOf (dropSign bytes) = signOf bytes := by
  fun_induction dropSign bytes with
  | case1 current next rest hsign ih =>
    rw [ih]
    rcases hsign with ⟨rfl, hnext⟩ | ⟨rfl, hnext⟩
    · simp [signOf, hnext]
    · have hbit : (255 : UInt8) &&& 128 ≠ 0 := by decide
      simp [signOf, hnext, hbit]
  | case2 => rfl
  | case3 => rfl

/-- The dropped bytes repeat the sign. -/
theorem dropSign_spec (bytes : Bytes) :
    replicate (bytes.length - (dropSign bytes).length) (signOf (dropSign bytes)) ++
      dropSign bytes = bytes := by
  fun_induction dropSign bytes with
  | case1 current next rest hsign ih =>
    have hle := length_dropSign_le (next :: rest)
    have hcurrent : signOf (dropSign (next :: rest)) = current := by
      rw [signOf_dropSign]
      rcases hsign with ⟨rfl, hnext⟩ | ⟨rfl, hnext⟩
      · simp [signOf, hnext]
      · simp [signOf, hnext]
    rw [length_cons, Nat.succ_sub hle, replicate_succ, cons_append, ih, hcurrent]
  | case2 => simp
  | case3 => simp

theorem minimalTwosComplement_inj (hvalue : inWidth 128 value = true)
    (hvalue' : inWidth 128 value' = true)
    (h : minimalTwosComplement value = minimalTwosComplement value') : value = value' := by
  unfold minimalTwosComplement at h
  have hbytes := dropSign_spec (leInt 16 value).reverse
  have hbytes' := dropSign_spec (leInt 16 value').reverse
  rw [h, length_reverse, length_leInt] at hbytes
  rw [length_reverse, length_leInt] at hbytes'
  have hwidth : (0 : Nat) < 16 := by decide
  have hwide : inWidth (8 * 16) value = true := hvalue
  have hwide' : inWidth (8 * 16) value' = true := hvalue'
  exact leInt_inj hwidth hwide hwide' (reverse_injective (hbytes.symm.trans hbytes'))

/-! ## Slots -/

variable {offset size : Nat}

theorem offsetAndSize_eq (hsize : size < 2 ^ 32) :
    offsetAndSize offset size = leBytes 8 (offset * 2 ^ 32 + size) := by
  rw [offsetAndSize, ← Nat.shiftLeft_add_eq_or_of_lt hsize, Nat.shiftLeft_eq]

theorem leNat_offsetAndSize (hoffset : offset < 2 ^ 32) (hsize : size < 2 ^ 32) :
    leNat (offsetAndSize offset size) = offset * 2 ^ 32 + size := by
  rw [offsetAndSize_eq hsize, leNat_leBytes_of_lt]
  have hpow : (256 : Nat) ^ 8 = 2 ^ 64 := by norm_num
  rw [hpow]
  omega

theorem offsetAndSize_inj {size' : Nat} (hoffset : offset < 2 ^ 32) (hsize : size < 2 ^ 32)
    (hsize' : size' < 2 ^ 32) (h : offsetAndSize offset size = offsetAndSize offset size') :
    size = size' := by
  have hnat := congrArg leNat h
  rw [leNat_offsetAndSize hoffset hsize, leNat_offsetAndSize hoffset hsize'] at hnat
  omega

/-- The slot of a string that fits into it. -/
def shortSlot (value : Bytes) : Bytes :=
  value ++ zeros (7 - value.length) ++ [0x80 ||| UInt8.ofNat value.length]

theorem toNat_marker {n : Nat} (h : n ≤ 7) : (0x80 ||| UInt8.ofNat n : UInt8).toNat = 128 + n := by
  interval_cases n <;> rfl

theorem shortSlot_inj {value value' : Bytes} (h : value.length ≤ 7) (h' : value'.length ≤ 7)
    (hslot : shortSlot value = shortSlot value') : value = value' := by
  obtain ⟨hbody, hmarker⟩ := append_split hslot (by
    simp only [length_append, length_zeros]
    omega)
  have hlength : value.length = value'.length := by
    have hnat := congrArg UInt8.toNat (singleton_inj.mp hmarker)
    rw [toNat_marker h, toNat_marker h'] at hnat
    omega
  exact (append_split hbody hlength).1

/-- An offset below 2 GiB does not look like a short value. -/
theorem shortSlot_ne {value : Bytes} (h : value.length ≤ 7) (hoffset : offset < 2 ^ 31)
    (hsize : size < 2 ^ 32) : shortSlot value ≠ offsetAndSize offset size := by
  intro hslot
  have hnat := congrArg leNat hslot
  have hlength : (value ++ zeros (7 - value.length)).length = 7 := by
    simp only [length_append, length_zeros]
    omega
  rw [leNat_offsetAndSize (by omega) hsize, shortSlot, leNat_append, hlength, leNat_cons, leNat_nil,
    toNat_marker h] at hnat
  have hpow : (256 : Nat) ^ 7 = 2 ^ 56 := by norm_num
  rw [hpow] at hnat
  omega

theorem padded_inj {content content' : Bytes} (hlength : content.length = content'.length)
    (h : padded content = padded content') : content = content' :=
  (append_split h hlength).1

/-! ## Scalars -/

/-- The bytes that a scalar is known by. -/
def Scalar.written : Scalar → Bytes
  | .fixed value => value
  | .bytes value => value
  | .noncompactTimestamp millis nanos => leInt 8 millis ++ leBytes 4 nanos
  | .noncompactDecimal unscaled => minimalTwosComplement unscaled

/-- How the slot of a scalar is to be read. -/
inductive Form where
  | fixed
  | bytes
  | timestamp
  | decimal
  deriving DecidableEq

/-- The form of a scalar. -/
def Scalar.form : Scalar → Form
  | .fixed _ => .fixed
  | .bytes _ => .bytes
  | .noncompactTimestamp _ _ => .timestamp
  | .noncompactDecimal _ => .decimal

/-- The form of the scalars of a key field. -/
def KeyField.form : KeyField → Form
  | .string => .bytes
  | .binary => .bytes
  | .timestamp precision => if precision ≤ 3 then .fixed else .timestamp
  | .decimal precision => if precision ≤ 18 then .fixed else .decimal
  | _ => .fixed

/-- The nanoseconds of a millisecond are a small number. -/
def Scalar.Small : Scalar → Prop
  | .noncompactTimestamp _ nanos => nanos < 2 ^ 32
  | _ => True

variable {unit : TimeUnit} {parts : Int × Nat}

theorem timestampParts_small (h : timestampParts unit value = .ok parts) : parts.2 < 2 ^ 32 := by
  unfold timestampParts at h
  split at h
  · split_ifs at h
    cases h
    norm_num
  all_goals
    cases h
    omega

variable {kind : KeyField} {type : DataType} {scalar : Scalar}

/-- The form of a scalar is that of its field. -/
theorem scalarOf_form {value : Value}
    (h : scalarOf kind type value = .ok scalar) : scalar.form = kind.form ∧ scalar.Small := by
  unfold scalarOf at h
  split at h
  case h_12 =>
    obtain ⟨millis, -, h⟩ := bind_eq_ok.mp h
    cases h
    exact ⟨rfl, trivial⟩
  case h_13 precision unit value =>
    obtain ⟨parts, hparts, h⟩ := bind_eq_ok.mp h
    split_ifs at h with hprecision <;> cases h
    · exact ⟨(if_pos hprecision).symm, trivial⟩
    · exact ⟨(if_neg hprecision).symm, timestampParts_small hparts⟩
  case h_14 precision _ value =>
    split_ifs at h with hprecision <;> cases h
    · exact ⟨(if_pos hprecision).symm, trivial⟩
    · exact ⟨(if_neg hprecision).symm, trivial⟩
  all_goals
    cases h
  all_goals
    exact ⟨rfl, trivial⟩

theorem scalarCell_bytes_short {value : Bytes} (h : value.length ≤ 7) :
    scalarCell (.bytes value) = ⟨fun _ => shortSlot value, []⟩ := if_pos h

theorem scalarCell_bytes_long {value : Bytes} (h : ¬ value.length ≤ 7) :
    scalarCell (.bytes value) = ⟨fun offset => offsetAndSize offset value.length, padded value⟩ :=
  if_neg h

theorem length_le_padded (content : Bytes) : content.length ≤ (padded content).length := by
  rw [length_padded]
  exact le_nextMultipleOf8 _

variable {bound : Nat}

/-- The slots of two byte strings tell whether the strings are short, and how long they are. -/
theorem bytes_slots {value value' : Bytes} (hsmall : bound < 2 ^ 31)
    (hbound : offset + (scalarCell (.bytes value)).var.length ≤ bound)
    (hbound' : offset + (scalarCell (.bytes value')).var.length ≤ bound)
    (hslot : (scalarCell (.bytes value)).slot offset = (scalarCell (.bytes value')).slot offset) :
    value.length ≤ 7 ∧ value = value' ∨
      ¬ value.length ≤ 7 ∧ ¬ value'.length ≤ 7 ∧ value.length = value'.length := by
  by_cases hshort : value.length ≤ 7 <;> by_cases hshort' : value'.length ≤ 7
  · rw [scalarCell_bytes_short hshort, scalarCell_bytes_short hshort'] at hslot
    exact Or.inl ⟨hshort, shortSlot_inj hshort hshort' hslot⟩
  · rw [scalarCell_bytes_short hshort, scalarCell_bytes_long hshort'] at hslot
    rw [scalarCell_bytes_long hshort'] at hbound'
    have hle : value'.length ≤ (padded value').length := length_le_padded value'
    have hbound' : offset + (padded value').length ≤ bound := hbound'
    exact absurd hslot (shortSlot_ne hshort (by omega) (by omega))
  · rw [scalarCell_bytes_long hshort, scalarCell_bytes_short hshort'] at hslot
    rw [scalarCell_bytes_long hshort] at hbound
    have hle : value.length ≤ (padded value).length := length_le_padded value
    have hbound : offset + (padded value).length ≤ bound := hbound
    exact absurd hslot.symm (shortSlot_ne hshort' (by omega) (by omega))
  · rw [scalarCell_bytes_long hshort, scalarCell_bytes_long hshort'] at hslot
    rw [scalarCell_bytes_long hshort] at hbound
    rw [scalarCell_bytes_long hshort'] at hbound'
    have hle : value.length ≤ (padded value).length := length_le_padded value
    have hle' : value'.length ≤ (padded value').length := length_le_padded value'
    have hbound : offset + (padded value).length ≤ bound := hbound
    have hbound' : offset + (padded value').length ≤ bound := hbound'
    exact Or.inr ⟨hshort, hshort', offsetAndSize_inj (by omega) (by omega) (by omega) hslot⟩

variable {scalar' : Scalar}

/-- Scalars of one form with the same slot have variable parts of the same length, and if these
agree then the scalars store the same. -/
theorem scalarCell_inj (hform : scalar.form = scalar'.form)
    (hsmallNanos : scalar.Small) (hsmallNanos' : scalar'.Small)
    (hsmall : bound < 2 ^ 31) (hbound : offset + (scalarCell scalar).var.length ≤ bound)
    (hbound' : offset + (scalarCell scalar').var.length ≤ bound)
    (hslot : (scalarCell scalar).slot offset = (scalarCell scalar').slot offset) :
    (scalarCell scalar).var.length = (scalarCell scalar').var.length ∧
      ((scalarCell scalar).var = (scalarCell scalar').var → scalar.written = scalar'.written) := by
  cases scalar with
  | fixed value =>
    cases scalar' with
    | fixed value' => exact ⟨rfl, fun _ => hslot⟩
    | _ => cases hform
  | bytes value =>
    cases scalar' with
    | bytes value' =>
      rcases bytes_slots hsmall hbound hbound' hslot with ⟨-, rfl⟩ | ⟨hlong, hlong', hlength⟩
      · exact ⟨rfl, fun _ => rfl⟩
      · rw [scalarCell_bytes_long hlong, scalarCell_bytes_long hlong']
        refine ⟨?_, padded_inj hlength⟩
        rw [length_padded, length_padded, hlength]
    | _ => cases hform
  | noncompactTimestamp millis nanos =>
    cases scalar' with
    | noncompactTimestamp millis' nanos' =>
      have hnanos : nanos = nanos' := offsetAndSize_inj (by omega) hsmallNanos hsmallNanos' hslot
      refine ⟨(length_leInt ..).trans (length_leInt ..).symm, fun hvar => ?_⟩
      have hmillis : leInt 8 millis = leInt 8 millis' := hvar
      show leInt 8 millis ++ leBytes 4 nanos = leInt 8 millis' ++ leBytes 4 nanos'
      rw [hmillis, hnanos]
    | _ => cases hform
  | noncompactDecimal unscaled =>
    cases scalar' with
    | noncompactDecimal unscaled' =>
      have hle := length_minimalTwosComplement_le unscaled
      have hle' := length_minimalTwosComplement_le unscaled'
      have hlength : (minimalTwosComplement unscaled).length =
          (minimalTwosComplement unscaled').length :=
        offsetAndSize_inj (by omega) (by omega) (by omega) hslot
      refine ⟨?_, fun hvar => (append_split hvar hlength).1⟩
      show (_ ++ zeros _).length = (_ ++ zeros _).length
      rw [length_append, length_append, length_zeros, length_zeros, hlength]
    | _ => cases hform

theorem inWidth_ediv {divisor : Int} (hdivisor : 0 < divisor) (h : inWidth 64 value = true) :
    inWidth (8 * 8) (value / divisor) = true := by
  rw [inWidth_iff] at h ⊢
  refine ⟨?_, ?_⟩
  · refine Int.le_ediv_of_mul_le hdivisor (le_trans ?_ h.1)
    omega
  · refine Int.ediv_lt_of_lt_mul hdivisor (lt_of_lt_of_le h.2 ?_)
    omega

/-- The parts of a timestamp tell its milliseconds. -/
theorem timestampParts_inj {parts' : Int × Nat}
    (hvalue : inWidth 64 value = true) (hvalue' : inWidth 64 value' = true)
    (h : timestampParts unit value = .ok parts) (h' : timestampParts unit value' = .ok parts')
    (hmillis : leInt 8 parts.1 = leInt 8 parts'.1) :
    truncated 0 unit value = truncated 0 unit value' ∧
      (leBytes 4 parts.2 = leBytes 4 parts'.2 → value = value') := by
  have height : (0 : Nat) < 8 := by decide
  have hnanos : leBytes 4 parts.2 = leBytes 4 parts'.2 → parts.2 = parts'.2 := by
    have hsmall := timestampParts_small h
    have hsmall' := timestampParts_small h'
    exact leBytes_injective (by norm_num; omega) (by norm_num; omega)
  cases unit with
  | second =>
    unfold timestampParts at h h'
    split_ifs at h h' with hwidth hwidth'
    cases h
    cases h'
    have hsame : value * 1000 = value' * 1000 := leInt_inj height hwidth hwidth' hmillis
    have heq : value = value' := by omega
    rw [heq]
    exact ⟨rfl, fun _ => rfl⟩
  | millisecond =>
    cases h
    cases h'
    have heq : value = value' := leInt_inj height hvalue hvalue' hmillis
    rw [heq]
    exact ⟨rfl, fun _ => rfl⟩
  | microsecond | nanosecond =>
    cases h
    cases h'
    have hdiv :=
      leInt_inj height (inWidth_ediv (by decide) hvalue) (inWidth_ediv (by decide) hvalue') hmillis
    refine ⟨congrArg (· * _) hdiv, fun hbytes => ?_⟩
    have hsame := hnanos hbytes
    omega

theorem leBytes_float_inj {bits bits' : Nat} (h : bits < 2 ^ (8 * width))
    (h' : bits' < 2 ^ (8 * width))
    (hbytes : leBytes width bits = leBytes width bits') : bits = bits' := by
  have hpow : (2 : Nat) ^ (8 * width) = 256 ^ width := by
    rw [pow_mul]
    norm_num
  rw [hpow] at h h'
  exact leBytes_injective h h' hbytes

/-- A time of day is told by its milliseconds. -/
theorem timeMillis_inj {millis millis' : Int}
    (hvalue : inWidth 32 value = true) (hvalue' : inWidth 32 value' = true)
    (h : timeMillis unit value = .ok millis) (h' : timeMillis unit value' = .ok millis')
    (hmillis : leInt 4 millis = leInt 4 millis') : value = value' := by
  have hfour : (0 : Nat) < 4 := by decide
  cases unit with
  | second =>
    unfold timeMillis at h h'
    split_ifs at h h' with hwidth hwidth'
    cases h
    cases h'
    have hsame : value * 1000 = value' * 1000 := leInt_inj hfour hwidth hwidth' hmillis
    omega
  | millisecond =>
    cases h
    cases h'
    exact leInt_inj hfour hvalue hvalue' hmillis
  | microsecond => cases h
  | nanosecond => cases h

/-- Scalars that store the same come from the same value. -/
theorem scalarOf_inj {value value' : Value}
    (htyped : hasType type value = true) (htyped' : hasType type value' = true)
    (h : scalarOf kind type value = .ok scalar) (h' : scalarOf kind type value' = .ok scalar')
    (hwritten : scalar.written = scalar'.written) :
    keyNormal kind type value = keyNormal kind type value' := by
  unfold scalarOf at h
  split at h
  case h_1 value =>
    cases value' with
    | bool value' =>
      cases h
      cases h'
      cases value <;> cases value' <;> first | rfl | cases hwritten
    | _ => cases h'
  case h_2 value | h_3 value | h_4 value | h_5 value | h_11 value =>
    cases value' with
    | int value' =>
      cases h
      cases h'
      have hsame : value = value' := by
        refine leInt_inj ?_ ?_ ?_ hwritten
        exacts [by decide, htyped, htyped']
      rw [hsame]
    | _ => cases h'
  case h_6 bits | h_7 bits =>
    cases value' with
    | float bits' =>
      cases h
      cases h'
      rw [hasType, decide_eq_true_eq] at htyped htyped'
      rw [leBytes_float_inj htyped htyped' hwritten]
    | _ => cases h'
  case h_8 value | h_9 value | h_10 size value =>
    cases value' with
    | bytes value' =>
      cases h
      cases h'
      exact congrArg Value.bytes hwritten
    | _ => cases h'
  case h_12 unit value =>
    cases value' with
    | int value' =>
      obtain ⟨millis, hmillis, h⟩ := bind_eq_ok.mp h
      obtain ⟨millis', hmillis', h'⟩ := bind_eq_ok.mp h'
      cases h
      cases h'
      rw [timeMillis_inj htyped htyped' hmillis hmillis' hwritten]
    | _ => cases h'
  case h_13 precision unit value =>
    cases value' with
    | int value' =>
      obtain ⟨parts, hparts, h⟩ := bind_eq_ok.mp h
      obtain ⟨parts', hparts', h'⟩ := bind_eq_ok.mp h'
      show Value.int (truncated precision unit value) = Value.int (truncated precision unit value')
      by_cases hprecision : precision ≤ 3
      · rw [if_pos hprecision] at h h'
        cases h
        cases h'
        have hsame := (timestampParts_inj htyped htyped' hparts hparts' hwritten).1
        unfold truncated at hsame ⊢
        rw [if_pos hprecision, if_pos hprecision]
        exact congrArg Value.int hsame
      · rw [if_neg hprecision] at h h'
        cases h
        cases h'
        obtain ⟨hmillis, hnanos⟩ :=
          append_split hwritten ((length_leInt ..).trans (length_leInt ..).symm)
        rw [(timestampParts_inj htyped htyped' hparts hparts' hmillis).2 hnanos]
    | _ => cases h'
  case h_14 precision width value =>
    cases value' with
    | int value' =>
      by_cases hprecision : precision ≤ 18
      · have hcompact : ∀ {v : Int} {s : Scalar},
          scalarOf (.decimal precision) (.decimal128 width) (.int v) =
            .ok s → inWidth 64 v = true ∧ s = .fixed (leInt 8 v) := by
          intro v s hv
          rw [scalarOf, if_pos hprecision] at hv
          split_ifs at hv with hwidth
          cases hv
          exact ⟨hwidth, rfl⟩
        obtain ⟨hwidth, rfl⟩ := hcompact h
        obtain ⟨hwidth', rfl⟩ := hcompact h'
        -- the bytes that are written fix the width
        have hsame : value = value' := by
          refine leInt_inj ?_ ?_ ?_ hwritten
          exacts [by decide, hwidth, hwidth']
        rw [hsame]
      · have hwide : ∀ {v : Int} {s : Scalar},
          scalarOf (.decimal precision) (.decimal128 width) (.int v) =
            .ok s → s = .noncompactDecimal v := by
          intro v s hv
          rw [scalarOf, if_neg hprecision] at hv
          cases hv
          rfl
        obtain rfl := hwide h
        obtain rfl := hwide h'
        rw [minimalTwosComplement_inj htyped htyped' hwritten]
    | _ => cases h'
  case h_15 | h_16 => cases h

end StreamFusion.Exchange.BinaryRow
