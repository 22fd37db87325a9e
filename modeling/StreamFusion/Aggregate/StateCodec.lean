import StreamFusion.Lib.Reader
import StreamFusion.Aggregate.Accumulator

/-!
# The encoding of a group's state

A state is a magic number, a version, the row count, the number of accumulators and the
accumulators, each with a tag.  An accumulator that nothing has contributed to is written as the tag
zero alone and is read back as the fresh accumulator of its call.  Older versions are still read.

`decodeState_encodeState` says what reading back gives: the state with every neutral accumulator
replaced by a fresh one (`normalize`).  For sums that is no loss, because a sum without a value and
a sum with the value zero are the same sum.  For averages it is one: a running sum that has
overflowed has no value, and a fresh one is zero.
-/

namespace StreamFusion.Aggregate

open Wire State Reader List

/-- What a stored state starts with. -/
def stateMagic : Bytes := [83, 70, 71, 65]

/-- The version that is written. -/
def stateVersion : UInt8 := 6

/-! ## Encoding -/

/-- A 64-bit integer, little-endian. -/
def i64Bytes (n : Int64) : Bytes := leBytes 8 n.toUInt64.toNat

/-- A 128-bit integer, little-endian. -/
def i128Bytes (value : Int) : Bytes := leBytes 16 (value % 2 ^ 128).toNat

/-- A value behind its tag. -/
def encodeValue (value : AggregateValue) : Bytes :=
  valueTag value :: match value with
    | .boolean b => [if b then 1 else 0]
    | .int v => i128Bytes v
    | .float32 bits => leBytes 4 bits.toNat
    | .float64 bits => leBytes 8 bits.toNat
    | .bytes b => leBytes 4 b.length ++ b

/-- A value that may be missing. -/
def encodeOptionalValue : Option AggregateValue → Bytes
  | none => [0]
  | some value => 1 :: encodeValue value

/-- A value and its multiplicity. -/
def encodeCountedValue (entry : AggregateValue × Int64) : Bytes :=
  encodeValue entry.1 ++ i64Bytes entry.2

/-- The values of a DISTINCT call. -/
def encodeCountedValues (values : CountedValues) : Bytes :=
  leBytes 4 values.toList.length ++ values.toList.flatMap encodeCountedValue

/-- Is a running sum missing or zero? -/
def optionalValueIsZero : Option AggregateValue → Bool
  | none => true
  | some (.int v) => v = 0
  | some (.float32 bits) => FloatBits.binary32.magnitude bits.toNat = 0
  | some (.float64 bits) => FloatBits.binary64.magnitude bits.toNat = 0
  | some (.boolean _) | some (.bytes _) => false

/-- Has nothing contributed to the accumulator, as far as its value shows? -/
def accumulatorIsNeutral : Accumulator → Bool
  | .count n => n = 0
  | .distinctCount n values => n = 0 && values.isEmpty
  | .sum value n | .average value n => n = 0 && optionalValueIsZero value
  | .distinctSum value n values | .distinctAverage value n values =>
    n = 0 && values.isEmpty && optionalValueIsZero value
  | .appendExtremum value => value.isNone
  | .extremum values => values.isEmpty

/-- An accumulator behind its tag; a fresh one is the tag zero. -/
def encodeAccumulator (accumulator : Accumulator) : Bytes :=
  if accumulatorIsNeutral accumulator then
    [0]
  else
    match accumulator with
    | .count n => 1 :: i64Bytes n
    | .distinctCount n values => 5 :: (i64Bytes n ++ encodeCountedValues values)
    | .sum value n => 2 :: (encodeOptionalValue value ++ i64Bytes n)
    | .distinctSum value n values =>
      6 :: (encodeOptionalValue value ++ (i64Bytes n ++ encodeCountedValues values))
    | .average value n => 7 :: (encodeOptionalValue value ++ i64Bytes n)
    | .distinctAverage value n values =>
      8 :: (encodeOptionalValue value ++ (i64Bytes n ++ encodeCountedValues values))
    | .appendExtremum value => 4 :: encodeOptionalValue value
    | .extremum values => 3 :: encodeCountedValues values

/-- The stored form of a state. -/
def encodeState (state : AccumulatorState) : Bytes :=
  stateMagic ++ (stateVersion :: (i64Bytes state.rowCount ++
    (leBytes 4 state.accumulators.length ++ state.accumulators.flatMap encodeAccumulator)))

/-! ## Decoding -/

/-- The error of a reader that runs out of bytes. -/
def truncated : StateError := .execution "group aggregate state is truncated"

/-- Reads a byte. -/
def readU8 : Reader StateError UInt8 := do return UInt8.ofNat (← leNat truncated 1)

/-- Reads a 32-bit number. -/
def readU32 : Reader StateError Nat := leNat truncated 4

/-- Reads a 64-bit integer. -/
def readI64 : Reader StateError Int64 := do
  return (UInt64.ofNat (← leNat truncated 8)).toInt64

/-- Reads a 128-bit integer. -/
def readI128 : Reader StateError Int := do
  let n ← leNat truncated 16
  return if n < 2 ^ 127 then n else n - 2 ^ 128

/-- Reads a value behind its tag. -/
def decodeValue : Reader StateError AggregateValue := do
  match ← readU8 with
  | 1 =>
    match ← readU8 with
    | 0 => return .boolean false
    | 1 => return .boolean true
    | _ => fail (.execution "group aggregate Boolean state byte is invalid")
  | 2 => return .int (← readI128)
  | 3 => return .float32 (UInt32.ofNat (← readU32))
  | 4 => return .float64 (UInt64.ofNat (← leNat truncated 8))
  | 5 => do
    let length ← readU32
    return .bytes (← exactly truncated length)
  | _ => fail (.execution "group aggregate value state tag is invalid")

/-- Reads a value that may be missing. -/
def decodeOptionalValue (description : String) : Reader StateError (Option AggregateValue) := do
  match ← readU8 with
  | 0 => return none
  | 1 => return some (← decodeValue)
  | _ => fail (.execution ("group aggregate " ++ description ++ " presence is invalid"))

/-- The first version of the format had untagged integers. -/
def decodeCountedValue (legacyInteger : Bool) : Reader StateError (AggregateValue × Int64) := do
  let value ← if legacyInteger then (do return .int (← readI128)) else decodeValue
  return (value, ← readI64)

/-- A number of entries the input is too short for is refused before anything is allocated.  Bulk
building of a sorted list and insertion one by one give the same map. -/
def decodeEntries (legacyInteger : Bool) (entries : Nat) : Reader StateError CountedValues :=
  fun input =>
    if entries > input.length / (if legacyInteger then 24 else 10) then
      .error truncated
    else
      (do
        let staged ← times (decodeCountedValue legacyInteger) entries
        return staged.foldl (fun values entry => values.insert entry.1 entry.2) ∅ :
        Reader StateError CountedValues) input

/-- Reads the values of a DISTINCT call. -/
def decodeCountedValues (legacyInteger : Bool) : Reader StateError CountedValues := do
  decodeEntries legacyInteger (← readU32)

/-- The tag of the accumulators of a call. -/
def expectedTag (call : Call) : UInt8 :=
  match call.function with
  | .countStar | .count => if call.distinct then 5 else 1
  | .sum | .sum0 => if call.distinct then 6 else 2
  | .avg => if call.distinct then 8 else 7
  | .min | .max => if call.retractable then 3 else 4

/-- A stored value has to have the type of its call. -/
def checkType (value : AggregateValue) (type : Option DataType) : Except StateError Unit :=
  match type with
  | none => .error (.panic "the argument has an input type")
  | some type =>
    if aggregateValueMatchesType value type then .ok ()
    else .error (.execution "group aggregate state value does not match its type")

/-- The type of the value of an accumulator. -/
def Call.stateType (call : Call) : DataType :=
  if call.function = .avg then call.averageAccumulatorType else call.outputType

/-- The members are of the input type, the value is of the type of the state. -/
def validateAccumulatorValues (call : Call) : Accumulator → Except StateError Unit
  | .count _ => .ok ()
  | .distinctCount _ values =>
    values.toList.forM fun entry => checkType entry.1 call.inputType
  | .sum value _ | .average value _ | .appendExtremum value =>
    value.toList.forM fun v => checkType v (some call.stateType)
  | .distinctSum value _ values | .distinctAverage value _ values => do
    values.toList.forM fun entry => checkType entry.1 call.inputType
    value.toList.forM fun v => checkType v (some call.stateType)
  | .extremum values => values.toList.forM fun entry => checkType entry.1 (some call.stateType)

/-- Reads an accumulator behind its tag. -/
def decodeTagged (version : Nat) (call : Call) (tag : UInt8) : Reader StateError Accumulator :=
  if tag = 0 ∧ 6 ≤ version then
    return Accumulator.new call
  else if tag = 1 then do
    return .count (← readI64)
  else if tag = 2 then do
    let value ← if version = 1 then (do return some (.int (← readI128)))
      else if version = 2 then (do return some (← decodeValue))
      else decodeOptionalValue "sum"
    return .sum value (← readI64)
  else if tag = 3 then do
    return .extremum (← decodeCountedValues (version = 1))
  else if tag = 4 then do
    match ← readU8 with
    | 0 => return .appendExtremum none
    | 1 =>
      let value ← if version = 1 then (do return .int (← readI128)) else decodeValue
      return .appendExtremum (some value)
    | _ => fail (.execution "group aggregate append extremum presence is invalid")
  else if tag = 5 ∧ 4 ≤ version then do
    let n ← readI64
    return .distinctCount n (← decodeCountedValues false)
  else if tag = 6 ∧ 4 ≤ version then do
    let value ← decodeOptionalValue "distinct sum"
    let n ← readI64
    return .distinctSum value n (← decodeCountedValues false)
  else if tag = 7 ∧ 5 ≤ version then do
    let value ← decodeOptionalValue "average"
    return .average value (← readI64)
  else if tag = 8 ∧ 5 ≤ version then do
    let value ← decodeOptionalValue "distinct average"
    let n ← readI64
    return .distinctAverage value n (← decodeCountedValues false)
  else
    fail (.execution "group aggregate state accumulator tag is invalid")

/-- Reads an accumulator of a call. -/
def decodeAccumulator (version : Nat) (call : Call) : Reader StateError Accumulator := do
  let tag ← readU8
  let accumulator ← decodeTagged version call tag
  if tag ≠ 0 ∧ tag ≠ expectedTag call then
    fail (.execution "group aggregate state does not match its plan")
  else
    match validateAccumulatorValues call accumulator with
    | .error error => fail error
    | .ok () => return accumulator

/-- Reads the accumulators of all calls. -/
def decodeAccumulators (version : Nat) : List Call → Reader StateError (List Accumulator)
  | [] => return []
  | call :: calls => do
    let accumulator ← decodeAccumulator version call
    return accumulator :: (← decodeAccumulators version calls)

/-- Reads a state. -/
def readState (calls : List Call) : Reader StateError AccumulatorState := do
  if (← exactly truncated 4) ≠ stateMagic then
    fail (.execution "group aggregate state has invalid magic")
  else
    let version ← readU8
    if version < 1 ∨ version > stateVersion then
      fail (.execution
        ("group aggregate state version " ++ toString version ++ " is unsupported"))
    else
      let rowCount ← readI64
      let count ← readU32
      if count ≠ calls.length then
        fail (.execution ("group aggregate state has " ++ toString count ++
          " accumulators, expected " ++ toString calls.length))
      else
        return ⟨rowCount, ← decodeAccumulators version.toNat calls⟩

/-- Reads a state from all bytes. -/
def decodeState (bytes : Bytes) (calls : List Call) : Except StateError AccumulatorState :=
  match readState calls bytes with
  | .error error => .error error
  | .ok (state, []) => .ok state
  | .ok (_, _ :: _) => .error (.execution "group aggregate state has trailing bytes")

/-! ## Reading back what was written -/

/-- The values the format has room for. -/
def AggregateValue.Storable : AggregateValue → Prop
  | .int v => InWidth 128 v
  | .bytes b => b.length < 2 ^ 32
  | _ => True

/-- The values and their number fit the format. -/
def CountedValues.Storable (values : CountedValues) : Prop :=
  values.toList.length < 2 ^ 32 ∧ ∀ entry ∈ values.toList, entry.1.Storable

/-- All parts of the accumulator fit the format. -/
def Accumulator.Storable : Accumulator → Prop
  | .count _ => True
  | .distinctCount _ values | .extremum values => values.Storable
  | .sum value _ | .average value _ | .appendExtremum value => ∀ v, value = some v → v.Storable
  | .distinctSum value _ values | .distinctAverage value _ values =>
    (∀ v, value = some v → v.Storable) ∧ values.Storable

/-- The tag of an accumulator. -/
def Accumulator.tag : Accumulator → UInt8
  | .count _ => 1
  | .sum _ _ => 2
  | .extremum _ => 3
  | .appendExtremum _ => 4
  | .distinctCount _ _ => 5
  | .distinctSum _ _ _ => 6
  | .average _ _ => 7
  | .distinctAverage _ _ _ => 8

/-- What a round trip through the format makes of an accumulator. -/
def Accumulator.normalize (call : Call) (accumulator : Accumulator) : Accumulator :=
  if accumulatorIsNeutral accumulator then .new call else accumulator

theorem parses_readU8 (b : UInt8) : Parses readU8 [b] b := by
  intro rest
  have hread := parses_leNat truncated (w := 1) (n := b.toNat) b.toNat_lt
  have hbytes : leBytes 1 b.toNat = [b] := by simp [leBytes]
  rw [hbytes] at hread
  exact (hread.bind_pure (b := b) (by simpa using parses_pure b)) rest

theorem parses_readI64 (n : Int64) : Parses readI64 (i64Bytes n) n := by
  have hread := parses_leNat truncated (w := 8) (n := n.toUInt64.toNat) n.toUInt64.toNat_lt
  refine hread.bind_pure ?_
  rw [UInt64.ofNat_toNat]
  exact parses_pure n

theorem parses_readI128 {v : Int} (h : InWidth 128 v) : Parses readI128 (i128Bytes v) v := by
  obtain ⟨hlow, hhigh⟩ := h
  have hlt : (v % 2 ^ 128).toNat < 256 ^ 16 := by norm_num; omega
  have hread := parses_leNat truncated hlt
  refine hread.bind_pure ?_
  have hvalue : (if (v % 2 ^ 128).toNat < 2 ^ 127 then ((v % 2 ^ 128).toNat : Int)
      else (v % 2 ^ 128).toNat - 2 ^ 128) = v := by
    split_ifs <;> omega
  rw [hvalue]
  exact parses_pure v

variable {v : AggregateValue}

/-- A stored value is read back. -/
theorem parses_decodeValue (h : v.Storable) : Parses decodeValue (encodeValue v) v := by
  cases v with
  | boolean b =>
    cases b with
    | false => exact (parses_readU8 1).bind ((parses_readU8 0).bind_pure (parses_pure _))
    | true => exact (parses_readU8 1).bind ((parses_readU8 1).bind_pure (parses_pure _))
  | int v => exact (parses_readU8 2).bind ((parses_readI128 h).bind_pure (parses_pure _))
  | float32 bits =>
    refine (parses_readU8 3).bind ((parses_leNat truncated (w := 4) bits.toNat_lt).bind_pure ?_)
    rw [UInt32.ofNat_toNat]
    exact parses_pure _
  | float64 bits =>
    refine (parses_readU8 4).bind ((parses_leNat truncated (w := 8) bits.toNat_lt).bind_pure ?_)
    rw [UInt64.ofNat_toNat]
    exact parses_pure _
  | bytes b =>
    exact (parses_readU8 5).bind ((parses_leNat truncated (w := 4) h).bind
      ((parses_exactly truncated rfl).bind_pure (parses_pure _)))

theorem InWidth.mono {w w' : Nat} {v : Int} (hw : w ≤ w') (h : InWidth w v) : InWidth w' v := by
  have hpow : (2 ^ (w - 1) : Int) ≤ 2 ^ (w' - 1) :=
    pow_le_pow_right₀ (by norm_num) (by omega)
  exact ⟨by have := h.1; omega, by have := h.2; omega⟩

theorem InPrecision.inWidth {precision : Nat} {v : Int} (hp : precision ≤ 38)
    (h : InPrecision precision v) : InWidth 128 v := by
  have hpow : (10 ^ precision : Int) ≤ 10 ^ 38 := pow_le_pow_right₀ (by norm_num) hp
  obtain ⟨hlow, hhigh⟩ := h
  refine ⟨?_, ?_⟩ <;> norm_num at * <;> omega

theorem parses_decodeOptionalValue (description : String) {value : Option AggregateValue}
    (h : ∀ v, value = some v → v.Storable) :
    Parses (decodeOptionalValue description) (encodeOptionalValue value) value := by
  cases value with
  | none => exact (parses_readU8 0).bind_pure (parses_pure none)
  | some v =>
    exact (parses_readU8 1).bind ((parses_decodeValue (h v rfl)).bind_pure (parses_pure _))

theorem parses_decodeCountedValue {entry : AggregateValue × Int64} (h : entry.1.Storable) :
    Parses (decodeCountedValue false) (encodeCountedValue entry) entry :=
  (parses_decodeValue h).bind ((parses_readI64 entry.2).bind_pure (parses_pure _))

/-- Inserting the entries of a listing one by one rebuilds the map. -/
theorem foldl_insert_toList (values : CountedValues) :
    values.toList.foldl (fun values entry => values.insert entry.1 entry.2) ∅ = values := by
  have hlists := SortedEntries.lists_toList values
  have hnodup := SortedEntries.nodup_keys hlists.sorted
  suffices ∀ (entries : List (AggregateValue × Int64)) (start : CountedValues),
      (entries.map Prod.fst).Nodup → ∀ k,
      (entries.foldl (fun values entry => values.insert entry.1 entry.2) start)[k]? =
        ((entries.find? fun entry => entry.1 = k).map Prod.snd).or start[k]? by
    refine Std.ExtTreeMap.ext_getElem? fun k => ?_
    rw [this values.toList ∅ hnodup k]
    rcases hfind : values.toList.find? (fun entry => entry.1 = k) with _ | entry
    · rw [hfind]
      rcases hk : values[k]? with _ | n
      · rfl
      · have hmem := (hlists.mem_iff k n).mpr hk
        simpa using find?_eq_none.mp hfind _ hmem
    · have hkey : entry.1 = k := by simpa using find?_some hfind
      have hmem := (hlists.mem_iff entry.1 entry.2).mp (mem_of_find?_eq_some hfind)
      rw [hfind, ← hkey, hmem]
      rfl
  intro entries
  induction entries with
  | nil => simp
  | cons entry entries ih =>
    intro start hnd k
    obtain ⟨hentry, hrest⟩ := nodup_cons.mp hnd
    rw [foldl_cons, ih _ hrest, Std.ExtTreeMap.getElem?_insert]
    by_cases hk : entry.1 = k
    · -- the key does not occur again
      have hnone : (entries.find? fun e => e.1 = k) = none := by
        rw [find?_eq_none]
        rintro e he heq
        exact hentry (by rw [hk, ← of_decide_eq_true heq]; exact mem_map_of_mem he)
      simp [hnone, hk]
    · have hcmp : compare entry.1 k ≠ .eq := fun h => hk (Std.LawfulEqOrd.eq_of_compare h)
      simp [hk, hcmp]

theorem ten_mul_length_le (entries : List (AggregateValue × Int64)) :
    10 * entries.length ≤ (entries.flatMap encodeCountedValue).length := by
  have hvalue : ∀ v, 2 ≤ (encodeValue v).length := by
    intro v
    cases v <;> (simp [encodeValue, i128Bytes]; try omega)
  induction entries with
  | nil => simp
  | cons entry entries ih =>
    have := hvalue entry.1
    simp only [length_cons, flatMap_cons, length_append, encodeCountedValue,
      i64Bytes, length_leBytes]
    omega

theorem parses_decodeCountedValues {values : CountedValues} (h : values.Storable) :
    Parses (decodeCountedValues false) (encodeCountedValues values) values := by
  refine (parses_leNat truncated (w := 4) h.1).bind fun rest => ?_
  have htimes := parses_times (r := decodeCountedValue false)
    fun entry hentry => parses_decodeCountedValue (h.2 entry hentry)
  -- the guard on the number of entries looks at the whole rest of the input
  have hguard :
      ¬ values.toList.length > (values.toList.flatMap encodeCountedValue ++ rest).length / 10 := by
    have := ten_mul_length_le values.toList
    rw [length_append]
    omega
  refine (if_neg hguard).trans (htimes.bind_pure ?_ rest)
  rw [foldl_insert_toList]
  exact parses_pure _

variable {accumulator : Accumulator}

theorem encodeAccumulator_of_not_neutral (h : accumulatorIsNeutral accumulator = false) :
    ∃ body, encodeAccumulator accumulator = accumulator.tag :: body ∧
      (∀ call : Call, accumulator.Storable →
        Parses (decodeTagged 6 call accumulator.tag) body accumulator) := by
  unfold encodeAccumulator
  rw [h, if_neg Bool.false_ne_true]
  cases accumulator with
  | count n =>
    exact ⟨_, rfl, fun call _ => (parses_readI64 n).bind_pure (parses_pure _)⟩
  | distinctCount n values =>
    exact ⟨_, rfl, fun call hs => (parses_readI64 n).bind
      ((parses_decodeCountedValues hs).bind_pure (parses_pure _))⟩
  | sum value n | average value n =>
    exact ⟨_, rfl, fun call hs => (parses_decodeOptionalValue _ hs).bind
      ((parses_readI64 n).bind_pure (parses_pure _))⟩
  | distinctSum value n values | distinctAverage value n values =>
    exact ⟨_, rfl, fun call hs => (parses_decodeOptionalValue _ hs.1).bind ((parses_readI64 n).bind
        ((parses_decodeCountedValues hs.2).bind_pure (parses_pure _)))⟩
  | appendExtremum value =>
    cases value with
    | none => cases h
    | some v =>
      exact ⟨_, rfl, fun call hs => (parses_readU8 1).bind
        ((parses_decodeValue (hs v rfl)).bind_pure (parses_pure _))⟩
  | extremum values =>
    exact ⟨_, rfl, fun call hs => (parses_decodeCountedValues hs).bind_pure (parses_pure _)⟩

/-- What an accumulator must satisfy to survive a round trip: the shape and the types of its call,
and values the format has room for. -/
structure Accumulator.Encodes (call : Call) (accumulator : Accumulator) : Prop where
  tag : accumulator.tag = expectedTag call
  valid : validateAccumulatorValues call accumulator = .ok ()
  storable : accumulator.Storable

/-- A stored accumulator is read back normalised. -/
theorem parses_decodeAccumulator {call : Call}
    (hnew : validateAccumulatorValues call (.new call) = .ok ())
    (h : accumulator.Encodes call) :
    Parses (decodeAccumulator 6 call) (encodeAccumulator accumulator)
        (accumulator.normalize call) := by
  rcases hneutral : accumulatorIsNeutral accumulator with _ | _
  · obtain ⟨body, hbody, hparse⟩ := encodeAccumulator_of_not_neutral hneutral
    rw [hbody, Accumulator.normalize, hneutral, if_neg Bool.false_ne_true]
    refine (parses_readU8 accumulator.tag).bind ((hparse call h.storable).bind_pure ?_)
    rw [h.tag, if_neg (by simp), h.valid]
    exact parses_pure _
  · unfold encodeAccumulator
    rw [Accumulator.normalize, hneutral, if_pos rfl, if_pos rfl]
    refine (parses_readU8 0).bind_pure ?_
    show Parses (do
      let accumulator ← (return Accumulator.new call)
      _) [] _
    rw [pure_bind, if_neg (by simp), hnew]
    exact parses_pure _

/-- What a round trip through the format makes of a state. -/
def AccumulatorState.normalize (calls : List Call) (state : AccumulatorState) : AccumulatorState :=
  ⟨state.rowCount, List.zipWith Accumulator.normalize calls state.accumulators⟩

variable {calls : List Call}

theorem parses_decodeAccumulators {accumulators : List Accumulator}
    (hnew : ∀ call ∈ calls, validateAccumulatorValues call (.new call) = .ok ())
    (h : List.Forall₂ (fun call accumulator => accumulator.Encodes call) calls accumulators) :
    Parses (decodeAccumulators 6 calls) (accumulators.flatMap encodeAccumulator)
      (zipWith Accumulator.normalize calls accumulators) := by
  induction h with
  | nil => exact parses_pure []
  | cons hcall _ ih =>
    obtain ⟨hfirst, hrest⟩ := forall_mem_cons.mp hnew
    exact (parses_decodeAccumulator hfirst hcall).bind ((ih hrest).bind_pure (parses_pure _))

/-- **Round trip.**  Reading back a state gives the normalized state. -/
theorem decodeState_encodeState {state : AccumulatorState}
    (hnew : ∀ call ∈ calls, validateAccumulatorValues call (.new call) = .ok ())
    (hlength : calls.length < 2 ^ 32)
    (h : List.Forall₂ (fun call accumulator => accumulator.Encodes call) calls state.accumulators) :
    decodeState (encodeState state) calls = .ok (state.normalize calls) := by
  have hcount : state.accumulators.length = calls.length := h.length_eq.symm
  have hparse : Parses (readState calls) (encodeState state) (state.normalize calls) := by
    refine (parses_exactly truncated (n := 4) rfl).bind ?_
    rw [if_neg (by simp)]
    refine (parses_readU8 stateVersion).bind ?_
    rw [if_neg (by decide)]
    refine (parses_readI64 state.rowCount).bind ?_
    rw [hcount]
    refine (parses_leNat truncated (w := 4) hlength).bind ?_
    rw [if_neg (by simp)]
    exact (parses_decodeAccumulators hnew h).bind_pure (parses_pure _)
  rw [decodeState, hparse.run]

end StreamFusion.Aggregate
