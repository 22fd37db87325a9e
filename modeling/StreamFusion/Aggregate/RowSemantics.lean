import StreamFusion.Aggregate.Membership

/-!
# The meaning of a row

The operator applies a row to the accumulators of its group in one of two ways: through the kernels
of the engine, or by its own arithmetic.  This file describes the second way, `next`, for every
call. It needs what the planner promises about calls (`Admitted`) and what a batch promises about
its cells (`InputRow.Typed`): then nothing fails, and the values of an accumulator keep their types
(`Accumulator.Typed`).
-/

namespace StreamFusion.Aggregate

open Wire State Accumulator Option

/-! ## What the plan check establishes -/

/-- The types that SUM takes. -/
def DataType.summable : DataType → Bool
  | .int8 | .int16 | .int32 | .int64 | .float32 | .float64 | .decimal128 _ _ => true
  | _ => false

/-- Is it a type that aggregates can read? -/
def DataType.readable : DataType → Bool
  | .other _ => false
  | _ => true

/-- The facts a call has passed the plan check with, by function. -/
def Call.Lowered (call : Call) : Prop :=
  match call.function with
  | .countStar => call.inputIndex = none ∧ call.distinct = false ∧ call.outputType = .int64
  | .count => call.inputIndex.isSome ∧ call.outputType = .int64
  | .sum | .sum0 => call.inputIndex.isSome ∧ call.outputType.summable = true ∧
    ∃ type, call.inputType = some type ∧ type.summable = true
  | .avg => call.inputIndex.isSome ∧ ∃ type accumulatorType, call.inputType = some type ∧
    averageTypes type accumulatorType call.outputType = true
  | .min | .max => call.inputIndex.isSome ∧ call.outputType.readable = true ∧
    call.inputType = some call.outputType

variable {type : DataType}

variable {input accumulator output : DataType}

/-! ## Cells -/

/-- The cell of a column; a missing column is null. -/
def InputRow.cell (row : InputRow) (index : Nat) : Option AggregateValue := row.cells[index]?.join

/-- The argument of a call in a row.  A plain COUNT only sees that there is one. -/
def argument (call : Call) (row : InputRow) : Option AggregateValue :=
  call.inputIndex.bind fun index =>
    (row.cell index).map fun value =>
      if call.function = .count ∧ call.distinct = false then .boolean true else value.canonical

/-- Does the filter of a call let a row pass? -/
def active (call : Call) (row : InputRow) : Bool :=
  call.filterIndex.all fun index => row.cell index = some (.boolean true)

/-- The types of Arrow; a decimal has at most 38 digits. -/
def DataType.Valid : DataType → Prop
  | .decimal128 precision _ => precision ≤ 38
  | _ => True

/-- The cells of a row are those of the columns. -/
def InputRow.Typed (schema : Schema) (row : InputRow) : Prop :=
  List.Forall₂ (fun (type : DataType) (cell : Option AggregateValue) =>
    ∀ value, cell = some value → type.readable = true → HasType value type) schema row.cells

/-- What is known about a call of a running operator.  It has passed the plan check; the rest is
promised by the planner: the columns of the call exist and have its types, a DISTINCT argument can
be read, and every argument of a SUM is a value of the result type. -/
structure Admitted (schema : Schema) (call : Call) : Prop where
  lowered : call.Lowered
  input : ∀ index, call.inputIndex = some index → ∃ type, schema[index]? = some type ∧
    call.inputType = some type
  filter : ∀ index, call.filterIndex = some index → schema[index]? = some .boolean
  valid : (∀ type, call.inputType = some type → type.Valid) ∧ call.outputType.Valid
  distinct : call.distinct = true → ∀ type, call.inputType = some type → type.readable = true
  sum : call.function = .sum ∨ call.function = .sum0 → ∀ type value, call.inputType = some type →
    HasType value type → HasType value call.outputType

/-- The arithmetic of the call is exact: no floating-point sums and averages, and no append-only
floating-point extrema. -/
def Call.Exact (call : Call) : Prop :=
  ∀ type, call.inputType = some type → type.isFloat = true →
    call.function = .count ∨ (call.function = .min ∨ call.function = .max) ∧ call.retractable = true

variable {schema : Schema} {row : InputRow} {index : Nat}

/-- A typed row has its columns. -/
theorem InputRow.Typed.column (h : row.Typed schema) (hindex : schema[index]? = some type) :
    row.column schema index = .ok (type, row.cell index) ∧
      ∀ value, row.cell index = some value → type.readable = true → HasType value type := by
  obtain ⟨hlt, hget⟩ := List.getElem?_eq_some_iff.mp hindex
  have hlt' : index < row.cells.length := h.length_eq ▸ hlt
  have hcell : row.cells[index]? = some row.cells[index] := List.getElem?_eq_getElem hlt'
  refine ⟨by simp [InputRow.column, hindex, hcell, InputRow.cell], fun value hvalue => ?_⟩
  have hrel := (List.forall₂_iff_get.mp h).2 index hlt hlt'
  simp only [List.get_eq_getElem, hget] at hrel
  refine hrel value ?_
  simpa [InputRow.cell, hcell] using hvalue

variable {value : AggregateValue}

theorem HasType.canonical (h : HasType value type) : HasType value.canonical type := by
  cases value <;> exact h

variable {call : Call}

section Read

/-- The filter of a call selects its active rows. -/
theorem aggregateFilter_eq (hcall : Admitted schema call) (hrow : row.Typed schema) :
    aggregateFilter call schema row = .ok (active call row) := by
  unfold aggregateFilter active
  rcases hfilter : call.filterIndex with _ | index
  · rfl
  · obtain ⟨hcolumn, htype⟩ := hrow.column (hcall.filter index hfilter)
    dsimp only
    rw [hcolumn]
    rcases hcell : row.cell index with _ | value
    · simp [hcell]
    · have hbool := htype value hcell rfl
      cases value with
      | boolean b => simp [hcell]
      | int v =>
        obtain ⟨w, hw, -⟩ := hbool
        cases hw
      | float32 bits => cases hbool
      | float64 bits => cases hbool
      | bytes b => cases hbool.1

/-- A readable argument is read as it is. -/
theorem aggregateValue_eq (hrow : row.Typed schema)
    (hindex : schema[index]? = some type) (hread : type.readable = true) :
    aggregateValue schema row index = .ok ((row.cell index).map AggregateValue.canonical) := by
  obtain ⟨hcolumn, -⟩ := hrow.column hindex
  rw [aggregateValue, hcolumn]
  rcases row.cell index with _ | value
  · rfl
  · cases type <;> first | rfl | cases hread

/-- Every call but COUNT(*) has an argument column. -/
theorem Admitted.column (hcall : Admitted schema call) (hstar : call.function ≠ .countStar) :
    ∃ index type, call.inputIndex = some index ∧ schema[index]? = some type ∧
        call.inputType = some type := by
  have hlow := hcall.lowered
  have hsome : call.inputIndex.isSome = true := by
    unfold Call.Lowered at hlow
    cases hfunction : call.function <;> rw [hfunction] at hlow
    · exact absurd hfunction hstar
    all_goals exact hlow.1
  obtain ⟨index, hindex⟩ := isSome_iff_exists.mp hsome
  obtain ⟨type, hschema, htype⟩ := hcall.input index hindex
  exact ⟨index, type, hindex, hschema, htype⟩

theorem DataType.readable_of_summable (h : type.summable = true) : type.readable = true := by
  cases type <;> first | rfl | cases h

theorem readable_of_averageTypes
    (h : averageTypes input accumulator output = true) : input.readable = true := by
  cases input <;> first | rfl | cases h

section

variable (hcall : Admitted schema call)
include hcall

/-- Only a plain COUNT has arguments that cannot be read. -/
theorem Admitted.readable (hstar : call.function ≠ .countStar)
    (hcount : ¬ (call.function = .count ∧ call.distinct = false))
    (htype : call.inputType = some type) : type.readable = true := by
  by_cases hdistinct : call.distinct = true
  · exact hcall.distinct hdistinct type htype
  · have hlow := hcall.lowered
    unfold Call.Lowered at hlow
    cases hfunction : call.function <;> rw [hfunction] at hlow
    · exact absurd hfunction hstar
    · exact absurd ⟨hfunction, by simpa using hdistinct⟩ hcount
    case sum | sum0 =>
      obtain ⟨-, -, type', htype', hsum⟩ := hlow
      cases htype.symm.trans htype'
      exact DataType.readable_of_summable hsum
    case avg =>
      obtain ⟨-, type', _, htype', havg⟩ := hlow
      cases htype.symm.trans htype'
      exact readable_of_averageTypes havg
    case min | max =>
      cases htype.symm.trans hlow.2.2
      exact hlow.2.1

/-- The argument of a call is read off the row. -/
theorem rowAggregateValue_eq (hrow : row.Typed schema) :
    rowAggregateValue call schema row = .ok (argument call row) := by
  by_cases hstar : call.function = .countStar
  · have hlow := hcall.lowered
    rw [Call.Lowered, hstar] at hlow
    simp [rowAggregateValue, argument, hlow.1]
  · obtain ⟨index, type, hindex, hschema, htype⟩ := hcall.column hstar
    rw [rowAggregateValue, argument, hindex]
    dsimp only [bind_some]
    by_cases hcount : call.function = .count ∧ call.distinct = false
    · rw [if_pos hcount, (hrow.column hschema).1]
      simp only [hcount, and_self, if_true]
      rcases row.cell index with _ | value <;> rfl
    · rw [if_neg hcount, aggregateValue_eq hrow hschema (hcall.readable hstar hcount htype)]
      simp only [hcount, if_false]

theorem argument_typed (hrow : row.Typed schema)
    (hcount : ¬ (call.function = .count ∧ call.distinct = false))
    (h : argument call row = some value) (htype : call.inputType = some type) :
    HasType value type := by
  by_cases hstar : call.function = .countStar
  · have hlow := hcall.lowered
    rw [Call.Lowered, hstar] at hlow
    simp [argument, hlow.1] at h
  · obtain ⟨index, type', hindex, hschema, htype'⟩ := hcall.column hstar
    cases htype.symm.trans htype'
    simp only [argument, hindex, bind_some, hcount, if_false, map_eq_some_iff] at h
    obtain ⟨value', hcell, rfl⟩ := h
    exact ((hrow.column hschema).2 value' hcell (hcall.readable hstar hcount htype)).canonical

end

end Read

/-! ## Exact arithmetic -/

/-- The types sums are computed in: integers and decimals. -/
def DataType.Arithmetic (type : DataType) : Prop :=
  type.summable = true ∧ type.isFloat = false ∧ type.Valid

theorem DataType.Arithmetic.cases (h : type.Arithmetic) :
    (∃ w, type.width = some w ∧ type.isInteger = true) ∨
      ∃ precision scale, type = .decimal128 precision scale ∧ precision ≤ 38 := by
  obtain ⟨hsum, hfloat, hvalid⟩ := h
  cases type with
  | int8 => exact Or.inl ⟨8, rfl, rfl⟩
  | int16 => exact Or.inl ⟨16, rfl, rfl⟩
  | int32 => exact Or.inl ⟨32, rfl, rfl⟩
  | int64 => exact Or.inl ⟨64, rfl, rfl⟩
  | decimal128 precision scale => exact Or.inr ⟨precision, scale, rfl, hvalid⟩
  | float32 => cases hfloat
  | float64 => cases hfloat
  | _ => cases hsum

variable {w : Nat}

theorem hasType_int_of_width (h : type.width = some w) {v : Int} : HasType (.int v) type ↔
    InWidth w v := by
  cases type <;> cases h <;> simp [HasType, DataType.width]

/-- The values of such a type are integers. -/
theorem HasType.exists_int (h : HasType value type) (htype : type.Arithmetic) : ∃ v,
    value = .int v := by
  obtain ⟨hsum, hfloat, -⟩ := htype
  cases value with
  | int v => exact ⟨v, rfl⟩
  | boolean b =>
    cases (show type = .boolean from h)
    cases hsum
  | float32 bits =>
    cases (show type = .float32 from h)
    cases hfloat
  | float64 bits =>
    cases (show type = .float64 from h)
    cases hfloat
  | bytes b =>
    cases h.1
    cases hsum

variable {name : String} {operation : Int → Int → Int} {operation32 : Float32 → Float32 → Float32}
    {operation64 : Float → Float → Float}

theorem aggregateArithmetic_int (hw : type.width = some w)
    (hint : type.isInteger = true) (a b : Int) :
    aggregateArithmetic name operation operation32 operation64 (.int a) (.int b) type =
      .ok (some (wrapping operation w a b)) := by
  cases type <;> first | (cases hw; rfl) | exact Bool.noConfusion hint

theorem zeroValue_of_arithmetic (h : type.Arithmetic) : zeroValue type = .int 0 := by
  obtain ⟨-, hfloat, -⟩ := h
  cases type <;> first | rfl | cases hfloat

theorem hasType_zeroValue (h : type.Arithmetic) : HasType (zeroValue type) type := by
  rw [zeroValue_of_arithmetic h]
  rcases h.cases with ⟨w, hw, -⟩ | ⟨precision, scale, rfl, hp⟩
  · refine (hasType_int_of_width hw).mpr ?_
    have : (0 : Int) < 2 ^ (w - 1) := by positivity
    exact ⟨by omega, this⟩
  · have : (0 : Int) < 10 ^ precision := by positivity
    exact ⟨hp, by omega, by omega⟩

/-- Sums stay in their type. -/
theorem aggregateArithmetic_typed (h : type.Arithmetic) (a b : Int) :
    ∃ result, aggregateArithmetic name operation operation32 operation64 (.int a) (.int b) type =
      .ok result ∧ (∀ value, result = some value → HasType value type) ∧
      (type.isInteger = true → result.isSome = true) := by
  rcases h.cases with ⟨w, hw, hint⟩ | ⟨precision, scale, rfl, hp⟩
  · refine ⟨_, aggregateArithmetic_int hw hint a b, ?_, fun _ => rfl⟩
    intro value hvalue
    cases hvalue
    exact (hasType_int_of_width hw).mpr (inWidth_narrow (DataType.width_bounds hw).1 _)
  · refine ⟨decimalOperation operation a b precision, rfl, ?_, fun hint => Bool.noConfusion hint⟩
    intro value hvalue
    simp only [decimalOperation, map_eq_some_iff, filter_eq_some_iff,
      decide_eq_true_eq] at hvalue
    obtain ⟨v, ⟨-, hrange⟩, rfl⟩ := hvalue
    exact ⟨hp, hrange⟩

/-- The types sums are computed in, floating point included. -/
def DataType.Summing (type : DataType) : Prop := type.summable = true ∧ type.Valid

theorem DataType.Summing.cases (h : type.Summing) : type.Arithmetic ∨ type = .float32 ∨
    type = .float64 := by
  by_cases hfloat : type.isFloat = true
  · cases type <;> simp [DataType.isFloat] at hfloat ⊢
  · exact Or.inl ⟨h.1, by simpa using hfloat, h.2⟩

theorem HasType.exists_float32 (h : HasType value .float32) : ∃ bits, value = .float32 bits := by
  cases value with
  | float32 bits => exact ⟨bits, rfl⟩
  | int v =>
    obtain ⟨w, hw, -⟩ := h
    cases hw
  | bytes b => cases h.1
  | _ => cases h

theorem HasType.exists_float64 (h : HasType value .float64) : ∃ bits, value = .float64 bits := by
  cases value with
  | float64 bits => exact ⟨bits, rfl⟩
  | int v =>
    obtain ⟨w, hw, -⟩ := h
    cases hw
  | bytes b => cases h.1
  | _ => cases h

/-- Arithmetic on two values of a type does not fail and stays in the type. -/
theorem aggregateArithmetic_hasType (h : type.Summing) {a b : AggregateValue} (ha : HasType a type)
    (hb : HasType b type) :
    ∃ result, aggregateArithmetic name operation operation32 operation64 a b type = .ok result ∧
      (∀ value, result = some value → HasType value type) ∧
      (type.isInteger = true → result.isSome = true) := by
  rcases h.cases with harith | rfl | rfl
  · obtain ⟨x, rfl⟩ := ha.exists_int harith
    obtain ⟨y, rfl⟩ := hb.exists_int harith
    exact aggregateArithmetic_typed harith x y
  · obtain ⟨x, rfl⟩ := ha.exists_float32
    obtain ⟨y, rfl⟩ := hb.exists_float32
    refine ⟨_, rfl, fun value hvalue => ?_, fun _ => rfl⟩
    cases hvalue
    rfl
  · obtain ⟨x, rfl⟩ := ha.exists_float64
    obtain ⟨y, rfl⟩ := hb.exists_float64
    refine ⟨_, rfl, fun value hvalue => ?_, fun _ => rfl⟩
    cases hvalue
    rfl

theorem hasType_zeroValue_of_summing (h : type.Summing) : HasType (zeroValue type) type := by
  rcases h.cases with harith | rfl | rfl
  · exact hasType_zeroValue harith
  · rfl
  · rfl

variable {sum : Option AggregateValue}

theorem addToSum_typed (htype : type.Summing) (hsum : ∀ v, sum = some v → HasType v type)
    (hvalue : HasType value type) (accumulate : Bool) :
    ∃ result, addToSum sum value type accumulate = .ok result ∧
      (∀ v, result = some v → HasType v type) ∧
      (type.isInteger = true → result.isSome = true) := by
  cases sum with
  | none =>
    cases accumulate with
    | true => exact ⟨_, rfl, fun v hv => by cases hv; exact hvalue, fun _ => rfl⟩
    | false => exact aggregateArithmetic_hasType htype (hasType_zeroValue_of_summing htype) hvalue
  | some current =>
    cases accumulate with
    | true | false => exact aggregateArithmetic_hasType htype (hsum current rfl) hvalue

/-! ## Typed accumulators -/

/-- All values have the type. -/
def CountedValues.Typed (values : CountedValues) (type : DataType) : Prop :=
  ∀ value, value ∈ values → HasType value type

theorem CountedValues.Typed.empty (type : DataType) : CountedValues.Typed ∅ type := by
  intro value hvalue
  simp at hvalue

theorem CountedValues.Typed.add {values : CountedValues} (h : values.Typed type)
    (hvalue : HasType value type) (n : Int64) :
    (values.add value n).Typed type := by
  intro value' hmem
  unfold CountedValues.add at hmem
  dsimp only at hmem
  split at hmem
  · exact h value' (Std.ExtTreeMap.mem_of_mem_erase hmem)
  · rcases Std.ExtTreeMap.mem_insert.mp hmem with heq | hmem
    · rwa [← Std.LawfulEqOrd.eq_of_compare heq]
    · exact h value' hmem

/-- The values of an accumulator have the types of its call. -/
def Accumulator.ValuesTyped (call : Call) : Accumulator → Prop
  | .count _ => True
  | .distinctCount _ values => ∀ type, call.inputType = some type → values.Typed type
  | .sum value n => (∀ v, value = some v → HasType v call.outputType) ∧
    (call.outputType.isInteger = true → value = none → n = 0)
  | .distinctSum value _ values => (∀ v, value = some v → HasType v call.outputType) ∧
    ∀ type, call.inputType = some type → values.Typed type
  | .average value _ => (∀ v, value = some v → HasType v call.averageAccumulatorType) ∧
    (call.averageAccumulatorType = .int64 → value.isSome = true)
  | .distinctAverage value _ values =>
    (∀ v, value = some v → HasType v call.averageAccumulatorType) ∧
    ∀ type, call.inputType = some type → values.Typed type
  | .appendExtremum value => ∀ v, value = some v → HasType v call.outputType
  | .extremum values => values.Typed call.outputType

/-- The accumulator belongs to the call, and its values have the types of the call. -/
structure Accumulator.Typed (call : Call) (accumulator : Accumulator) : Prop where
  tag : accumulator.tag = expectedTag call
  values : accumulator.ValuesTyped call

theorem tag_new (call : Call) : (Accumulator.new call).tag = expectedTag call := by
  unfold Accumulator.new expectedTag
  cases call.function <;> dsimp only <;> split <;> rfl

/-- Which calls have which accumulators. -/
theorem expectedTag_eq :
    (expectedTag call = 1 → (call.function = .count ∨ call.function = .countStar) ∧
      call.distinct = false) ∧
    (expectedTag call = 2 → (call.function = .sum ∨ call.function = .sum0) ∧
      call.distinct = false) ∧
    (expectedTag call = 3 → (call.function = .min ∨ call.function = .max) ∧
      call.retractable = true) ∧
    (expectedTag call = 4 → (call.function = .min ∨ call.function = .max) ∧
      call.retractable = false) ∧
    (expectedTag call = 5 → (call.function = .count ∨ call.function = .countStar) ∧
      call.distinct = true) ∧
    (expectedTag call = 6 → (call.function = .sum ∨ call.function = .sum0) ∧ call.distinct = true) ∧
    (expectedTag call = 7 → call.function = .avg ∧ call.distinct = false) ∧
    (expectedTag call = 8 → call.function = .avg ∧ call.distinct = true) := by
  unfold expectedTag
  cases call.function <;> cases call.distinct <;> cases call.retractable <;> simp

section Types

theorem Admitted.extremum_type (hcall : Admitted schema call)
    (h : call.function = .min ∨ call.function = .max) :
    call.inputType = some call.outputType := by
  have hlow := hcall.lowered
  unfold Call.Lowered at hlow
  rcases h with h | h <;> rw [h] at hlow <;> exact hlow.2.2

theorem Call.Exact.not_float (hexact : call.Exact)
    (htype : call.inputType = some type) (hcount : call.function ≠ .count)
    (hextremum : ¬ ((call.function = .min ∨ call.function = .max) ∧ call.retractable = true)) :
    type.isFloat = false := by
  by_contra hfloat
  rcases hexact type htype (by simpa using hfloat) with h | h
  · exact hcount h
  · exact hextremum h

section

variable (hcall : Admitted schema call)
include hcall

/-- The type of the running sum of an exact AVG, and what its arguments contribute. -/
theorem Admitted.average_arithmetic (hexact : call.Exact) (h : call.function = .avg) :
    call.averageAccumulatorType.Arithmetic ∧
      ∀ value type, call.inputType = some type → HasType value type →
        ∃ v, value = .int v ∧ averageContribution value call = .ok (.int v) ∧
          HasType (.int v) call.averageAccumulatorType := by
  have hlow := hcall.lowered
  rw [Call.Lowered, h] at hlow
  obtain ⟨-, type, accumulatorType, htype, haverage⟩ := hlow
  have hfloat : type.isFloat = false := hexact.not_float htype (by simp [h]) (by simp [h])
  have hvalid := hcall.valid.1 type htype
  cases type with
  | int8 | int16 | int32 | int64 =>
    have hacc : call.averageAccumulatorType = .int64 := by
      rw [Call.averageAccumulatorType, htype]
    refine ⟨by rw [hacc]; exact ⟨rfl, rfl, trivial⟩, fun value type htype' hvalue => ?_⟩
    cases htype.symm.trans htype'
    obtain ⟨v, rfl⟩ := hvalue.exists_int ⟨rfl, rfl, trivial⟩
    refine ⟨v, rfl, by simp [averageContribution, htype, hacc], ?_⟩
    rw [hacc]
    exact (hasType_int_of_width rfl).mpr (((hasType_int_of_width rfl).mp hvalue).mono (by norm_num))
  | decimal128 precision scale =>
    have hacc : call.averageAccumulatorType = .decimal128 38 scale := by
      rw [Call.averageAccumulatorType, htype]
    refine ⟨by rw [hacc]; exact ⟨rfl, rfl, le_refl 38⟩, fun value type htype' hvalue => ?_⟩
    cases htype.symm.trans htype'
    obtain ⟨v, rfl⟩ := hvalue.exists_int ⟨rfl, rfl, hvalid⟩
    refine ⟨v, rfl, by simp [averageContribution, htype, hacc], ?_⟩
    rw [hacc]
    obtain ⟨-, hlow, hhigh⟩ := hvalue
    have hpow : (10 ^ precision : Int) ≤ 10 ^ 38 :=
      pow_le_pow_right₀ (by norm_num) (show precision ≤ 38 from hvalid)
    exact ⟨le_refl 38, by omega, by omega⟩
  | float32 => cases hfloat
  | float64 => cases hfloat
  | _ => cases haverage

/-- The running sum of an average and its contributions, whatever the type. -/
theorem Admitted.average_summing (h : call.function = .avg) :
    call.averageAccumulatorType.Summing ∧ ∀ value type, call.inputType = some type →
      HasType value type →
        ∃ contribution, averageContribution value call = .ok contribution ∧
          HasType contribution call.averageAccumulatorType := by
  have hlow := hcall.lowered
  rw [Call.Lowered, h] at hlow
  obtain ⟨-, type, accumulatorType, htype, haverage⟩ := hlow
  by_cases hfloat : type.isFloat = true
  · cases type with
    | float32 =>
      have hacc : call.averageAccumulatorType = .float64 := by
        rw [Call.averageAccumulatorType, htype]
      refine ⟨by rw [hacc]; exact ⟨rfl, trivial⟩, fun value type htype' hvalue => ?_⟩
      cases htype.symm.trans htype'
      obtain ⟨bits, rfl⟩ := hvalue.exists_float32
      exact ⟨float64Value (Float32.ofBits bits).toFloat,
        by simp [averageContribution, htype, hacc], by rw [hacc]; rfl⟩
    | float64 =>
      have hacc : call.averageAccumulatorType = .float64 := by
        rw [Call.averageAccumulatorType, htype]
      refine ⟨by rw [hacc]; exact ⟨rfl, trivial⟩, fun value type htype' hvalue => ?_⟩
      cases htype.symm.trans htype'
      obtain ⟨bits, rfl⟩ := hvalue.exists_float64
      exact ⟨.float64 bits, by simp [averageContribution, htype, hacc], by rw [hacc]; rfl⟩
    | _ => cases hfloat
  · have hexact : call.Exact := by
      intro type' htype' hfloat'
      cases htype.symm.trans htype'
      exact absurd hfloat' hfloat
    obtain ⟨harith, hcontribution⟩ := hcall.average_arithmetic hexact h
    refine ⟨⟨harith.1, harith.2.2⟩, fun value type htype' hvalue => ?_⟩
    obtain ⟨v, rfl, hv, htyped⟩ := hcontribution value type htype' hvalue
    exact ⟨_, hv, htyped⟩

theorem Admitted.sum_summing (h : call.function = .sum ∨ call.function = .sum0) :
    call.outputType.Summing := by
  have hlow := hcall.lowered
  unfold Call.Lowered at hlow
  rcases h with h | h <;> rw [h] at hlow <;> exact ⟨hlow.2.1, hcall.valid.2⟩

theorem addToAverage_typed (h : call.function = .avg)
    (hsum : ∀ v, sum = some v → HasType v call.averageAccumulatorType)
    (htype : call.inputType = some type) (hvalue : HasType value type) (accumulate : Bool) :
    ∃ result, addToAverage sum value call accumulate = .ok result ∧
      (∀ v, result = some v → HasType v call.averageAccumulatorType) ∧
      (call.averageAccumulatorType = .int64 → sum.isSome = true → result.isSome = true) := by
  obtain ⟨hsumming, hcontribution⟩ := hcall.average_summing h
  obtain ⟨x, hx, hxtype⟩ := hcontribution value type htype hvalue
  rw [addToAverage, hx]
  cases sum with
  | none => exact ⟨none, rfl, by simp, by simp⟩
  | some current =>
    have hcurrent := hsum current rfl
    cases accumulate with
    | true | false =>
      obtain ⟨result, hresult, htyped, hint⟩ :=
        aggregateArithmetic_hasType hsumming hcurrent hxtype
      exact ⟨result, hresult, htyped, fun h64 _ => hint (by rw [h64]; rfl)⟩

end

theorem flinkAppendExtremum_mem (current candidate : AggregateValue) (minimum : Bool) :
    flinkAppendExtremum current candidate minimum = candidate ∨
      flinkAppendExtremum current candidate minimum = current := by
  exact ite_eq_or_eq _ _ _

variable {accumulator : Accumulator}

/-- An argument of the right type is applied without an error, and the result is typed. -/
theorem applyValue_typed (hcall : Admitted schema call)
    (hacc : accumulator.Typed call)
    (hvalue : ¬ (call.function = .count ∧ call.distinct = false) → ∀ type,
      call.inputType = some type → HasType value type) (hstar : call.function ≠ .countStar)
    (accumulate : Bool) :
    ∃ next, accumulator.applyValue call value accumulate = .ok next ∧ next.Typed call := by
  obtain ⟨index, type, hindex, -, htype⟩ := hcall.column hstar
  obtain ⟨htag, hvalues⟩ := hacc
  obtain ⟨-, htag2, htag3, htag4, htag5, htag6, htag7, htag8⟩ := @expectedTag_eq call
  have hadd {values : CountedValues} (hvalues : ∀ type, call.inputType = some type →
    values.Typed type)
      (hv : HasType value type) : ∀ type, call.inputType = some type →
        (values.add value (delta accumulate)).Typed type := by
    intro type' htype'
    cases htype.symm.trans htype'
    exact (hvalues type htype).add hv _
  cases accumulator with
  | count n => exact ⟨_, rfl, htag, trivial⟩
  | distinctCount n values =>
    have hkind := htag5 htag.symm
    have hv := hvalue (by simp [hkind.2]) type htype
    exact ⟨_, rfl, htag, hadd hvalues hv⟩
  | sum total n =>
    have hkind := htag2 htag.symm
    have hcount : ¬ (call.function = .count ∧ call.distinct = false) := by
      rcases hkind.1 with h | h <;> simp [h]
    have hv := hcall.sum hkind.1 type value htype (hvalue hcount type htype)
    obtain ⟨result, hresult, htyped, hsome⟩ :=
      addToSum_typed (hcall.sum_summing hkind.1) hvalues.1 hv accumulate
    refine ⟨.sum result (n + delta accumulate), by rw [applyValue, hresult]; rfl,
      htag, htyped, fun hint hnone => ?_⟩
    have := hsome hint
    simp [hnone] at this
  | distinctSum total n values =>
    have hkind := htag6 htag.symm
    have hv := hvalue (by simp [hkind.2]) type htype
    have hmembers := hadd hvalues.2 hv
    obtain ⟨result, hresult, htyped, -⟩ := addToSum_typed (hcall.sum_summing hkind.1)
      hvalues.1 (hcall.sum hkind.1 type value htype hv) accumulate
    by_cases hchanges : values.changes value accumulate = true
    · exact ⟨.distinctSum result (n + delta accumulate) (values.add value (delta accumulate)),
        by rw [applyValue, if_pos hchanges, hresult]; rfl, htag, htyped, hmembers⟩
    · exact ⟨.distinctSum total n (values.add value (delta accumulate)),
        by rw [applyValue, if_neg hchanges], htag, hvalues.1, hmembers⟩
  | average total n =>
    have hkind := htag7 htag.symm
    have hv := hvalue (by simp [hkind.1]) type htype
    obtain ⟨result, hresult, htyped, hsome⟩ :=
      addToAverage_typed hcall hkind.1 hvalues.1 htype hv accumulate
    exact ⟨.average result (n + delta accumulate), by rw [applyValue, hresult]; rfl,
      htag, htyped, fun h64 => hsome h64 (hvalues.2 h64)⟩
  | distinctAverage total n values =>
    have hkind := htag8 htag.symm
    have hv := hvalue (by simp [hkind.1]) type htype
    have hmembers := hadd hvalues.2 hv
    obtain ⟨result, hresult, htyped, -⟩ :=
      addToAverage_typed hcall hkind.1 hvalues.1 htype hv accumulate
    by_cases hchanges : values.changes value accumulate = true
    · exact ⟨.distinctAverage result (n + delta accumulate) (values.add value (delta accumulate)),
        by rw [applyValue, if_pos hchanges, hresult]; rfl, htag, htyped, hmembers⟩
    · exact ⟨.distinctAverage total n (values.add value (delta accumulate)),
        by rw [applyValue, if_neg hchanges], htag, hvalues.1, hmembers⟩
  | appendExtremum best =>
    have hkind := htag4 htag.symm
    have hinput := hcall.extremum_type hkind.1
    have hv := hvalue (by rcases hkind.1 with h | h <;> simp [h]) _ hinput
    refine ⟨_, rfl, htag, ?_⟩
    intro v hbest
    cases best with
    | none =>
      cases hbest
      exact hv
    | some current =>
      cases hbest
      dsimp only
      rcases flinkAppendExtremum_mem current value (call.function = .min) with h | h
      · rw [h]
        exact hv
      · rw [h]
        exact hvalues current rfl
  | extremum values =>
    have hkind := htag3 htag.symm
    have hv := hvalue (by rcases hkind.1 with h | h <;> simp [h]) _ (hcall.extremum_type hkind.1)
    exact ⟨_, rfl, htag, CountedValues.Typed.add hvalues hv _⟩

/-! ## The next accumulator -/

/-- What a row makes of an accumulator, by the operator's own arithmetic. -/
def Accumulator.next (call : Call) (row : InputRow) (accumulate : Bool)
    (accumulator : Accumulator) : Accumulator :=
  (accumulator.applyRow call (argument call row) (active call row) accumulate).toOption.getD
    accumulator

variable {accumulate : Bool}

theorem next_of_inactive (h : active call row = false) :
    accumulator.next call row accumulate = accumulator := by
  simp [Accumulator.next, applyRow, h, Except.toOption]

/-- A row without an argument only counts for COUNT(*). -/
theorem next_of_none (h : argument call row = none)
    (hcount : ∀ n, accumulator = .count n → call.inputIndex.isSome = true) :
    accumulator.next call row accumulate = accumulator := by
  by_cases hactive : active call row = true
  · cases accumulator with
    | count n =>
      have hindex : call.inputIndex.isNone = false := by
        have := hcount n rfl
        rw [isNone_eq_false_iff]
        exact this
      simp [Accumulator.next, applyRow, h, hactive, hindex, Except.toOption]
    | _ => simp [Accumulator.next, applyRow, h, hactive, Except.toOption]
  · exact next_of_inactive (by simpa using hactive)

theorem next_countStar (hactive : active call row = true)
    (hindex : call.inputIndex = none) (n : Int64) :
    (Accumulator.count n).next call row accumulate = .count (n + delta accumulate) := by
  have h : argument call row = none := by simp [argument, hindex]
  simp [Accumulator.next, applyRow, h, hactive, hindex, Except.toOption]

theorem next_of_value (hactive : active call row = true)
    (h : argument call row = some value) {next : Accumulator}
    (happly : accumulator.applyValue call value accumulate = .ok next) :
    accumulator.next call row accumulate = next := by
  cases accumulator <;>
    simp only [Accumulator.next, applyRow, h, hactive, if_true, happly] <;> rfl

/-- The row is applied without an error, and the accumulator stays typed. -/
theorem applyRow_eq_next (hcall : Admitted schema call)
    (hrow : row.Typed schema) (hacc : accumulator.Typed call) (accumulate : Bool) :
    accumulator.applyRow call (argument call row) (active call row) accumulate =
        .ok (accumulator.next call row accumulate) ∧
      (accumulator.next call row accumulate).Typed call := by
  suffices ∃ next, accumulator.applyRow call (argument call row) (active call row) accumulate =
      .ok next ∧ next.Typed call by
    obtain ⟨next, happly, htyped⟩ := this
    rw [Accumulator.next, happly]
    exact ⟨rfl, htyped⟩
  by_cases hactive : active call row = true
  · unfold Accumulator.applyRow
    rw [if_pos hactive]
    rcases hargument : argument call row with _ | value
    · cases accumulator with
      | count n => exact ⟨_, rfl, hacc.tag, trivial⟩
      | _ => exact ⟨_, rfl, hacc⟩
    · have hstar : call.function ≠ .countStar := by
        intro hstar
        have hlow := hcall.lowered
        rw [Call.Lowered, hstar] at hlow
        simp [argument, hlow.1] at hargument
      obtain ⟨next, happly, htyped⟩ := applyValue_typed hcall hacc
        (fun hcount type htype => argument_typed hcall hrow hcount hargument htype) hstar accumulate
      refine ⟨next, ?_, htyped⟩
      cases accumulator <;> exact happly
  · unfold Accumulator.applyRow
    rw [if_neg hactive]
    exact ⟨accumulator, rfl, hacc⟩

end Types

end StreamFusion.Aggregate
