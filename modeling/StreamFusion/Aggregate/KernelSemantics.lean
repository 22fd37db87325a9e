import StreamFusion.Aggregate.RowSemantics

/-!
# Kernels compute the next accumulator

A kernel of the engine is created from an accumulator and applied to the rows of a batch, and after
every row the accumulator gets what the kernel evaluates to: the accumulator that the operator's own
arithmetic would have computed (`applyCall_eq_next`).

The link is `Mirrors`: a kernel mirrors an accumulator if it evaluates to its value.  A sum is
mirrored only up to the width of its type, because the kernel adds in 64 bits and the accumulator
keeps the value in the result type; a kernel that is created again from the narrow value goes on
with another 64-bit sum and the same results.
-/

namespace StreamFusion.Aggregate

open Wire State Kernel Except AggregateValue DataType List Option

variable {D : DataFusion}

/-- The kernel evaluates to the value of the accumulator. -/
def Mirrors (call : Call) : Option (Kernel D) → Accumulator → Prop
  | none, _ => reusable call = false ∧ supports call = false
  | some (.count state), .count n => reusable call = true ∧ D.count.evaluate state = n
  | some (.count state), .distinctCount n _ => supports call = true ∧ D.count.evaluate state = n
  | some (.sum state), .sum value _ => reusable call = true ∧ ∃ w, call.outputType.width = some w ∧
    value = (D.sum.evaluate state).map fun x => .int (narrow w x.toInt)
  | some (.sum state), .average value _ => reusable call = true ∧
    value = (D.sum.evaluate state).map fun x => .int x.toInt
  | some (.extremum minimum type state), .appendExtremum best => reusable call = true ∧
    minimum = decide (call.function = .min) ∧ call.inputType = some type ∧
    (D.extremum minimum type).evaluate state = best
  | _, _ => False

/-! ## What a call with a kernel is like -/

variable {schema : Schema} {call : Call} {type : DataType}

section Reusable

theorem integer_types_of_reusable (hsum : call.function = .sum ∨ call.function = .sum0 ∨
    call.function = .avg) (h : reusable call = true) :
    (∃ type, call.inputType = some type ∧ type.isInteger = true) ∧
        call.outputType.isInteger = true := by
  unfold reusable at h
  split at h
  · cases h
  · rcases hsum with hf | hf | hf <;> rw [hf] at h <;>
      simpa [Option.any_eq_true] using h

theorem DataType.width_of_isInteger (h : type.isInteger = true) : ∃ w, type.width = some w := by
  cases type <;> first | exact ⟨_, rfl⟩ | cases h

theorem DataType.arithmetic_of_isInteger (h : type.isInteger = true) : type.Arithmetic := by
  cases type <;> first | exact ⟨rfl, rfl, trivial⟩ | cases h

theorem averageAccumulatorType_of_isInteger (htype : call.inputType = some type)
    (h : type.isInteger = true) : call.averageAccumulatorType = .int64 := by
  unfold Call.averageAccumulatorType
  rw [htype]
  cases type <;> first | rfl | cases h

theorem not_float_of_reusable (hfunction : call.function = .min ∨ call.function = .max)
    (h : reusable call = true) (htype : call.inputType = some type) :
    type.isFloat = false := by
  unfold reusable at h
  split at h
  · cases h
  · rcases hfunction with hf | hf <;> rw [hf] at h <;> simp [htype] at h <;> exact h.2

theorem Admitted.readable_extremum (hcall : Admitted schema call)
    (h : call.function = .min ∨ call.function = .max) : call.outputType.readable = true := by
  have hlow := hcall.lowered
  unfold Call.Lowered at hlow
  rcases h with h | h <;> rw [h] at hlow <;> exact hlow.2.1

/-- DISTINCT is only a property of calls with an argument. -/
theorem Admitted.count_of_distinct (hcall : Admitted schema call) (hdistinct : call.distinct = true)
    (h : call.function = .count ∨ call.function = .countStar) : call.function = .count := by
  refine h.resolve_right fun hstar => ?_
  have hlow := hcall.lowered
  rw [Call.Lowered, hstar] at hlow
  exact Bool.noConfusion (hdistinct.symm.trans hlow.2.1)

end Reusable

/-! ## A new kernel -/

variable {value : Option AggregateValue} {v : Int} {w : Nat} {accumulator : Accumulator}

section Create

theorem aggregateArray_some {value : AggregateValue} (h : HasType value type)
    (hread : type.readable = true) : aggregateArray (some value) type = .ok (some value) := by
  cases value with
  | int v =>
    rcases hw : type.width with _ | w
    · cases type with
      | decimal128 precision scale => rfl
      | _ =>
        obtain ⟨w, hw', -⟩ := h
        cases hw.symm.trans hw'
    · have hv := narrow_of_inWidth (width_bounds hw).1 ((hasType_int_of_width hw).mp h)
      cases type <;> cases hw <;> simp [aggregateArray, width, hv]
  | boolean b =>
    cases (show type = .boolean from h)
    rfl
  | float32 bits =>
    cases (show type = .float32 from h)
    rfl
  | float64 bits =>
    cases (show type = .float64 from h)
    rfl
  | bytes b =>
    obtain ⟨rfl, -, hutf8⟩ := h
    simp [aggregateArray, hutf8]

theorem aggregateArray_typed (h : ∀ v, value = some v → HasType v type)
    (hread : type.readable = true) :
    aggregateArray value type = .ok value := by
  cases value with
  | none => cases type <;> first | rfl | cases hread
  | some v => exact aggregateArray_some (h v rfl) hread

theorem int64Array_int (h : InWidth 64 v) : int64Array (some (.int v)) =
    .ok (some (Int64.ofInt v)) := by
  have htype : HasType (.int v) .int64 := (hasType_int_of_width rfl).mpr h
  rw [int64Array, aggregateArray_some htype rfl]
  rfl

theorem toInt_ofInt_of_inWidth (h : InWidth 64 v) : (Int64.ofInt v).toInt = v := by
  rw [Int64.toInt_ofInt]
  exact narrow_of_inWidth (by norm_num) h

theorem inWidth_toInt (x : Int64) : InWidth 64 x.toInt := by
  have hlow := Int64.le_toInt x
  have hhigh := Int64.toInt_lt x
  exact ⟨by simpa using hlow, by simpa using hhigh⟩

theorem evaluate_sum_create (D : DataFusion) (value : Option Int64) :
    D.sum.evaluate (D.sum.mergeBatch D.sum.createAccumulator value) = value := by
  rw [D.sum_merge, D.sum_create]
  cases value with
  | none => rfl
  | some x => simp [addOptional]

theorem evaluate_count_create (D : DataFusion) (n : Int64) :
    D.count.evaluate (D.count.mergeBatch D.count.createAccumulator n) = n := by
  rw [D.count_merge, D.count_create]
  simp

theorem evaluate_extremum_create (D : DataFusion) (minimum : Bool) (hfloat : type.isFloat = false)
    (h : ∀ v, value = some v → HasType v type) :
    (D.extremum minimum type).evaluate ((D.extremum minimum type).mergeBatch
      (D.extremum minimum type).createAccumulator value) = value := by
  rw [D.extremum_merge minimum type _ value h hfloat, D.extremum_create]
  cases value <;> rfl

/-- A sum of an integer type as the kernel holds it. -/
theorem int64Array_of_typed (hint : type.isInteger = true) (hw : type.width = some w)
    (hvalue : ∀ v, value = some v → HasType v type) :
    ∃ start, int64Array value = .ok start ∧ value = start.map fun x => int (narrow w x.toInt) := by
  obtain ⟨hpos, hle⟩ := width_bounds hw
  cases value with
  | none => exact ⟨none, rfl, rfl⟩
  | some v =>
    have hv := hvalue v rfl
    obtain ⟨x, rfl⟩ := hv.exists_int (arithmetic_of_isInteger hint)
    have hx := (hasType_int_of_width hw).mp hv
    refine ⟨_, int64Array_int (hx.mono hle), ?_⟩
    rw [map_some, toInt_ofInt_of_inWidth (hx.mono hle), narrow_of_inWidth hpos hx]

/-- A new kernel mirrors the accumulator it is created from. -/
theorem kernel_new_mirrors (D : DataFusion) (hcall : Admitted schema call)
    (hacc : accumulator.Typed call) :
    ∃ kernel, new D call accumulator = .ok kernel ∧ Mirrors call kernel accumulator := by
  by_cases hnone : reusable call = false ∧ supports call = false
  · exact ⟨none, by simp [new, hnone.1, hnone.2], hnone⟩
  have hkernel : ¬ (!reusable call && !supports call) = true := by
    simpa [not_and_or] using hnone
  have hreusable : supports call = false → reusable call = true := by
    intro hsupports
    by_contra h
    exact hnone ⟨by simpa using h, hsupports⟩
  obtain ⟨htag1, htag2, htag3, htag4, htag5, htag6, htag7, htag8⟩ := @expectedTag_eq call
  have htag := hacc.tag.symm
  unfold new
  rw [if_neg hkernel]
  cases accumulator with
  | count n =>
    obtain ⟨hfunction, hdistinct⟩ := htag1 htag
    refine ⟨some (.count (D.count.mergeBatch D.count.createAccumulator n)), ?_,
      hreusable (by simp [supports, hdistinct]), evaluate_count_create D n⟩
    rcases hfunction with h | h <;> rw [h]
  | distinctCount n values =>
    obtain ⟨hfunction, hdistinct⟩ := htag5 htag
    have hcount := hcall.count_of_distinct hdistinct hfunction
    refine ⟨some (.count (D.count.mergeBatch D.count.createAccumulator n)), ?_,
      by simp [supports, hdistinct, hcount], evaluate_count_create D n⟩
    rw [hcount]
  | sum value n =>
    obtain ⟨hfunction, hdistinct⟩ := htag2 htag
    have hkind := hreusable (by simp [supports, hdistinct])
    obtain ⟨-, hout⟩ := integer_types_of_reusable (or_assoc.mp (.inl hfunction)) hkind
    obtain ⟨w, hw⟩ := width_of_isInteger hout
    obtain ⟨start, hstart, hvalue⟩ := int64Array_of_typed hout hw hacc.values.1
    refine ⟨some (.sum (D.sum.mergeBatch D.sum.createAccumulator start)), ?_, hkind, w, hw, ?_⟩
    · rcases hfunction with h | h <;> rw [h] <;> dsimp only <;> rw [hstart] <;> rfl
    · rw [evaluate_sum_create, hvalue]
  | distinctSum value n values =>
    obtain ⟨hfunction, hdistinct⟩ := htag6 htag
    refine absurd ⟨by simp [reusable, hdistinct], ?_⟩ hnone
    rcases hfunction with h | h <;> simp [supports, h]
  | average value n =>
    obtain ⟨hfunction, hdistinct⟩ := htag7 htag
    have hkind := hreusable (by simp [supports, hdistinct])
    obtain ⟨⟨type, htype, hint⟩, -⟩ := integer_types_of_reusable (Or.inr (Or.inr hfunction)) hkind
    have h64 := averageAccumulatorType_of_isInteger htype hint
    obtain ⟨v, rfl⟩ := isSome_iff_exists.mp (hacc.values.2 h64)
    have hv := hacc.values.1 v rfl
    rw [h64] at hv
    obtain ⟨x, rfl⟩ := hv.exists_int ⟨rfl, rfl, trivial⟩
    have hx := (hasType_int_of_width rfl).mp hv
    refine ⟨some (.sum (D.sum.mergeBatch D.sum.createAccumulator (some (Int64.ofInt x)))), ?_,
      hkind, ?_⟩
    · rw [hfunction]
      dsimp only
      rw [int64Array_int hx]
      rfl
    · rw [evaluate_sum_create, map_some, toInt_ofInt_of_inWidth hx]
  | distinctAverage value n values =>
    obtain ⟨hfunction, hdistinct⟩ := htag8 htag
    exact absurd ⟨by simp [reusable, hdistinct], by simp [supports, hfunction]⟩ hnone
  | appendExtremum value =>
    obtain ⟨hfunction, hretractable⟩ := htag4 htag
    have hkind := hreusable (by rcases hfunction with h | h <;> simp [supports, h])
    have hinput := hcall.extremum_type hfunction
    have hfloat := not_float_of_reusable hfunction hkind hinput
    have hread := hcall.readable_extremum hfunction
    obtain ⟨minimum, hminimum⟩ : ∃ minimum, call.function = if minimum then .min else .max :=
      hfunction.elim (fun h => ⟨true, h⟩) fun h => ⟨false, h⟩
    refine ⟨some (.extremum minimum call.outputType ((D.extremum minimum call.outputType).mergeBatch
      (D.extremum minimum call.outputType).createAccumulator value)), ?_, hkind, ?_, hinput,
      evaluate_extremum_create D minimum hfloat hacc.values⟩
    · cases minimum <;> rw [hminimum, hinput] <;>
        simp [aggregateArray_typed hacc.values hread]
    · cases minimum <;> simp [hminimum]
  | extremum values =>
    obtain ⟨hfunction, hretractable⟩ := htag3 htag
    refine absurd ⟨?_, ?_⟩ hnone
    · rcases hfunction with h | h <;> simp [reusable, h, hretractable]
    · rcases hfunction with h | h <;> simp [supports, h]

end Create

/-! ## One row -/

variable {row : InputRow} {accumulate : Bool}

section Apply

/-- The contribution of an argument that is added or taken back. -/
def signed (accumulate : Bool) (v : Int) : Int := if accumulate then v else -v

theorem narrow_toInt_add (hw : w ≤ 64) (x : Int64) (v : Int) :
    narrow w (x + Int64.ofInt v).toInt = narrow w (x.toInt + v) := by
  rw [Int64.toInt_add, Int64.toInt_ofInt]
  show narrow w (narrow 64 (x.toInt + narrow 64 v)) = _
  rw [narrow_narrow hw, narrow, Int.add_bmod, ← narrow, ← narrow]
  show narrow w (narrow w x.toInt + narrow w (narrow 64 v)) = _
  rw [narrow_narrow hw, narrow_add_narrow]

section

variable (hint : type.isInteger = true) (hw : type.width = some w) (sum : Option Int64)
include hint hw

/-- An integer sum with one more argument, in terms of any 64-bit sum behind it. -/
theorem addToSum_integer (hv : InWidth w v) (accumulate : Bool) :
    addToSum (sum.map fun x => int (narrow w x.toInt)) (.int v) type accumulate =
      .ok (some (.int (narrow w (sum.getD 0 + Int64.ofInt (signed accumulate v)).toInt))) := by
  obtain ⟨hpos, hle⟩ := width_bounds hw
  have hzero := zeroValue_of_arithmetic (arithmetic_of_isInteger hint)
  rw [narrow_toInt_add hle]
  cases sum with
  | none =>
    cases accumulate with
    | true =>
      show ok (some (int v)) = _
      simp [signed, narrow_of_inWidth hpos hv]
    | false =>
      show aggregateSub (zeroValue type) (.int v) type = _
      rw [hzero, aggregateSub, aggregateArithmetic_int hw hint, wrapping, narrow_sub_narrow]
      simp [signed]
  | some x =>
    cases accumulate with
    | true =>
      show aggregateAdd _ (.int v) type = _
      rw [aggregateAdd, aggregateArithmetic_int hw hint, wrapping, narrow_narrow le_rfl,
        narrow_add_narrow]
      simp [signed]
    | false =>
      show aggregateSub _ (.int v) type = _
      rw [aggregateSub, aggregateArithmetic_int hw hint, wrapping, narrow_narrow le_rfl,
        narrow_sub_narrow]
      simp [signed, sub_eq_add_neg]

theorem sumOutput_integer :
    sumOutput sum type = .ok (sum.map fun x => .int (narrow w x.toInt)) := by
  cases sum with
  | none => rfl
  | some x =>
    show aggregateAdd (zeroValue type) (.int x.toInt) type = _
    rw [zeroValue_of_arithmetic (arithmetic_of_isInteger hint), aggregateAdd,
      aggregateArithmetic_int hw hint, wrapping, narrow_add_narrow]
    simp

end

/-- The argument of an integer sum or average. -/
theorem arithmeticInput_eq (hcall : Admitted schema call) (hrow : row.Typed schema)
    (hsum : call.function = .sum ∨ call.function = .sum0 ∨ call.function = .avg)
    (hkind : reusable call = true) :
    ∃ input : Option Int, argument call row = input.map .int ∧
      arithmeticInput call schema row = .ok (input.map Int64.ofInt) ∧
      ∀ v, input = some v → ∀ type, call.inputType = some type → HasType (.int v) type := by
  obtain ⟨⟨type, htype, hint⟩, -⟩ := integer_types_of_reusable hsum hkind
  have hstar : call.function ≠ .countStar := by rcases hsum with h | h | h <;> simp [h]
  have hcount : ¬ (call.function = .count ∧ call.distinct = false) := by
    rcases hsum with h | h | h <;> simp [h]
  obtain ⟨index, type', hindex, hschema, htype'⟩ := hcall.column hstar
  cases htype.symm.trans htype'
  have hvalue := aggregateValue_eq hrow hschema (hcall.readable hstar hcount htype)
  have hargument : argument call row = (row.cell index).map canonical := by
    simp only [argument, hindex, bind_some, hcount, if_false]
  rw [arithmeticInput, hindex]
  dsimp only
  rw [hvalue, ← hargument]
  rcases hcase : argument call row with _ | value
  · exact ⟨none, rfl, rfl, by simp⟩
  · have hv := argument_typed hcall hrow hcount hcase htype
    obtain ⟨v, rfl⟩ := hv.exists_int (arithmetic_of_isInteger hint)
    refine ⟨some v, rfl, rfl, fun v' hv' type' htype' => ?_⟩
    cases hv'
    cases htype.symm.trans htype'
    exact hv

theorem countInput_eq (hcall : Admitted schema call) (hrow : row.Typed schema)
    (hfunction : call.function = .count ∨ call.function = .countStar) :
    countInput call schema row = .ok (call.inputIndex.isNone || (argument call row).isSome) := by
  rcases hfunction with h | h
  · obtain ⟨index, type, hindex, hschema, -⟩ := hcall.column (by simp [h])
    rw [countInput, hindex]
    dsimp only
    rw [(hrow.column hschema).1]
    simp [argument, hindex, isSome_map]
  · have hlow := hcall.lowered
    rw [Call.Lowered, h] at hlow
    simp [countInput, hlow.1]

variable {n : Int64} {state : D.count.State}

theorem evaluate_count_change (heval : D.count.evaluate state = n) (accumulate input : Bool) :
    D.count.evaluate (if accumulate then D.count.updateBatch state input
      else D.count.retractBatch state input) = if input then n + delta accumulate else n := by
  cases accumulate <;> cases input <;>
    simp [D.count_update, D.count_retract, heval, delta]
  exact Int64.sub_eq_add_neg n 1

/-- A count grows by the rows that have an argument, or by all rows. -/
theorem next_count (hactive : active call row = true) (n : Int64) :
    (Accumulator.count n).next call row accumulate =
      .count (if (call.inputIndex.isNone || (argument call row).isSome) = true
        then n + delta accumulate else n) := by
  rcases hindex : call.inputIndex with _ | index
  · simp [next_countStar hactive hindex]
  · rcases hargument : argument call row with _ | value
    · rw [next_of_none hargument (fun _ _ => by rw [hindex]; rfl)]
      simp
    · rw [next_of_value hactive hargument rfl]
      simp

section

variable (hcall : Admitted schema call) (hrow : row.Typed schema) (hactive : active call row = true)
include hcall hrow hactive

theorem count_apply (hacc : (Accumulator.count n).Typed call)
    (h : Mirrors call (some (count state)) (.count n)) :
    ∃ kernel, apply call schema row accumulate (.count state) (.count n) =
        .ok (kernel, (Accumulator.count n).next call row accumulate) ∧
      Mirrors call (some kernel) ((Accumulator.count n).next call row accumulate) := by
  obtain ⟨hkind, heval⟩ := h
  obtain ⟨hfunction, -⟩ := (@expectedTag_eq call).1 hacc.tag.symm
  rw [apply, countInput_eq hcall hrow hfunction, next_count hactive]
  generalize (call.inputIndex.isNone || (argument call row).isSome) = input
  have hchange := evaluate_count_change heval accumulate input
  refine ⟨.count (if accumulate then D.count.updateBatch state input
    else D.count.retractBatch state input), ?_, hkind, hchange⟩
  rw [ok_bind]
  dsimp only
  rw [hchange]

/-- COUNT(DISTINCT): the map of members is the operator's, the number of members the kernel's. -/
theorem distinctCount_apply {values : CountedValues}
    (hacc : (Accumulator.distinctCount n values).Typed call)
    (h : Mirrors call (some (count state)) (.distinctCount n values)) :
    ∃ kernel, apply call schema row accumulate (.count state) (.distinctCount n values) =
        .ok (kernel, (Accumulator.distinctCount n values).next call row accumulate) ∧
      Mirrors call (some kernel)
          ((Accumulator.distinctCount n values).next call row accumulate) := by
  obtain ⟨hkind, heval⟩ := h
  obtain ⟨hfunction, hdistinct⟩ := (@expectedTag_eq call).2.2.2.2.1 hacc.tag.symm
  have hcount := hcall.count_of_distinct hdistinct hfunction
  obtain ⟨index, type, hindex, hschema, htype⟩ := hcall.column (by simp [hcount])
  have hargument : argument call row = (row.cell index).map canonical := by
    simp [argument, hindex, hdistinct]
  rw [apply, hindex]
  dsimp only
  rw [aggregateValue_eq hrow hschema (hcall.distinct hdistinct type htype), ← hargument]
  rcases hcase : argument call row with _ | value
  · rw [next_of_none hcase (fun n h => by cases h)]
    exact ⟨.count state, rfl, hkind, heval⟩
  · rw [next_of_value hactive hcase rfl]
    by_cases hchanges : values.changes value accumulate = true
    · have hchange := evaluate_count_change heval accumulate true
      refine ⟨.count (if accumulate then D.count.updateBatch state true
        else D.count.retractBatch state true), ?_, hkind, ?_⟩
      · rw [ok_bind]
        dsimp only
        rw [if_pos hchanges, if_pos hchanges, hchange]
        rfl
      · rw [if_pos hchanges, hchange]
        rfl
    · refine ⟨.count state, ?_, hkind, ?_⟩
      · rw [ok_bind]
        dsimp only
        rw [if_neg hchanges, if_neg hchanges]
      · rw [if_neg hchanges, heval]

end

theorem evaluate_sum_update (D : DataFusion) (state : D.sum.State) (input : Option Int)
    (accumulate : Bool) :
    D.sum.evaluate (D.sum.updateBatch state
        (if accumulate then input.map Int64.ofInt else (input.map Int64.ofInt).map (- ·))) =
      match input with
      | none => D.sum.evaluate state
      | some v => some ((D.sum.evaluate state).getD 0 + Int64.ofInt (signed accumulate v)) := by
  rw [D.sum_update]
  cases input with
  | none => cases accumulate <;> rfl
  | some v => cases accumulate <;> simp [addOptional, signed, Int64.ofInt_neg]

variable {input : Option Int}

/-- An integer sum after a row, in terms of any 64-bit sum behind it. -/
theorem next_integer_sum (hcall : Admitted schema call) (hactive : active call row = true)
    (hfunction : call.function = .sum ∨ call.function = .sum0)
    (hint : call.outputType.isInteger = true) (hw : call.outputType.width = some w)
    (hargument : argument call row = input.map .int)
    (htyped : ∀ v, input = some v → ∀ type, call.inputType = some type → HasType (.int v) type)
    (sum : Option Int64) (n : Int64) :
    (Accumulator.sum (sum.map fun x => .int (narrow w x.toInt)) n).next call row accumulate =
      match input with
      | none => .sum (sum.map fun x => .int (narrow w x.toInt)) n
      | some v => .sum (some (.int (narrow w (sum.getD 0 +
          Int64.ofInt (signed accumulate v)).toInt))) (n + delta accumulate) := by
  cases input with
  | none => exact next_of_none hargument (fun n h => by cases h)
  | some v =>
    obtain ⟨-, type, -, -, htype⟩ := hcall.column (by rcases hfunction with h | h <;> simp [h])
    have hv := (hasType_int_of_width hw).mp
      (hcall.sum hfunction type _ htype (htyped v rfl type htype))
    refine next_of_value hactive hargument ?_
    rw [Accumulator.applyValue, addToSum_integer hint hw _ hv]
    rfl

variable {state : D.sum.State}

theorem sum_apply (hcall : Admitted schema call) (hrow : row.Typed schema)
    (hactive : active call row = true) (hacc : (Accumulator.sum value n).Typed call)
    (h : Mirrors call (some (sum state)) (.sum value n)) :
    ∃ kernel, apply call schema row accumulate (.sum state) (.sum value n) =
        .ok (kernel, (Accumulator.sum value n).next call row accumulate) ∧
      Mirrors call (some kernel) ((Accumulator.sum value n).next call row accumulate) := by
  obtain ⟨hkind, w, hw, rfl⟩ := h
  obtain ⟨hfunction, hdistinct⟩ := (@expectedTag_eq call).2.1 hacc.tag.symm
  have hsum := or_assoc.mp (Or.inl (b := call.function = .avg) hfunction)
  obtain ⟨-, hint⟩ := integer_types_of_reusable hsum hkind
  obtain ⟨input, hargument, hinput, htyped⟩ := arithmeticInput_eq hcall hrow hsum hkind
  have heval := evaluate_sum_update D state input accumulate
  rw [next_integer_sum hcall hactive hfunction hint hw hargument htyped, apply, hinput]
  dsimp only [ok_bind]
  rw [sumOutput_integer hint hw, heval]
  cases input with
  | none => exact ⟨.sum _, rfl, hkind, w, hw, by rw [heval]⟩
  | some v => exact ⟨.sum _, rfl, hkind, w, hw, by rw [heval]; rfl⟩

/-- An integer average after a row. -/
theorem next_integer_average (hactive : active call row = true)
    (htype : call.inputType = some type) (hint : type.isInteger = true)
    (hargument : argument call row = input.map .int) (x n : Int64) :
    (Accumulator.average (some (.int x.toInt)) n).next call row accumulate =
      match input with
      | none => .average (some (.int x.toInt)) n
      | some v => .average (some (.int (x + Int64.ofInt (signed accumulate v)).toInt))
          (n + delta accumulate) := by
  cases input with
  | none => exact next_of_none hargument (fun n h => by cases h)
  | some v =>
    have h64 := averageAccumulatorType_of_isInteger htype hint
    have hcontribution : averageContribution (.int v) call = .ok (.int v) := by
      cases type <;> first | (simp [averageContribution, htype, h64]; done) | cases hint
    have hnarrow := narrow_toInt_add (le_refl 64) x (signed accumulate v)
    rw [narrow_of_inWidth (by norm_num) (inWidth_toInt _)] at hnarrow
    have hadd : addToAverage (some (.int x.toInt)) (.int v) call accumulate =
        .ok (some (.int (x + Int64.ofInt (signed accumulate v)).toInt)) := by
      rw [addToAverage, hcontribution, ok_bind, h64, hnarrow]
      cases accumulate
      · show aggregateSub _ _ _ = _
        rw [aggregateSub, aggregateArithmetic_int (w := 64) rfl rfl, wrapping, narrow_sub_narrow]
        simp [signed, sub_eq_add_neg]
      · show aggregateAdd _ _ _ = _
        rw [aggregateAdd, aggregateArithmetic_int (w := 64) rfl rfl, wrapping, narrow_add_narrow]
        simp [signed]
    refine next_of_value hactive hargument ?_
    rw [Accumulator.applyValue, hadd]
    rfl

/-- A kernel of AVG follows its accumulator. -/
theorem average_apply (hcall : Admitted schema call) (hrow : row.Typed schema)
    (hactive : active call row = true) (hacc : (Accumulator.average value n).Typed call)
    (h : Mirrors call (some (sum state)) (.average value n)) :
    ∃ kernel, apply call schema row accumulate (.sum state) (.average value n) =
        .ok (kernel, (Accumulator.average value n).next call row accumulate) ∧
      Mirrors call (some kernel) ((Accumulator.average value n).next call row accumulate) := by
  obtain ⟨hkind, hvalue⟩ := h
  obtain ⟨hfunction, -⟩ := (@expectedTag_eq call).2.2.2.2.2.2.1 hacc.tag.symm
  have hsum : call.function = .sum ∨ call.function = .sum0 ∨ call.function = .avg :=
    Or.inr (Or.inr hfunction)
  obtain ⟨⟨type, htype, hint⟩, -⟩ := integer_types_of_reusable hsum hkind
  have h64 := averageAccumulatorType_of_isInteger htype hint
  obtain ⟨input, hargument, hinput, -⟩ := arithmeticInput_eq hcall hrow hsum hkind
  -- the running sum of an integer average has always a value
  obtain ⟨x, hx⟩ : ∃ x, D.sum.evaluate state = some x := by
    have hsome := hacc.values.2 h64
    rw [hvalue, isSome_map] at hsome
    exact isSome_iff_exists.mp hsome
  have heval := evaluate_sum_update D state input accumulate
  rw [hx] at hvalue heval
  rw [hvalue, map_some, next_integer_average hactive htype hint hargument, apply, hinput]
  dsimp only [ok_bind]
  rw [heval]
  cases input with
  | none => exact ⟨.sum _, rfl, hkind, by rw [heval]; rfl⟩
  | some v => exact ⟨.sum _, rfl, hkind, by rw [heval]; rfl⟩

/-- An append-only extremum after a row. -/
theorem next_appendExtremum (hactive : active call row = true) (best : Option AggregateValue) :
    (Accumulator.appendExtremum best).next call row accumulate =
      match argument call row with
      | none => .appendExtremum best
      | some value => .appendExtremum (some (better (call.function = .min) best value)) := by
  rcases hcase : argument call row with _ | value
  · exact next_of_none hcase (fun n h => by cases h)
  · refine next_of_value hactive hcase ?_
    cases best <;> rfl

/-- A kernel of MIN or MAX follows its accumulator. -/
theorem extremum_apply (hcall : Admitted schema call) (hrow : row.Typed schema)
    (hactive : active call row = true) {minimum : Bool}
    {state : (D.extremum minimum type).State} {best : Option AggregateValue}
    (hacc : (Accumulator.appendExtremum best).Typed call) (haccumulate : accumulate = true)
    (h : Mirrors call (some (extremum minimum type state)) (.appendExtremum best)) :
    ∃ kernel, apply call schema row accumulate (.extremum minimum type state)
      (.appendExtremum best) =
        .ok (kernel, (Accumulator.appendExtremum best).next call row accumulate) ∧
      Mirrors call (some kernel) ((Accumulator.appendExtremum best).next call row accumulate) := by
  obtain ⟨hkind, hminimum, htype, heval⟩ := h
  obtain ⟨hfunction, -⟩ := (@expectedTag_eq call).2.2.2.1 hacc.tag.symm
  have hstar : call.function ≠ .countStar := by rcases hfunction with h | h <;> simp [h]
  have hcount : ¬ (call.function = .count ∧ call.distinct = false) := by
    rcases hfunction with h | h <;> simp [h]
  obtain ⟨index, type', hindex, hschema, htype'⟩ := hcall.column hstar
  cases htype.symm.trans htype'
  have hargument : argument call row = (row.cell index).map canonical := by
    simp only [argument, hindex, bind_some, hcount, if_false]
  have hupdate := D.extremum_update minimum type state (argument call row)
    (fun v hv => argument_typed hcall hrow hcount hv htype)
    (not_float_of_reusable hfunction hkind htype)
  rw [apply, if_pos haccumulate, hindex]
  dsimp only
  rw [aggregateValue_eq hrow hschema (hcall.readable hstar hcount htype), ← hargument]
  dsimp only [ok_bind]
  rw [next_appendExtremum hactive, hupdate, heval, ← hminimum]
  rcases hcase : argument call row with _ | value
  · rw [hcase] at hupdate
    exact ⟨_, rfl, hkind, hminimum, htype, hupdate.trans heval⟩
  · rw [hcase] at hupdate
    refine ⟨_, rfl, hkind, hminimum, htype, ?_⟩
    rw [hupdate, heval]

/-- **One row and one call.**  With or without a kernel, the accumulator becomes the next one, and
the kernel goes on mirroring it. -/
theorem applyCall_eq_next (hcall : Admitted schema call) (hrow : row.Typed schema)
    (hretract : accumulate = true ∨ call.retractable = true) {kernel : Option (Kernel D)}
    (hacc : accumulator.Typed call)
    (h : Mirrors call kernel accumulator) :
    ∃ kernel', RowKernels.applyCall call schema row accumulate kernel accumulator =
        .ok (kernel', accumulator.next call row accumulate) ∧
      Mirrors call kernel' (accumulator.next call row accumulate) := by
  cases kernel with
  | none =>
    refine ⟨none, ?_, h⟩
    rw [RowKernels.applyCall, rowAggregateValue_eq hcall hrow, aggregateFilter_eq hcall hrow]
    dsimp only [ok_bind]
    rw [(applyRow_eq_next hcall hrow hacc accumulate).1]
    rfl
  | some kernel =>
    rw [RowKernels.applyCall, aggregateFilter_eq hcall hrow, ok_bind]
    by_cases hactive : active call row = true
    · -- the step of the kernel itself
      suffices ∃ kernel', apply call schema row accumulate kernel accumulator =
          .ok (kernel', accumulator.next call row accumulate) ∧
          Mirrors call (some kernel') (accumulator.next call row accumulate) by
        obtain ⟨kernel', hstep, hmirrors⟩ := this
        refine ⟨some kernel', ?_, hmirrors⟩
        rw [if_pos hactive, hstep]
        rfl
      cases kernel with
      | count state =>
        cases accumulator with
        | count n => exact count_apply hcall hrow hactive hacc h
        | distinctCount n values => exact distinctCount_apply hcall hrow hactive hacc h
        | _ => exact h.elim
      | sum state =>
        cases accumulator with
        | sum value n => exact sum_apply hcall hrow hactive hacc h
        | average value n => exact average_apply hcall hrow hactive hacc h
        | _ => exact h.elim
      | extremum minimum type state =>
        cases accumulator with
        | appendExtremum best =>
          -- an append-only extremum sees no retractions
          have hkind := (@expectedTag_eq call).2.2.2.1 hacc.tag.symm
          have haccumulate := hretract.resolve_right (by rw [hkind.2]; decide)
          exact extremum_apply hcall hrow hactive hacc haccumulate h
        | _ => exact h.elim
    · rw [if_neg hactive, next_of_inactive (by simpa using hactive)]
      exact ⟨some kernel, rfl, h⟩

end Apply

/-! ## All calls of a group -/

section Group

/-- The accumulators of the calls of a group after a row. -/
def AccumulatorState.next (calls : List Call) (row : InputRow) (accumulate : Bool)
    (state : AccumulatorState) : AccumulatorState :=
  ⟨state.rowCount + delta accumulate,
    List.zipWith (fun call accumulator => accumulator.next call row accumulate) calls
      state.accumulators⟩

/-- Every accumulator has the type of its call. -/
def AccumulatorState.Typed (calls : List Call) (state : AccumulatorState) : Prop :=
  List.Forall₂ (fun call accumulator => accumulator.Typed call) calls state.accumulators

/-- The kernels of a group mirror its accumulators. -/
def RowKernels.Mirror : List Call → List (Option (Kernel D)) → List Accumulator → Prop
  | [], [], [] => True
  | call :: calls, kernel :: kernels, accumulator :: accumulators =>
    Mirrors call kernel accumulator ∧ RowKernels.Mirror calls kernels accumulators
  | _, _, _ => False

variable {calls : List Call} {accumulators : List Accumulator}

/-- The kernels of a group start where its accumulators are. -/
theorem rowKernels_new (D : DataFusion) (hcalls : ∀ call ∈ calls, Admitted schema call)
    (h : List.Forall₂ (fun call accumulator => accumulator.Typed call) calls accumulators) :
    ∃ kernels, RowKernels.new D calls accumulators = .ok kernels ∧
      RowKernels.Mirror calls kernels accumulators := by
  induction h with
  | nil => exact ⟨[], rfl, trivial⟩
  | cons hacc _ ih =>
    obtain ⟨hcall, hrest⟩ := forall_mem_cons.mp hcalls
    obtain ⟨kernel, hnew, hmirrors⟩ := kernel_new_mirrors D hcall hacc
    obtain ⟨kernels, hnews, hmirror⟩ := ih hrest
    exact ⟨kernel :: kernels, by rw [RowKernels.new, hnew, ok_bind, hnews]; rfl, hmirrors, hmirror⟩

/-- A row moves all kernels and accumulators to the next state. -/
theorem applyCalls_eq_next (hrow : row.Typed schema) (hcalls : ∀ call ∈ calls, Admitted schema call)
    (hretract : ∀ call ∈ calls, accumulate = true ∨ call.retractable = true)
    (h : List.Forall₂ (fun call accumulator => accumulator.Typed call) calls accumulators) :
    ∀ {kernels : List (Option (Kernel D))}, RowKernels.Mirror calls kernels accumulators →
      ∃ kernels', RowKernels.applyCalls schema row accumulate calls kernels accumulators =
          .ok (kernels', zipWith (fun call accumulator => accumulator.next call row accumulate)
            calls accumulators) ∧
        RowKernels.Mirror calls kernels'
          (zipWith (fun call accumulator => accumulator.next call row accumulate)
            calls accumulators) := by
  induction h with
  | nil =>
    intro kernels hmirror
    cases kernels with
    | nil => exact ⟨[], rfl, trivial⟩
    | cons _ _ => exact hmirror.elim
  | cons hacc _ ih =>
    intro kernels hmirror
    cases kernels with
    | nil => exact hmirror.elim
    | cons kernel kernels =>
      obtain ⟨hcall, hrest⟩ := forall_mem_cons.mp hcalls
      obtain ⟨hfirst, hothers⟩ := forall_mem_cons.mp hretract
      obtain ⟨kernel', hstep, hmirrors⟩ := applyCall_eq_next hcall hrow hfirst hacc hmirror.1
      obtain ⟨kernels', hsteps, hmirror'⟩ := ih hrest hothers hmirror.2
      refine ⟨kernel' :: kernels', ?_, hmirrors, hmirror'⟩
      rw [RowKernels.applyCalls, hstep, ok_bind]
      rw [hsteps]
      rfl

variable {state : AccumulatorState}

/-- **One row and one group.** -/
theorem rowKernels_apply (hrow : row.Typed schema) {kernels : List (Option (Kernel D))}
    (hcalls : ∀ call ∈ calls, Admitted schema call)
    (hretract : ∀ call ∈ calls, accumulate = true ∨ call.retractable = true)
    (hstate : state.Typed calls) (h : RowKernels.Mirror calls kernels state.accumulators) :
    ∃ kernels', RowKernels.apply calls schema row accumulate kernels state =
        .ok (kernels', state.next calls row accumulate) ∧
      RowKernels.Mirror calls kernels' (state.next calls row accumulate).accumulators := by
  obtain ⟨kernels', happly, hmirror⟩ := applyCalls_eq_next hrow hcalls hretract hstate h
  refine ⟨kernels', ?_, hmirror⟩
  rw [RowKernels.apply, happly]
  rfl

/-- A row keeps the types of the accumulators. -/
theorem AccumulatorState.Typed.next (hrow : row.Typed schema)
    (hcalls : ∀ call ∈ calls, Admitted schema call)
    (h : state.Typed calls) : (state.next calls row accumulate).Typed calls := by
  obtain ⟨rowCount, accumulators⟩ := state
  induction (show List.Forall₂ (fun call accumulator => accumulator.Typed call) calls
    accumulators from h) with
  | nil => exact .nil
  | cons hacc _ ih =>
    obtain ⟨hcall, hrest⟩ := forall_mem_cons.mp hcalls
    exact .cons (applyRow_eq_next hcall hrow hacc accumulate).2 (ih hrest (by assumption))

end Group

end StreamFusion.Aggregate
