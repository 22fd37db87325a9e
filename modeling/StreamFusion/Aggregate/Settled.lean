import StreamFusion.Aggregate.KernelSemantics

/-!
# States that survive being stored

A state that is written and read again is not the same state: a neutral accumulator comes back as a
fresh one.  A sum that counts nothing is zero or has no value, and all later rows make the same of
both. `Same` is this relation, `Same.next` says that a row respects it, and `Same.values` that it
cannot be seen.

Two kinds of accumulators do not survive (`Settled` excludes them).  The running sum of an average
that has overflowed has no value; once its last argument is retracted it is neutral, and the fresh
average that is read instead has the sum zero.  And a floating-point sum or average that is zero
without arguments may have been a negative zero.
-/

namespace StreamFusion.Aggregate

open Wire State List

/-! ## Accumulators that go on alike -/

/-- A sum to which nothing has contributed. -/
def IsNothing (value : Option AggregateValue) : Prop := value = none ∨ value = some (.int 0)

/-- Two accumulators no later row can tell apart. -/
inductive Accumulator.Same : Accumulator → Accumulator → Prop
  | refl (accumulator : Accumulator) : Same accumulator accumulator
  | sum {value value' : Option AggregateValue} (h : IsNothing value) (h' : IsNothing value') :
    Same (.sum value 0) (.sum value' 0)
  | distinctSum {value value' : Option AggregateValue} (values : CountedValues)
    (h : IsNothing value) (h' : IsNothing value') :
    Same (.distinctSum value 0 values) (.distinctSum value' 0 values)

variable {a b : Accumulator}

theorem Accumulator.Same.trans {c : Accumulator} (hab : a.Same b) (hbc : b.Same c) : a.Same c := by
  cases hab with
  | refl => exact hbc
  | sum h h' =>
    cases hbc with
    | refl => exact .sum h h'
    | sum _ h'' => exact .sum h h''
  | distinctSum values h h' =>
    cases hbc with
    | refl => exact .distinctSum values h h'
    | distinctSum _ _ h'' => exact .distinctSum values h h''

theorem Accumulator.Same.value (h : a.Same b) (call : Call) :
    accumulatorValue call a = accumulatorValue call b := by
  cases h <;> simp [accumulatorValue]

variable {type : DataType}

/-- Zero added to a value of the type. -/
theorem aggregateAdd_zero (h : type.Arithmetic) {x : Int}
    (hx : HasType (.int x) type) : aggregateAdd (.int 0) (.int x) type = .ok (some (.int x)) := by
  rcases h.cases with ⟨w, hw, hint⟩ | ⟨precision, scale, rfl, hp⟩
  · rw [aggregateAdd, aggregateArithmetic_int hw hint, wrapping, narrow_add_narrow, zero_add,
      narrow_of_inWidth (DataType.width_bounds hw).1 ((hasType_int_of_width hw).mp hx)]
  · have hwidth : InWidth 128 x := hx.2.inWidth hp
    show Except.ok (decimalOperation (· + ·) 0 x precision) = _
    have hrange := hx.2
    unfold InPrecision at hrange
    simp [decimalOperation, checkedI128, hwidth]
    omega

variable {value : Option AggregateValue}

/-- A sum of nothing goes on like a fresh one. -/
theorem addToSum_of_isNothing (htype : type.Summing) (hvalue : ∀ v, value = some v → HasType v type)
    (h : IsNothing value) {argument : AggregateValue} (hargument : HasType argument type)
    (accumulate : Bool) :
    addToSum value argument type accumulate = addToSum none argument type accumulate := by
  rcases h with rfl | rfl
  · rfl
  · have harith : type.Arithmetic := by
      have hzero := hvalue _ rfl
      rcases htype.cases with harith | rfl | rfl
      · exact harith
      · obtain ⟨w, hw, -⟩ := hzero
        cases hw
      · obtain ⟨w, hw, -⟩ := hzero
        cases hw
    obtain ⟨x, rfl⟩ := hargument.exists_int harith
    cases accumulate
    · show aggregateSub (.int 0) _ _ = aggregateSub (zeroValue type) _ _
      rw [zeroValue_of_arithmetic harith]
    · exact aggregateAdd_zero harith hargument

variable {schema : Schema} {call : Call} {row : InputRow}

section Next

/-- The argument of a sum is a value of its type. -/
theorem Admitted.sum_argument (hcall : Admitted schema call) (hrow : row.Typed schema)
    (hfunction : call.function = .sum ∨ call.function = .sum0) {value : AggregateValue}
    (h : argument call row = some value) : HasType value call.outputType := by
  obtain ⟨-, type, -, -, htype⟩ := hcall.column (by rcases hfunction with h | h <;> simp [h])
  exact hcall.sum hfunction type value htype
    (argument_typed hcall hrow (by rcases hfunction with h | h <;> simp [h]) h htype)

/-- **A row cannot tell the accumulators apart.** -/
theorem Accumulator.Same.next (hcall : Admitted schema call) (hrow : row.Typed schema)
    (ha : a.Typed call) (hb : b.Typed call) (h : a.Same b)
    (accumulate : Bool) : (a.next call row accumulate).Same (b.next call row accumulate) := by
  cases h with
  | refl => exact .refl _
  | @sum value value' hnothing hnothing' =>
    obtain ⟨hfunction, -⟩ := (@expectedTag_eq call).2.1 ha.tag.symm
    by_cases hactive : active call row = true
    · rcases hargument : argument call row with _ | v
      · rw [next_of_none hargument (fun n h => by cases h),
          next_of_none hargument (fun n h => by cases h)]
        exact .sum hnothing hnothing'
      · have hv := hcall.sum_argument hrow hfunction hargument
        have hsumming := hcall.sum_summing hfunction
        obtain ⟨result, hresult, -⟩ :=
          addToSum_typed hsumming (by simp : ∀ w, none = some w → _) hv accumulate
        have hnext : ∀ sum, IsNothing sum → (∀ w, sum = some w → HasType w call.outputType) →
            (Accumulator.sum sum 0).next call row accumulate =
                .sum result (0 + delta accumulate) := by
          intro sum hsum htyped
          refine next_of_value hactive hargument ?_
          rw [Accumulator.applyValue, addToSum_of_isNothing hsumming htyped hsum hv, hresult]
          rfl
        rw [hnext value hnothing ha.values.1, hnext value' hnothing' hb.values.1]
        exact .refl _
    · rw [next_of_inactive (by simpa using hactive), next_of_inactive (by simpa using hactive)]
      exact .sum hnothing hnothing'
  | @distinctSum value value' values hnothing hnothing' =>
    obtain ⟨hfunction, -⟩ := (@expectedTag_eq call).2.2.2.2.2.1 ha.tag.symm
    by_cases hactive : active call row = true
    · rcases hargument : argument call row with _ | v
      · rw [next_of_none hargument (fun n h => by cases h),
          next_of_none hargument (fun n h => by cases h)]
        exact .distinctSum values hnothing hnothing'
      · have hv := hcall.sum_argument hrow hfunction hargument
        have hsumming := hcall.sum_summing hfunction
        by_cases hchanges : values.changes v accumulate = true
        · obtain ⟨result, hresult, -⟩ :=
            addToSum_typed hsumming (by simp : ∀ w, none = some w → _) hv accumulate
          have hnext : ∀ sum, IsNothing sum → (∀ w, sum = some w → HasType w call.outputType) →
              (Accumulator.distinctSum sum 0 values).next call row accumulate =
                .distinctSum result (0 + delta accumulate) (values.add v (delta accumulate)) := by
            intro sum hsum htyped
            refine next_of_value hactive hargument ?_
            rw [Accumulator.applyValue, if_pos hchanges,
              addToSum_of_isNothing hsumming htyped hsum hv, hresult]
            rfl
          rw [hnext value hnothing ha.values.1, hnext value' hnothing' hb.values.1]
          exact .refl _
        · have hnext : ∀ sum, (Accumulator.distinctSum sum 0 values).next call row accumulate =
              .distinctSum sum 0 (values.add v (delta accumulate)) := by
            intro sum
            refine next_of_value hactive hargument ?_
            rw [Accumulator.applyValue, if_neg hchanges]
          rw [hnext, hnext]
          exact .distinctSum _ hnothing hnothing'
    · rw [next_of_inactive (by simpa using hactive), next_of_inactive (by simpa using hactive)]
      exact .distinctSum values hnothing hnothing'

end Next

/-! ## States -/

/-- Two states no later row can tell apart. -/
structure AccumulatorState.Same (s t : AccumulatorState) : Prop where
  rowCount : s.rowCount = t.rowCount
  accumulators : List.Forall₂ Accumulator.Same s.accumulators t.accumulators

theorem AccumulatorState.Same.refl (s : AccumulatorState) : s.Same s :=
  ⟨rfl, forall₂_same.mpr fun a _ => .refl a⟩

variable {s t : AccumulatorState}

theorem AccumulatorState.Same.trans {u : AccumulatorState} (h : s.Same t)
    (h' : t.Same u) : s.Same u := by
  refine ⟨h.rowCount.trans h'.rowCount, ?_⟩
  have hst := h.accumulators
  have htu := h'.accumulators
  generalize s.accumulators = as, t.accumulators = bs, u.accumulators = cs at hst htu
  induction hst generalizing cs with
  | nil =>
    cases htu
    exact .nil
  | cons hab _ ih =>
    cases htu with
    | cons hbc hrest => exact .cons (hab.trans hbc) (ih _ hrest)

/-- **The difference cannot be seen.** -/
theorem AccumulatorState.Same.values (h : s.Same t) (calls : List Call) : s.values calls =
    t.values calls := by
  have hst := h.accumulators
  rw [AccumulatorState.values, AccumulatorState.values]
  generalize s.accumulators = as, t.accumulators = bs at hst
  induction hst generalizing calls with
  | nil => rfl
  | cons hab _ ih =>
    cases calls with
    | nil => rfl
    | cons call calls => rw [zipWith_cons_cons, zipWith_cons_cons, hab.value, ih]

variable {calls : List Call}

/-- A row takes equivalent states to equivalent ones. -/
theorem AccumulatorState.Same.next
    {accumulate : Bool} (hrow : row.Typed schema) (hcalls : ∀ call ∈ calls, Admitted schema call)
    (hs : s.Typed calls) (ht : t.Typed calls) (h : s.Same t) :
    (s.next calls row accumulate).Same (t.next calls row accumulate) := by
  refine ⟨by simp [AccumulatorState.next, h.rowCount], ?_⟩
  have hst := h.accumulators
  unfold AccumulatorState.Typed at hs ht
  simp only [AccumulatorState.next]
  generalize s.accumulators = as, t.accumulators = bs at hs ht hst
  induction hst generalizing calls with
  | nil =>
    cases hs
    exact .nil
  | cons hab _ ih =>
    cases hs with
    | cons ha hrest =>
      cases ht with
      | cons hb hrest' =>
        obtain ⟨hcall, hcalls⟩ := forall_mem_cons.mp hcalls
        exact .cons (hab.next hcall hrow ha hb accumulate) (ih hcalls hrest hrest')

/-! ## Writing and reading -/

/-- The accumulator fits the format, and what is read back goes on like it. -/
structure Accumulator.Settled (call : Call) (accumulator : Accumulator) : Prop where
  storable : accumulator.Storable
  same : (accumulator.normalize call).Same accumulator

/-- Every accumulator survives being stored. -/
def AccumulatorState.Settled (calls : List Call) (state : AccumulatorState) : Prop :=
  List.Forall₂ (fun call accumulator => accumulator.Settled call) calls state.accumulators

theorem isZero_of_isNothing (h : IsNothing value) : optionalValueIsZero value = true := by
  rcases h with rfl | rfl <;> simp [optionalValueIsZero]

theorem storable_of_isNothing (h : IsNothing value) : ∀ v, value = some v → v.Storable := by
  rintro v rfl
  rcases h with h | h
  · cases h
  · cases h
    show InWidth 128 0
    decide

theorem new_of_expectedTag_sum (h : expectedTag call = 2) : Accumulator.new call = .sum none 0 := by
  obtain ⟨hfunction, hdistinct⟩ := (@expectedTag_eq call).2.1 h
  rcases hfunction with h | h <;> simp [Accumulator.new, h, hdistinct]

theorem new_of_expectedTag_distinctSum (h : expectedTag call = 6) :
    Accumulator.new call = .distinctSum none 0 ∅ := by
  obtain ⟨hfunction, hdistinct⟩ := (@expectedTag_eq call).2.2.2.2.2.1 h
  rcases hfunction with h | h <;> simp [Accumulator.new, h, hdistinct]

/-- Whether an accumulator is settled does not depend on what cannot be seen. -/
theorem Accumulator.Settled.of_same (ha : a.Typed call)
    (h : a.Same b) (hb : b.Settled call) : a.Settled call := by
  cases h with
  | refl => exact hb
  | sum hnothing hnothing' =>
    refine ⟨storable_of_isNothing hnothing, ?_⟩
    rw [Accumulator.normalize, accumulatorIsNeutral, isZero_of_isNothing hnothing,
      new_of_expectedTag_sum ha.tag.symm]
    exact .sum (Or.inl rfl) hnothing
  | distinctSum values hnothing hnothing' =>
    refine ⟨⟨storable_of_isNothing hnothing, hb.storable.2⟩, ?_⟩
    rw [Accumulator.normalize, accumulatorIsNeutral, isZero_of_isNothing hnothing]
    by_cases hempty : values.isEmpty = true
    · rw [if_pos (by simp [hempty]), new_of_expectedTag_distinctSum ha.tag.symm,
        Std.ExtTreeMap.isEmpty_iff.mp hempty]
      exact .distinctSum ∅ (Or.inl rfl) hnothing
    · rw [if_neg (by simp [hempty])]
      exact .refl _

/-- What is equivalent to a settled state is settled. -/
theorem AccumulatorState.Settled.of_same
    (hs : s.Typed calls) (h : s.Same t) (ht : t.Settled calls) : s.Settled calls := by
  have hst := h.accumulators
  unfold AccumulatorState.Typed at hs
  unfold AccumulatorState.Settled at ht ⊢
  generalize s.accumulators = as, t.accumulators = bs at hs ht hst
  induction hst generalizing calls with
  | nil =>
    cases hs
    exact .nil
  | cons hab _ ih =>
    cases hs with
    | cons ha hrest =>
      cases ht with
      | cons hb hrest' => exact .cons (.of_same ha hab hb) (ih hrest hrest')

section Decode

theorem checkType_of_hasType {value : AggregateValue} (h : HasType value type) :
    checkType value (some type) = .ok () := by
  simp [checkType, h.matches]

theorem forM_checkType {values : CountedValues} (h : values.Typed type) :
    (values.toList.forM fun entry => checkType entry.1 (some type)) = .ok () := by
  refine Except.forM_eq_ok.mpr fun entry hentry => checkType_of_hasType (h entry.1 ?_)
  have hget := Std.ExtTreeMap.mem_toList_iff_getElem?_eq_some.mp hentry
  exact Std.ExtTreeMap.mem_iff_isSome_getElem?.mpr (by simp [hget])

theorem forM_option_checkType (h : ∀ v, value = some v → HasType v type) :
    (value.toList.forM fun v => checkType v (some type)) = .ok () := by
  refine Except.forM_eq_ok.mpr fun v hv => checkType_of_hasType (h v ?_)
  cases value with
  | none => cases hv
  | some w =>
    rw [Option.toList_some, mem_singleton] at hv
    rw [hv]

variable {accumulator : Accumulator}

section

variable (hcall : Admitted schema call)
include hcall

/-- A typed accumulator passes the check of restored states. -/
theorem Accumulator.Typed.valid
    (h : accumulator.Typed call) : validateAccumulatorValues call accumulator = .ok () := by
  obtain ⟨htag1, htag2, htag3, htag4, htag5, htag6, htag7, htag8⟩ := @expectedTag_eq call
  have htag := h.tag.symm
  -- a call with members or a value has an input type
  have hinput : call.function ≠ .countStar → ∃ type, call.inputType = some type := fun hstar => by
    obtain ⟨-, type, -, -, htype⟩ := hcall.column hstar
    exact ⟨type, htype⟩
  have houtput : call.function ≠ .avg → call.stateType = call.outputType := fun h => if_neg h
  cases accumulator with
  | count n => rfl
  | distinctCount n values =>
    obtain ⟨hfunction, hdistinct⟩ := htag5 htag
    obtain ⟨type, htype⟩ := hinput (by simp [hcall.count_of_distinct hdistinct hfunction])
    rw [validateAccumulatorValues, htype]
    exact forM_checkType (h.values type htype)
  | sum value n =>
    rw [validateAccumulatorValues, houtput (by rcases (htag2 htag).1 with h | h <;> simp [h])]
    exact forM_option_checkType h.values.1
  | distinctSum value n values =>
    obtain ⟨hfunction, -⟩ := htag6 htag
    obtain ⟨type, htype⟩ := hinput (by rcases hfunction with h | h <;> simp [h])
    rw [validateAccumulatorValues, houtput (by rcases hfunction with h | h <;> simp [h]), htype,
      forM_checkType (h.values.2 type htype)]
    exact forM_option_checkType h.values.1
  | average value n =>
    rw [validateAccumulatorValues, Call.stateType, if_pos (htag7 htag).1]
    exact forM_option_checkType h.values.1
  | distinctAverage value n values =>
    obtain ⟨hfunction, -⟩ := htag8 htag
    obtain ⟨type, htype⟩ := hinput (by simp [hfunction])
    rw [validateAccumulatorValues, Call.stateType, if_pos hfunction, htype,
      forM_checkType (h.values.2 type htype)]
    exact forM_option_checkType h.values.1
  | appendExtremum value =>
    rw [validateAccumulatorValues, houtput (by rcases (htag4 htag).1 with h | h <;> simp [h])]
    exact forM_option_checkType h.values
  | extremum values =>
    rw [validateAccumulatorValues, houtput (by rcases (htag3 htag).1 with h | h <;> simp [h])]
    exact forM_checkType h.values

theorem Accumulator.Typed.new : (Accumulator.new call).Typed call := by
  refine ⟨tag_new call, ?_⟩
  have haverage : call.function = .avg →
      HasType (zeroValue call.averageAccumulatorType) call.averageAccumulatorType := fun h =>
    hasType_zeroValue_of_summing (hcall.average_summing h).1
  unfold Accumulator.new
  cases hfunction : call.function <;> dsimp only <;> split <;>
    simp_all [Accumulator.ValuesTyped, CountedValues.Typed.empty]

theorem Accumulator.Typed.normalize
    (h : accumulator.Typed call) : (accumulator.normalize call).Typed call := by
  unfold Accumulator.normalize
  split
  · exact .new hcall
  · exact h

end

theorem AccumulatorState.Typed.new (hcalls : ∀ call ∈ calls, Admitted schema call) :
    (AccumulatorState.new calls).Typed calls := by
  show List.Forall₂ _ calls (calls.map Accumulator.new)
  rw [forall₂_map_right_iff]
  exact forall₂_same.mpr fun call hcall => Accumulator.Typed.new (hcalls call hcall)

theorem encodes_of_settled {accumulators : List Accumulator}
    (hcalls : ∀ call ∈ calls, Admitted schema call)
    (htyped : List.Forall₂ (fun call accumulator => accumulator.Typed call) calls accumulators)
    (hsettled : List.Forall₂ (fun call accumulator => accumulator.Settled call)
      calls accumulators) :
    List.Forall₂ (fun call accumulator => accumulator.Encodes call) calls accumulators := by
  induction htyped with
  | nil => exact .nil
  | cons hacc _ ih =>
    obtain ⟨hcall, hrest⟩ := forall_mem_cons.mp hcalls
    cases hsettled with
    | cons hfirst hothers =>
      exact .cons ⟨hacc.tag, hacc.valid hcall, hfirst.storable⟩ (ih hrest hothers)

variable {state : AccumulatorState}

theorem AccumulatorState.Settled.normalize_same
    (h : state.Settled calls) : (state.normalize calls).Same state := by
  obtain ⟨rowCount, accumulators⟩ := state
  refine ⟨rfl, ?_⟩
  induction (show List.Forall₂ (fun call accumulator => accumulator.Settled call) calls
    accumulators from h) with
  | nil => exact .nil
  | cons hsettled hrest ih => exact .cons hsettled.same (ih hrest)

theorem AccumulatorState.Typed.normalize (hcalls : ∀ call ∈ calls, Admitted schema call)
    (h : state.Typed calls) :
    (state.normalize calls).Typed calls := by
  obtain ⟨rowCount, accumulators⟩ := state
  induction (show List.Forall₂ (fun call accumulator => accumulator.Typed call) calls
    accumulators from h) with
  | nil => exact .nil
  | cons hacc hrest ih =>
    obtain ⟨hcall, hcalls⟩ := forall_mem_cons.mp hcalls
    exact .cons (hacc.normalize hcall) (ih hcalls hrest)

/-- **Writing and reading.**  A settled state comes back as one that goes on like it. -/
theorem decodeState_of_settled (hcalls : ∀ call ∈ calls, Admitted schema call)
    (hlength : calls.length < 2 ^ 32) (hstate : state.Typed calls)
    (h : state.Settled calls) :
    ∃ restored, decodeState (encodeState state) calls = .ok restored ∧ restored.Same state ∧
      restored.Typed calls :=
  ⟨state.normalize calls, decodeState_encodeState
    (fun call hcall => (Accumulator.Typed.new (hcalls call hcall)).valid (hcalls call hcall))
    hlength (encodes_of_settled hcalls hstate h), h.normalize_same, hstate.normalize hcalls⟩

end Decode

end StreamFusion.Aggregate
