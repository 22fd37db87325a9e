import StreamFusion.Aggregate.Merge

/-!
# Runs of insertions

A run of insertions of one group is applied call by call: the engine aggregates the arguments of the
whole run, and the result is merged into the accumulator.  Calls the engine does not compute, and
the members of the DISTINCT counts, still go row by row.

The result is the same as that of the rows one after the other (`applyAppendBatch_eq`), and exactly
so: not only the visible values agree, the accumulators do.
-/

namespace StreamFusion.Aggregate

open Wire State Except AccumulatorState Option

/-! ## The code -/

section Code

variable (D : DataFusion) (schema : Schema)

/-- One row and one call. -/
def Accumulator.apply (call : Call) (row : InputRow) (accumulate : Bool)
    (accumulator : Accumulator) : Except StateError Accumulator := do
  let value ← rowAggregateValue call schema row
  let active ← aggregateFilter call schema row
  accumulator.applyRow call value active accumulate

/-- Does the filter of a call let a row pass? -/
def appendFilter (call : Call) (row : InputRow) : Except StateError Bool :=
  match call.filterIndex with
  | none => .ok true
  | some index => do
    match ← row.column schema index with
    | (.boolean, none) => .ok false
    | (.boolean, some (.boolean value)) => .ok value
    | _ => .error (.execution "aggregate FILTER is not boolean")

/-- The rows that the filter lets pass. -/
def appendRows (call : Call) : List InputRow → Except StateError (List InputRow)
  | [] => .ok []
  | row :: rows => do
    let keep ← appendFilter schema call row
    let rest ← appendRows call rows
    .ok (if keep then row :: rest else rest)

/-- The number of arguments that are not null. -/
def nonNull {α : Type} (inputs : List (Option α)) : Int64 :=
  Int64.ofNat (inputs.countP Option.isSome)

/-- What the engine makes of the arguments of a run.  An array is aggregated like its elements one
after the other. -/
def contribution (call : Call) (rows : List InputRow) : Except StateError Accumulator :=
  match call.function with
  | .count | .countStar => do
    let inputs ← rows.mapM (countInput call schema)
    .ok (.count (D.count.evaluate (inputs.foldl D.count.updateBatch D.count.createAccumulator)))
  | .min | .max => do
    let kernel := D.extremum (call.function = .min) (call.inputType.getD .int8)
    match call.inputIndex with
    | none => .error (.panic "aggregate call requires an input field")
    | some index =>
      let inputs ← rows.mapM fun row => aggregateValue schema row index
      .ok (.appendExtremum (kernel.evaluate (inputs.foldl kernel.updateBatch
        kernel.createAccumulator)))
  | .avg => do
    let inputs ← rows.mapM (arithmeticInput call schema)
    let sum := D.sum.evaluate (inputs.foldl D.sum.updateBatch D.sum.createAccumulator)
    .ok (.average (sum.map fun value => .int value.toInt) (nonNull inputs))
  | .sum | .sum0 => do
    let inputs ← rows.mapM (arithmeticInput call schema)
    let sum := D.sum.evaluate (inputs.foldl D.sum.updateBatch D.sum.createAccumulator)
    .ok (.sum (← sumOutput sum call.outputType) (nonNull inputs))

/-- A row of a run, for a DISTINCT count: the engine only gets a mark if the member is new. -/
def appendMember (call : Call) (state : D.count.State × CountedValues) (row : InputRow) :
    Except StateError (D.count.State × CountedValues) := do
  if ← aggregateFilter call schema row then
    match call.inputIndex with
    | none => .error (.panic "COUNT argument")
    | some index =>
      match ← aggregateValue schema row index with
      | none => .ok (D.count.updateBatch state.1 false, state.2)
      | some value =>
        .ok (D.count.updateBatch state.1 (state.2.changes value true), state.2.add value 1)
  else
    .ok (D.count.updateBatch state.1 false, state.2)

/-- A run of insertions and one call. -/
def appendCall (call : Call) (rows : List InputRow) (accumulator : Accumulator) :
    Except StateError Accumulator :=
  if supports call then
    match accumulator with
    | .distinctCount n values => do
      let (state, values) ← rows.foldlM (appendMember D schema call)
        (D.count.mergeBatch D.count.createAccumulator n, values)
      .ok (.distinctCount (D.count.evaluate state) values)
    | _ => .error (.internal "expected distinct count state")
  else if !reusable call then
    rows.foldlM (fun accumulator row => accumulator.apply schema call row true) accumulator
  else do
    let rows ← appendRows schema call rows
    accumulator.merge call (← contribution D schema call rows)

/-- A run of insertions and all calls. -/
def appendCalls (rows : List InputRow) : List Call → List Accumulator →
    Except StateError (List Accumulator)
  | call :: calls, accumulator :: accumulators => do
    let accumulator ← appendCall D schema call rows accumulator
    .ok (accumulator :: (← appendCalls rows calls accumulators))
  | _, _ => .ok []

/-- A run of insertions; the rows come with their positions in the batch, which have 32 bits. -/
def AccumulatorState.applyAppendBatch (calls : List Call) (rows : List (InputRow × Nat))
    (state : AccumulatorState) : Except StateError AccumulatorState :=
  if rows.isEmpty then
    .ok state
  else if rows.any fun entry => 2 ^ 32 ≤ entry.2 then
    .error (.execution "aggregate selection exceeds u32")
  else do
    .ok ⟨state.rowCount + Int64.ofNat rows.length,
      ← appendCalls D schema (rows.map Prod.fst) calls state.accumulators⟩

end Code

/-! ## The arguments of a run -/

variable {D : DataFusion} {schema : Schema} {call : Call} {row : InputRow} {rows : List InputRow}
  {accumulator : Accumulator}

section Arguments

section

variable (hcall : Admitted schema call)
include hcall

/-- The filter column of a batch selects the active rows. -/
theorem appendFilter_eq (hrow : row.Typed schema) :
    appendFilter schema call row = .ok (active call row) := by
  have hfilter := aggregateFilter_eq hcall hrow
  unfold aggregateFilter at hfilter
  unfold appendFilter
  split
  next hnone =>
    rw [hnone] at hfilter
    exact hfilter
  next index hsome =>
    rw [hsome] at hfilter
    dsimp only at hfilter ⊢
    rcases hcolumn : row.column schema index with error | ⟨type, cell⟩
    · rw [hcolumn] at hfilter
      cases hfilter
    · rw [hcolumn, ok_bind] at hfilter
      rw [ok_bind]
      split at hfilter
      next heq =>
        cases heq
        exact hfilter
      next heq =>
        cases heq
        exact hfilter
      next => cases hfilter

theorem appendRows_eq (hrows : ∀ row ∈ rows, row.Typed schema) :
    appendRows schema call rows = .ok (rows.filter (active call)) := by
  induction rows with
  | nil => rfl
  | cons row rows ih =>
    obtain ⟨hrow, hrest⟩ := List.forall_mem_cons.mp hrows
    rw [appendRows, appendFilter_eq hcall hrow, ok_bind, ih hrest, ok_bind, List.filter_cons]

theorem apply_eq_next (hrow : row.Typed schema)
    (hacc : accumulator.Typed call) (accumulate : Bool) :
    accumulator.apply schema call row accumulate = .ok (accumulator.next call row accumulate) := by
  rw [Accumulator.apply, rowAggregateValue_eq hcall hrow, aggregateFilter_eq hcall hrow]
  exact (applyRow_eq_next hcall hrow hacc accumulate).1

end

/-- The rows a call ignores do not matter. -/
theorem foldl_next_filter (rows : List InputRow) (accumulator : Accumulator) :
    rows.foldl (fun accumulator row => accumulator.next call row true) accumulator =
      (rows.filter (active call)).foldl (fun accumulator row => accumulator.next call row true)
        accumulator := by
  induction rows generalizing accumulator with
  | nil => rfl
  | cons row rows ih =>
    by_cases hactive : active call row = true
    · rw [List.filter_cons_of_pos hactive, List.foldl_cons, List.foldl_cons, ih]
    · rw [List.filter_cons_of_neg hactive, List.foldl_cons,
        next_of_inactive (by simpa using hactive), ih]

end Arguments

/-! ## The aggregate of a run -/

variable {type : DataType} {inputs : List (Option AggregateValue)}

section Engine

variable (D : DataFusion)

theorem evaluate_count_foldl (inputs : List Bool) (state : D.count.State) :
    D.count.evaluate (inputs.foldl D.count.updateBatch state) =
      D.count.evaluate state + Int64.ofNat (inputs.countP id) := by
  induction inputs generalizing state with
  | nil => simp
  | cons input inputs ih =>
    rw [List.foldl_cons, ih, D.count_update, List.countP_cons]
    cases input
    · simp
    · simp [Int64.ofNat_add, Int64.add_assoc, Int64.add_comm]

theorem evaluate_sum_foldl (inputs : List (Option Int64)) (state : D.sum.State) :
    D.sum.evaluate (inputs.foldl D.sum.updateBatch state) =
      inputs.foldl addOptional (D.sum.evaluate state) := by
  induction inputs generalizing state with
  | nil => rfl
  | cons input inputs ih => rw [List.foldl_cons, ih, D.sum_update, List.foldl_cons]

/-- The better of a best value and an argument that may be null. -/
def betterOptional (minimum : Bool) (best candidate : Option AggregateValue) :
    Option AggregateValue :=
  match candidate with
  | none => best
  | some value => some (better minimum best value)

theorem evaluate_extremum_foldl (minimum : Bool) (hfloat : type.isFloat = false)
    (hinputs : ∀ input ∈ inputs, ∀ value, input = some value → HasType value type)
    (state : (D.extremum minimum type).State) :
    (D.extremum minimum type).evaluate (inputs.foldl (D.extremum minimum type).updateBatch state) =
      inputs.foldl (betterOptional minimum) ((D.extremum minimum type).evaluate state) := by
  induction inputs generalizing state with
  | nil => rfl
  | cons input inputs ih =>
    obtain ⟨hinput, hrest⟩ := List.forall_mem_cons.mp hinputs
    rw [List.foldl_cons, ih hrest, D.extremum_update minimum type state input hinput hfloat,
      List.foldl_cons]
    rfl

end Engine

/-! ## Sums of sums -/

theorem addOptional_foldl (sum start : Option Int64) (inputs : List (Option Int64)) :
    addOptional sum (inputs.foldl addOptional start) =
        inputs.foldl addOptional (addOptional sum start) := by
  induction inputs generalizing start with
  | nil => rfl
  | cons input inputs ih =>
    rw [List.foldl_cons, ih, List.foldl_cons]
    congr 1
    cases input with
    | none => rfl
    | some x =>
      cases start with
      | none => simp [addOptional]
      | some y => simp [addOptional, Int64.add_assoc]

theorem foldl_addOptional_some (x : Int64) (inputs : List (Option Int64)) :
    ∃ y, inputs.foldl addOptional (some x) = some y := by
  induction inputs generalizing x with
  | nil => exact ⟨x, rfl⟩
  | cons input inputs ih =>
    cases input with
    | none => exact ih x
    | some y => exact ih (x + y)

/-- No sum, no summands. -/
theorem nonNull_of_foldl_none {inputs : List (Option Int64)}
    (h : inputs.foldl addOptional none = none) : nonNull inputs = 0 := by
  induction inputs with
  | nil => rfl
  | cons input inputs ih =>
    cases input with
    | none =>
      rw [nonNull, List.countP_cons_of_neg (by simp)]
      exact ih h
    | some x =>
      obtain ⟨y, hy⟩ := foldl_addOptional_some (0 + x) inputs
      rw [List.foldl_cons] at h
      cases hy.symm.trans h

variable {α : Type}

theorem nonNull_cons (input : Option α) (inputs : List (Option α)) :
    nonNull (input :: inputs) = (if input.isSome then 1 else 0) + nonNull inputs := by
  cases input <;> simp [nonNull, Int64.ofNat_add, Int64.add_comm]

variable {other : Option Int64} {n m : Int64} {w : Nat}

/-- The sum of an integer type, merged with the sum of a run. -/
theorem merge_integer_sum (hint : call.outputType.isInteger = true)
    (hw : call.outputType.width = some w) {sum : Option Int64}
    (hsum : sum = none → n = 0) (hother : other = none → m = 0) :
    Accumulator.merge call (.sum (sum.map fun x => .int (narrow w x.toInt)) n)
        (.sum (other.map fun x => .int (narrow w x.toInt)) m) =
      .ok (.sum ((addOptional sum other).map fun x => .int (narrow w x.toInt)) (n + m)) := by
  rw [Accumulator.merge]
  cases other with
  | none =>
    rw [hother rfl]
    simp [addOptional]
  | some y =>
    rw [map_some, if_pos (Or.inl (isSome_some))]
    cases sum with
    | none =>
      rw [hsum rfl]
      simp [mergeSums, addOptional]
    | some x =>
      have hle := (DataType.width_bounds hw).2
      have hadd : narrow w (x + y).toInt = narrow w (x.toInt + y.toInt) := by
        have := narrow_toInt_add hle x y.toInt
        rwa [Int64.ofInt_toInt] at this
      simp only [mergeSums, map_some, aggregateAdd, aggregateArithmetic_int hw hint, wrapping,
        narrow_narrow le_rfl, narrow_add_narrow, addOptional, getD_some, hadd]
      rfl

theorem merge_integer_average (h64 : call.averageAccumulatorType = .int64)
    {x : Int64} (hother : other = none → m = 0) :
    Accumulator.merge call (.average (some (.int x.toInt)) n)
      (.average (other.map fun y => .int y.toInt) m) =
      .ok (.average ((addOptional (some x) other).map fun y => .int y.toInt) (n + m)) := by
  rw [Accumulator.merge]
  cases other with
  | none =>
    rw [hother rfl]
    simp [addOptional]
  | some y =>
    rw [map_some, if_pos (Or.inl (isSome_some)), h64]
    have hadd : narrow 64 (x.toInt + y.toInt) = (x + y).toInt := by
      rw [Int64.toInt_add]
      rfl
    simp only [mergeAverages, map_some, aggregateAdd,
      aggregateArithmetic_int (show DataType.int64.width = some 64 from rfl) rfl, wrapping,
      narrow_add_narrow,
      addOptional, getD_some, hadd]
    rfl

/-! ## The best of the best -/

variable {o : Ordering}

theorem isGT_eq_false : o.isGT = false ↔ o.isLE = true := by
  cases o <;> simp

theorem isLT_eq_false : o.isLT = false ↔ o.isGE = true := by
  cases o <;> simp

/-- The one of two elements that comes first, the left one on a tie. -/
theorem pick_assoc (before : α → α → Bool)
    (trans : ∀ a b c, before a b = true → before b c = true → before a c = true)
    (negTrans : ∀ a b c, before a b = false → before b c = false → before a c = false)
    (a b c : α) :
    (if before (if before c b then c else b) a then (if before c b then c else b) else a) =
      if before c (if before b a then b else a) then c else (if before b a then b else a) := by
  by_cases hba : before b a = true <;> by_cases hcb : before c b = true
  · simp [hba, hcb, trans c b a hcb hba]
  · simp [hba, hcb]
  · simp [hba, hcb]
  · have hca := negTrans c b a (by simpa using hcb) (by simpa using hba)
    simp [hba, hcb, hca]

variable {a : AggregateValue}

/-- Outside floating point, the order of the values decides. -/
theorem flinkAppendExtremum_eq (ha : HasType a type)
    (hfloat : type.isFloat = false) (b : AggregateValue) (minimum : Bool) :
    flinkAppendExtremum a b minimum =
      if (if minimum then (compare b a).isLT else (compare b a).isGT) then b else a := by
  cases a with
  | float32 bits =>
    cases (show type = .float32 from ha)
    cases hfloat
  | float64 bits =>
    cases (show type = .float64 from ha)
    cases hfloat
  | _ => rfl

/-- Extrema can be grouped, except over floats. -/
theorem flinkAppendExtremum_assoc {b c : AggregateValue} (ha : HasType a type)
    (hb : HasType b type) (hfloat : type.isFloat = false) (minimum : Bool) :
    flinkAppendExtremum (flinkAppendExtremum a b minimum) c minimum =
      flinkAppendExtremum a (flinkAppendExtremum b c minimum) minimum := by
  have hab : HasType (flinkAppendExtremum a b minimum) type := by
    rcases flinkAppendExtremum_mem a b minimum with h | h <;> rw [h] <;> assumption
  rw [flinkAppendExtremum_eq hab hfloat,
    flinkAppendExtremum_eq ha hfloat (flinkAppendExtremum b c _),
    flinkAppendExtremum_eq ha hfloat, flinkAppendExtremum_eq hb hfloat]
  cases minimum
  · refine (pick_assoc (fun b a => (compare b a).isGT) ?_ ?_ a b c).symm
    · intro a b c hab hbc
      simp only [Ordering.isGT_iff_eq_gt] at *
      exact Std.TransCmp.gt_trans hab hbc
    · intro a b c hab hbc
      rw [isGT_eq_false] at *
      exact Std.TransCmp.isLE_trans hab hbc
  · refine (pick_assoc (fun b a => (compare b a).isLT) ?_ ?_ a b c).symm
    · intro a b c hab hbc
      simp only [Ordering.isLT_iff_eq_lt] at *
      exact Std.TransCmp.lt_trans hab hbc
    · intro a b c hab hbc
      rw [isLT_eq_false] at *
      exact Std.TransCmp.isGE_trans hab hbc

/-- The best of a run can be found first and then joined. -/
theorem betterOptional_foldl (hfloat : type.isFloat = false) (minimum : Bool)
    {best start : Option AggregateValue}
    (hbest : ∀ v, best = some v → HasType v type) (hstart : ∀ v, start = some v → HasType v type)
    (hinputs : ∀ input ∈ inputs, ∀ v, input = some v → HasType v type) :
    betterOptional minimum best (inputs.foldl (betterOptional minimum) start) =
      inputs.foldl (betterOptional minimum) (betterOptional minimum best start) := by
  induction inputs generalizing start with
  | nil => rfl
  | cons input inputs ih =>
    obtain ⟨hinput, hrest⟩ := List.forall_mem_cons.mp hinputs
    rw [List.foldl_cons, List.foldl_cons, ih ?_ hrest]
    · congr 1
      rcases input with _ | v
      · rfl
      · rcases start with _ | s
        · rfl
        · rcases best with _ | b
          · rfl
          · exact congrArg some
              (flinkAppendExtremum_assoc (hbest b rfl) (hstart s rfl) hfloat minimum).symm
    · intro v hv
      rcases input with _ | x
      · exact hstart v hv
      · cases hv
        rcases start with _ | s
        · exact hinput x rfl
        · rcases flinkAppendExtremum_mem s x minimum with h | h
          · simpa only [better, h] using hinput x rfl
          · simpa only [better, h] using hstart s rfl

/-! ## A run row by row -/

/-- What the rows make of an accumulator one after the other. -/
def Accumulator.afterRun (call : Call) (rows : List InputRow)
    (accumulator : Accumulator) : Accumulator :=
  rows.foldl (fun accumulator row => accumulator.next call row true) accumulator

section Run

theorem afterRun_count (hactive : ∀ row ∈ rows, active call row = true) (n : Int64) :
    (Accumulator.count n).afterRun call rows = .count (n + Int64.ofNat (rows.countP fun row =>
      call.inputIndex.isNone || (argument call row).isSome)) := by
  induction rows generalizing n with
  | nil => simp [Accumulator.afterRun]
  | cons row rows ih =>
    obtain ⟨hrow, hrest⟩ := List.forall_mem_cons.mp hactive
    rw [Accumulator.afterRun, List.foldl_cons, next_count hrow]
    show Accumulator.afterRun call rows _ = _
    rw [ih hrest, List.countP_cons]
    cases (call.inputIndex.isNone || (argument call row).isSome)
    · simp
    · simp [delta, Int64.ofNat_add, Int64.add_assoc, Int64.add_comm]

/-- The argument of an integer sum as the kernel sees it. -/
def arithmeticArgument (call : Call) (row : InputRow) : Option Int64 :=
  match argument call row with
  | some (.int v) => some (Int64.ofInt v)
  | _ => none

theorem arithmeticArgument_eq {input : Option Int} (h : argument call row = input.map .int) :
    arithmeticArgument call row = input.map Int64.ofInt := by
  rw [arithmeticArgument, h]
  cases input <;> rfl

section

variable (hcall : Admitted schema call) (hrows : ∀ row ∈ rows, row.Typed schema)
  (hactive : ∀ row ∈ rows, active call row = true)
include hcall hrows hactive

/-- A run of rows adds the sum of its arguments. -/
theorem afterRun_sum
    (hfunction : call.function = .sum ∨ call.function = .sum0) (hkind : reusable call = true)
    (hw : call.outputType.width = some w) (sum : Option Int64) (n : Int64) :
    (Accumulator.sum (sum.map fun x => .int (narrow w x.toInt)) n).afterRun call rows =
      .sum (((rows.map (arithmeticArgument call)).foldl addOptional sum).map fun x =>
        .int (narrow w x.toInt)) (n + nonNull (rows.map (arithmeticArgument call))) := by
  have hsum := or_assoc.mp (Or.inl (b := call.function = .avg) hfunction)
  obtain ⟨-, hint⟩ := integer_types_of_reusable hsum hkind
  induction rows generalizing sum n with
  | nil => simp [Accumulator.afterRun, nonNull]
  | cons row rows ih =>
    obtain ⟨hrow, hrest⟩ := List.forall_mem_cons.mp hrows
    obtain ⟨hact, hacts⟩ := List.forall_mem_cons.mp hactive
    obtain ⟨input, hargument, -, htyped⟩ := arithmeticInput_eq hcall hrow hsum hkind
    rw [Accumulator.afterRun, List.foldl_cons,
      next_integer_sum hcall hact hfunction hint hw hargument htyped, List.map_cons,
      List.foldl_cons, nonNull_cons, arithmeticArgument_eq hargument]
    cases input with
    | none =>
      show Accumulator.afterRun call rows _ = _
      rw [ih hrest hacts]
      simp [addOptional]
    | some v =>
      show Accumulator.afterRun call rows
        (.sum ((some (sum.getD 0 + Int64.ofInt v)).map fun x => .int (narrow w x.toInt)) _) = _
      rw [ih hrest hacts]
      simp [addOptional, delta, Int64.add_assoc]

/-- A run of rows adds the sum and the number of its arguments. -/
theorem afterRun_average (hfunction : call.function = .avg)
    (hkind : reusable call = true) (x n : Int64) :
    (Accumulator.average (some (.int x.toInt)) n).afterRun call rows =
      .average (((rows.map (arithmeticArgument call)).foldl addOptional (some x)).map fun x =>
        .int x.toInt) (n + nonNull (rows.map (arithmeticArgument call))) := by
  have hsum : call.function = .sum ∨ call.function = .sum0 ∨ call.function = .avg :=
    Or.inr (Or.inr hfunction)
  obtain ⟨⟨type, htype, hint⟩, -⟩ := integer_types_of_reusable hsum hkind
  induction rows generalizing x n with
  | nil => simp [Accumulator.afterRun, nonNull]
  | cons row rows ih =>
    obtain ⟨hrow, hrest⟩ := List.forall_mem_cons.mp hrows
    obtain ⟨hact, hacts⟩ := List.forall_mem_cons.mp hactive
    obtain ⟨input, hargument, -, -⟩ := arithmeticInput_eq hcall hrow hsum hkind
    rw [Accumulator.afterRun, List.foldl_cons, next_integer_average hact htype hint hargument,
      List.map_cons, List.foldl_cons, nonNull_cons, arithmeticArgument_eq hargument]
    cases input with
    | none =>
      show Accumulator.afterRun call rows _ = _
      rw [ih hrest hacts]
      simp [addOptional]
    | some v =>
      show Accumulator.afterRun call rows _ = _
      rw [ih hrest hacts]
      simp [addOptional, delta, signed, Int64.add_assoc]

end

theorem afterRun_appendExtremum (hactive : ∀ row ∈ rows, active call row = true)
    (best : Option AggregateValue) :
    (Accumulator.appendExtremum best).afterRun call rows =
      .appendExtremum ((rows.map (argument call)).foldl
        (betterOptional (call.function = .min)) best) := by
  induction rows generalizing best with
  | nil => rfl
  | cons row rows ih =>
    obtain ⟨hact, hacts⟩ := List.forall_mem_cons.mp hactive
    rw [Accumulator.afterRun, List.foldl_cons, next_appendExtremum hact, List.map_cons,
      List.foldl_cons]
    rcases argument call row with _ | value
    · exact ih hacts best
    · exact ih hacts _

end Run

/-! ## One call -/

section Call

section Contribution

variable (hcall : Admitted schema call) (hrows : ∀ row ∈ rows, row.Typed schema)

include hcall hrows

theorem contribution_count (hfunction : call.function = .count ∨ call.function = .countStar) :
    contribution D schema call rows = .ok (.count (Int64.ofNat (rows.countP fun row =>
      call.inputIndex.isNone || (argument call row).isSome))) := by
  have hinputs := mapM_of_ok fun row hrow => countInput_eq hcall (hrows row hrow) hfunction
  rw [contribution]
  rcases hfunction with h | h <;> rw [h] <;> dsimp only <;>
    rw [hinputs, ok_bind, evaluate_count_foldl, D.count_create, List.countP_map] <;>
    simp

theorem mapM_arithmeticInput (hsum : call.function = .sum ∨ call.function = .sum0 ∨
    call.function = .avg)
    (hkind : reusable call = true) :
    rows.mapM (arithmeticInput call schema) = .ok (rows.map (arithmeticArgument call)) :=
  mapM_of_ok fun row hrow => by
    obtain ⟨input, hargument, hinput, -⟩ := arithmeticInput_eq hcall (hrows row hrow) hsum hkind
    rw [hinput, arithmeticArgument_eq hargument]

theorem contribution_sum (hfunction : call.function = .sum ∨ call.function = .sum0)
    (hkind : reusable call = true) (hw : call.outputType.width = some w) :
    contribution D schema call rows =
      .ok (.sum (((rows.map (arithmeticArgument call)).foldl addOptional none).map fun x =>
        .int (narrow w x.toInt)) (nonNull (rows.map (arithmeticArgument call)))) := by
  have hsum := or_assoc.mp (Or.inl (b := call.function = .avg) hfunction)
  obtain ⟨-, hint⟩ := integer_types_of_reusable hsum hkind
  have hinputs := mapM_arithmeticInput hcall hrows hsum hkind
  rw [contribution]
  rcases hfunction with h | h <;> rw [h] <;> dsimp only <;>
    rw [hinputs, ok_bind, evaluate_sum_foldl, D.sum_create, sumOutput_integer hint hw] <;>
    rfl

theorem contribution_average (hfunction : call.function = .avg) (hkind : reusable call = true) :
    contribution D schema call rows =
      .ok (.average (((rows.map (arithmeticArgument call)).foldl addOptional none).map fun x =>
        .int x.toInt) (nonNull (rows.map (arithmeticArgument call)))) := by
  have hinputs := mapM_arithmeticInput hcall hrows (Or.inr (Or.inr hfunction)) hkind
  rw [contribution, hfunction]
  rw [hinputs, ok_bind, evaluate_sum_foldl, D.sum_create]

/-- A batch contributes its best argument. -/
theorem contribution_extremum (hfunction : call.function = .min ∨ call.function = .max)
    (hkind : reusable call = true) :
    contribution D schema call rows = .ok (.appendExtremum ((rows.map (argument call)).foldl
        (betterOptional (call.function = .min)) none)) := by
  have hstar : call.function ≠ .countStar := by rcases hfunction with h | h <;> simp [h]
  have hcount : ¬ (call.function = .count ∧ call.distinct = false) := by
    rcases hfunction with h | h <;> simp [h]
  obtain ⟨index, type, hindex, hschema, htype⟩ := hcall.column hstar
  have hinputs : (rows.mapM fun row => aggregateValue schema row index) =
      .ok (rows.map (argument call)) :=
    mapM_of_ok fun row hrow => by
      rw [aggregateValue_eq (hrows row hrow) hschema (hcall.readable hstar hcount htype)]
      simp only [argument, hindex, bind_some, hcount, if_false]
  have htyped : ∀ input ∈ rows.map (argument call), ∀ value, input = some value →
      HasType value type := by
    intro input hinput value hvalue
    obtain ⟨row, hrow, rfl⟩ := List.mem_map.mp hinput
    exact argument_typed hcall (hrows row hrow) hcount hvalue htype
  have hfold (minimum : Bool) : (D.extremum minimum type).evaluate
      ((rows.map (argument call)).foldl (D.extremum minimum type).updateBatch
        (D.extremum minimum type).createAccumulator) =
      (rows.map (argument call)).foldl (betterOptional minimum) none := by
    rw [evaluate_extremum_foldl D minimum (not_float_of_reusable hfunction hkind htype) htyped,
      D.extremum_create]
  rw [contribution]
  rcases hfunction with h | h <;> rw [h] <;> dsimp only <;>
    rw [hindex, htype] <;> dsimp only [getD_some] <;>
    rw [hinputs, ok_bind, hfold]

theorem foldlM_appendMember (hdistinct : call.distinct = true) (hcount : call.function = .count)
    {state : D.count.State} (heval : D.count.evaluate state = n) (values : CountedValues) :
    ∃ state' values', rows.foldlM (appendMember D schema call) (state, values) =
      .ok (state', values') ∧
      (Accumulator.distinctCount n values).afterRun call rows =
        .distinctCount (D.count.evaluate state') values' := by
  induction rows generalizing state n values with
  | nil => exact ⟨state, values, rfl, by rw [heval]; rfl⟩
  | cons row rows ih =>
    obtain ⟨hrow, hrest⟩ := List.forall_mem_cons.mp hrows
    obtain ⟨index, type, hindex, hschema, htype⟩ := hcall.column (by simp [hcount])
    have hargument : argument call row = (row.cell index).map AggregateValue.canonical := by
      simp [argument, hindex, hdistinct]
    have hfalse : D.count.evaluate (D.count.updateBatch state false) = n := by
      simp [D.count_update, heval]
    rw [List.foldlM_cons, appendMember, aggregateFilter_eq hcall hrow, ok_bind,
      Accumulator.afterRun, List.foldl_cons]
    by_cases hactive : active call row = true
    · rw [if_pos hactive, hindex]
      dsimp only
      rw [aggregateValue_eq hrow hschema (hcall.distinct hdistinct type htype), ← hargument]
      rcases hcase : argument call row with _ | value
      · rw [next_of_none hcase (fun n h => by cases h)]
        exact ih hrest hfalse values
      · rw [next_of_value hactive hcase rfl]
        refine ih hrest ?_ _
        rw [D.count_update, heval]
        rfl
    · rw [if_neg hactive, next_of_inactive (by simpa using hactive)]
      exact ih hrest hfalse values

end Contribution

/-- **A run and one call.**  The accumulator becomes what the rows make of it one after the
other. -/
theorem appendCall_eq (D : DataFusion) (hcall : Admitted schema call)
    (hrows : ∀ row ∈ rows, row.Typed schema)
    (hacc : accumulator.Typed call) :
    appendCall D schema call rows accumulator = .ok (accumulator.afterRun call rows) := by
  obtain ⟨htag1, htag2, htag3, htag4, htag5, htag6, htag7, htag8⟩ := @expectedTag_eq call
  have htag := hacc.tag.symm
  by_cases hsupports : supports call = true
  · obtain ⟨hdistinct, hcount⟩ : call.distinct = true ∧ call.function = .count := by
      simpa [supports] using hsupports
    have hexpected : expectedTag call = 5 := by simp [expectedTag, hdistinct, hcount]
    rw [hexpected] at htag
    cases accumulator with
    | distinctCount n values =>
      obtain ⟨state, values', hfold, hrun⟩ := foldlM_appendMember hcall hrows hdistinct hcount
        (evaluate_count_create D n) values
      rw [appendCall, if_pos hsupports]
      rw [hfold, hrun]
      rfl
    | _ => cases htag
  unfold appendCall
  rw [if_neg hsupports]
  by_cases hkind : reusable call = true
  · -- the engine aggregates the rows that pass the filter
    have hactive : ∀ row ∈ rows.filter (active call), active call row = true :=
      fun row hrow => (List.mem_filter.mp hrow).2
    have hfiltered : ∀ row ∈ rows.filter (active call), row.Typed schema :=
      fun row hrow => hrows row (List.mem_filter.mp hrow).1
    rw [if_neg (by simp [hkind]), appendRows_eq hcall hrows, ok_bind, Accumulator.afterRun,
      foldl_next_filter]
    show _ = ok (accumulator.afterRun call (rows.filter (active call)))
    generalize rows.filter (active call) = rows at hactive hfiltered ⊢
    have hnotdistinct : call.distinct = false := by
      by_contra h
      simp [reusable, h] at hkind
    cases accumulator with
    | count n =>
      rw [contribution_count hcall hfiltered (htag1 htag).1, ok_bind, afterRun_count hactive]
      rfl
    | sum value n =>
      obtain ⟨hfunction, -⟩ := htag2 htag
      obtain ⟨-, hint⟩ := integer_types_of_reusable (or_assoc.mp (.inl hfunction)) hkind
      obtain ⟨w, hw⟩ := DataType.width_of_isInteger hint
      obtain ⟨start, -, rfl⟩ := int64Array_of_typed hint hw hacc.values.1
      rw [contribution_sum hcall hfiltered hfunction hkind hw, ok_bind,
        merge_integer_sum hint hw ?_ nonNull_of_foldl_none, addOptional_foldl,
        afterRun_sum hcall hfiltered hactive hfunction hkind hw]
      · rfl
      · rintro rfl
        exact hacc.values.2 hint rfl
    | average value n =>
      obtain ⟨hfunction, -⟩ := htag7 htag
      obtain ⟨⟨type, htype, hint⟩, -⟩ := integer_types_of_reusable (Or.inr (Or.inr hfunction)) hkind
      have h64 := averageAccumulatorType_of_isInteger htype hint
      obtain ⟨v, rfl⟩ := isSome_iff_exists.mp (hacc.values.2 h64)
      have hv := hacc.values.1 v rfl
      rw [h64] at hv
      obtain ⟨x, rfl⟩ := hv.exists_int ⟨rfl, rfl, trivial⟩
      have hx := toInt_ofInt_of_inWidth ((hasType_int_of_width rfl).mp hv)
      rw [contribution_average hcall hfiltered hfunction hkind, ok_bind, ← hx,
        merge_integer_average h64 nonNull_of_foldl_none, addOptional_foldl,
        afterRun_average hcall hfiltered hactive hfunction hkind]
      rfl
    | appendExtremum best =>
      obtain ⟨hfunction, -⟩ := htag4 htag
      have htype := hcall.extremum_type hfunction
      have hcount : ¬ (call.function = .count ∧ call.distinct = false) := by
        rcases hfunction with h | h <;> simp [h]
      have htyped : ∀ input ∈ rows.map (argument call), ∀ value, input = some value →
          HasType value call.outputType := by
        intro input hinput value hvalue
        obtain ⟨row, hrow, rfl⟩ := List.mem_map.mp hinput
        exact argument_typed hcall (hfiltered row hrow) hcount hvalue htype
      have hmerge : betterOptional (call.function = .min) best
          ((rows.map (argument call)).foldl (betterOptional (call.function = .min)) none) = _ :=
        betterOptional_foldl (not_float_of_reusable hfunction hkind htype) (call.function = .min)
          hacc.values (by simp) htyped
      rw [contribution_extremum hcall hfiltered hfunction hkind, ok_bind,
        afterRun_appendExtremum hactive]
      exact congrArg (fun best => ok (Accumulator.appendExtremum best)) hmerge
    | distinctCount n values => exact absurd (htag5 htag).2 (by simp [hnotdistinct])
    | distinctSum value n values => exact absurd (htag6 htag).2 (by simp [hnotdistinct])
    | distinctAverage value n values => exact absurd (htag8 htag).2 (by simp [hnotdistinct])
    | extremum values =>
      obtain ⟨hfunction, hretractable⟩ := htag3 htag
      rcases hfunction with h | h <;> simp [reusable, hnotdistinct, h, hretractable] at hkind
  · rw [if_pos (by simp [hkind])]
    induction rows generalizing accumulator with
    | nil => rfl
    | cons row rows ih =>
      obtain ⟨hrow, hrest⟩ := List.forall_mem_cons.mp hrows
      rw [List.foldlM_cons, apply_eq_next hcall hrow hacc, ok_bind]
      have htyped := (applyRow_eq_next hcall hrow hacc true).2
      exact ih hrest htyped htyped.tag.symm

end Call

/-! ## A group -/

section Group

variable {calls : List Call}

/-- The state of a group after rows that all add to it. -/
def AccumulatorState.afterRun (calls : List Call) (rows : List InputRow)
    (state : AccumulatorState) : AccumulatorState :=
  rows.foldl (fun state row => state.next calls row true) state

theorem zipWith_snd {α β : Type} : ∀ {as : List α} {bs : List β}, bs.length = as.length →
    List.zipWith (fun _ b => b) as bs = bs
  | [], [], _ => rfl
  | _ :: as, b :: bs, h => congrArg (b :: ·) (zipWith_snd (by simpa using h))

theorem zipWith_zipWith_self {α β γ δ : Type} (f : α → γ → δ) (g : α → β → γ) :
    ∀ (as : List α) (bs : List β),
      List.zipWith f as (List.zipWith g as bs) = List.zipWith (fun a b => f a (g a b)) as bs
  | [], _ => rfl
  | _ :: _, [] => rfl
  | a :: as, b :: bs => congrArg (f a (g a b) :: ·) (zipWith_zipWith_self f g as bs)

variable {state : AccumulatorState}

/-- A run moves each accumulator on its own. -/
theorem afterRun_eq (rows : List InputRow) (hlength : state.accumulators.length = calls.length) :
    state.afterRun calls rows = ⟨state.rowCount + Int64.ofNat rows.length,
      List.zipWith (fun call accumulator => accumulator.afterRun call rows) calls
          state.accumulators⟩ := by
  induction rows generalizing state with
  | nil =>
    obtain ⟨rowCount, accumulators⟩ := state
    have hzip := zipWith_snd hlength
    simp only [afterRun, Accumulator.afterRun, List.foldl_nil, List.length_nil]
    rw [hzip]
    simp
  | cons row rows ih =>
    rw [afterRun, List.foldl_cons]
    show afterRun calls rows _ = _
    rw [ih (by simp [next, hlength])]
    simp only [next, zipWith_zipWith_self, Accumulator.afterRun, List.foldl_cons,
      List.length_cons, mk.injEq, and_true]
    rw [Int64.ofNat_add, Int64.add_assoc, Int64.add_comm (Int64.ofNat rows.length)]
    rfl

theorem appendCalls_eq (D : DataFusion) {accumulators : List Accumulator}
    (hcalls : ∀ call ∈ calls, Admitted schema call) (hrows : ∀ row ∈ rows, row.Typed schema)
    (h : List.Forall₂ (fun call accumulator => accumulator.Typed call) calls accumulators) :
    appendCalls D schema rows calls accumulators =
      .ok (List.zipWith (fun call accumulator => accumulator.afterRun call rows) calls
          accumulators) := by
  induction h with
  | nil => rfl
  | cons hacc _ ih =>
    obtain ⟨hcall, hrest⟩ := List.forall_mem_cons.mp hcalls
    rw [appendCalls, appendCall_eq D hcall hrows hacc, ok_bind, ih hrest]
    rfl

/-- **A run of a group.**  It is the same as its rows one after the other. -/
theorem applyAppendBatch_eq (D : DataFusion) (hcalls : ∀ call ∈ calls, Admitted schema call)
    {rows : List (InputRow × Nat)} (hrows : ∀ entry ∈ rows, entry.1.Typed schema)
    (hindex : ∀ entry ∈ rows, entry.2 < 2 ^ 32)
    (hstate : state.Typed calls) :
    state.applyAppendBatch D schema calls rows =
        .ok (state.afterRun calls (rows.map Prod.fst)) := by
  unfold applyAppendBatch
  by_cases hempty : rows.isEmpty = true
  · rw [if_pos hempty, List.isEmpty_iff.mp hempty]
    rfl
  · have hinRange : ¬ (rows.any fun entry => decide (2 ^ 32 ≤ entry.2)) = true := by
      simpa using hindex
    have htyped : ∀ row ∈ rows.map Prod.fst, row.Typed schema := by
      intro row hrow
      obtain ⟨entry, hentry, rfl⟩ := List.mem_map.mp hrow
      exact hrows entry hentry
    rw [if_neg hempty, if_neg hinRange, appendCalls_eq D hcalls htyped hstate,
      afterRun_eq _ hstate.length_eq.symm]
    simp

theorem AccumulatorState.Typed.afterRun (hcalls : ∀ call ∈ calls, Admitted schema call)
    (hrows : ∀ row ∈ rows, row.Typed schema)
    (h : state.Typed calls) : (state.afterRun calls rows).Typed calls := by
  induction rows generalizing state with
  | nil => exact h
  | cons row rows ih =>
    obtain ⟨hrow, hrest⟩ := List.forall_mem_cons.mp hrows
    exact ih hrest (h.next hrow hcalls)

end Group

end StreamFusion.Aggregate
