import StreamFusion.Lib.Changelog
import StreamFusion.State.Staged

/-!
# Deduplication

The operator of `planner/operators/deduplicate.rs` keeps one row of every key: the first or the last
to arrive (`processing_time`), the one with the smallest or the largest time (the row-time mode), or
the current row of a changelog (`input_changelog`).  A key's stored value is the bytes of its row,
the byte `1` where only the presence of a row counts, or, in the row-time mode, the time and the
bytes of the row if the plan needs them.

The row-time mode finds the winners of a batch with a running minimum or maximum over the stored
time and the times of the key's rows.  The copy of a key carries that extremum next to the stored
value, which only winners replace.

An output row is a row of the input or a stored row.  Its ordinals, the Arrow output and memory
accounting are left out.
-/

namespace StreamFusion.Deduplicate

open Wire State Grouped Changelog

/-- The plan of the operator. -/
structure Plan where
  processingTime : Bool
  keepLast : Bool
  generateInsert : Bool
  generateUpdateBefore : Bool
  inputChangelog : Bool
  deriving DecidableEq

/-- A row of the input: its key, its RowKind byte, its ordering time, the encoding of its visible
columns and its bytes in the stored-row column, if there is one. -/
structure InputRow where
  key : StateKey
  kind : Int8
  order : Except StateError Int64
  row : Bytes
  sidecar : Option Bytes

/-- The row of a change: an input row, or one read from the state. -/
inductive Content where
  | input (row : Bytes)
  | stored (row : Bytes)
  deriving DecidableEq

/-- An output row with its key. -/
abbrev OutputRow := Change (StateKey × Content)

/-- The copy of a key's value that a batch works on. -/
structure StagedValue where
  value : Option Bytes
  /-- The time that a row of the row-time mode has to beat. -/
  extremum : Option Int64
  touched : Bool
  deriving DecidableEq, Inhabited

/-! ## The stored value of the row-time mode -/

/-- The stored value of the row-time mode: a time and the bytes of a row. -/
def encodeValue (orderMillis : Int64) (row : Option Bytes) : Bytes :=
  leBytes 8 orderMillis.toUInt64.toNat ++ row.getD []

/-- The time of a stored value. -/
def orderOf (value : Bytes) : Int64 := (UInt64.ofNat (leNat (value.take 8))).toInt64

/-- Reads the time of a stored value. -/
def decodeOrder (value : Bytes) : Except StateError Int64 :=
  if 8 ≤ value.length then .ok (orderOf value)
  else .error (.execution "deduplicate state value is shorter than its ordering field")

/-- Reads the row of a stored value. -/
def decodeStoredRow (value : Bytes) : Except StateError Bytes :=
  if 8 < value.length then .ok (value.drop 8)
  else .error (.execution "deduplicate state has no stored BinaryRow for retraction")

theorem orderOf_encodeValue (orderMillis : Int64) (row : Option Bytes) :
    orderOf (encodeValue orderMillis row) = orderMillis := by
  have htake : (encodeValue orderMillis row).take 8 = leBytes 8 orderMillis.toUInt64.toNat := by
    rw [encodeValue]
    exact List.take_left' (length_leBytes _ _)
  rw [orderOf, htake, leNat_leBytes_of_lt orderMillis.toUInt64.toNat_lt, UInt64.ofNat_toNat]
  rfl

theorem length_encodeValue (orderMillis : Int64) (row : Option Bytes) :
    (encodeValue orderMillis row).length = 8 + (row.getD []).length := by
  rw [encodeValue, List.length_append, length_leBytes]

/-! ## One row -/

/-- What a row of a batch does: nothing, or it is emitted, or it is emitted and its key gets a new
value. -/
inductive Outcome where
  | skip
  | emit (rows : List OutputRow)
  | store (value : Option Bytes) (rows : List OutputRow)

/-- The value of a key after a row, and what the row emits. -/
def Outcome.applied (value : Option Bytes) : Outcome → Option Bytes × List OutputRow
  | skip => (value, [])
  | emit rows => (value, rows)
  | store value rows => (value, rows)

namespace InputRow

variable (row : InputRow)

/-- INSERT and UPDATE_AFTER. -/
def upserts : Bool := row.kind = 0 || row.kind = 2

/-- UPDATE_BEFORE and DELETE. -/
def retracts : Bool := row.kind = 1 || row.kind = 3

/-- The row itself as a change. -/
def shown (kind : Kind) : OutputRow := ⟨kind, (row.key, .input row.row)⟩

/-- A stored row of the row's key. -/
def past (kind : Kind) (stored : Bytes) : OutputRow := ⟨kind, (row.key, .stored stored)⟩

end InputRow

namespace Plan

variable (plan : Plan)

/-- The first row of a key is emitted. -/
def selectProcessingTimeFirst (value : Option Bytes) (row : InputRow) : Outcome :=
  if value.isSome then .skip else .store (some [1]) [row.shown .insert]

/-- A row replaces the row that is stored, unless the two are equal. -/
def replace (value : Option Bytes) (row : InputRow) (current : Bytes) : Outcome :=
  match value with
  | none => .store (some current) [row.shown .insert]
  | some previous =>
    if previous = current then .skip
    else .store (some current)
      ((if plan.generateUpdateBefore then [row.past .updateBefore previous] else []) ++
        [row.shown .updateAfter])

/-- A plan that emits updates only has no state. -/
def selectProcessingTimeLast (value : Option Bytes) (row : InputRow) : Outcome :=
  if !plan.generateInsert && !plan.generateUpdateBefore then .emit [row.shown .updateAfter]
  else plan.replace value row row.row

/-- A row of a changelog replaces or deletes the row of its key. -/
def selectChangelog (value : Option Bytes) (row : InputRow) : Except StateError Outcome :=
  match row.sidecar with
  | none => .error (.execution "changelog deduplicate requires opaque Flink BinaryRow bytes")
  | some current =>
    if row.upserts then
      .ok (plan.replace value row current)
    else if row.retracts then
      match value with
      | none => .ok .skip
      | some previous => .ok (.store none [row.past .delete previous])
    else
      .error (.execution ("unknown Flink RowKind byte " ++ toString row.kind))

/-- Does a time replace what is stored?  On a tie the last row wins. -/
def wins (extremum : Option Int64) (order : Int64) : Bool :=
  match extremum with
  | none => true
  | some time => if plan.keepLast then time ≤ order else order < time

/-- The bytes of a row that the state keeps for a retraction. -/
def currentStored (row : InputRow) : Option Bytes :=
  match row.sidecar with
  | some bytes => some bytes
  | none => if plan.generateUpdateBefore then some row.row else none

/-- The kind of a winner. -/
def rowtimeKind (previousOrder : Option Int64) : Kind :=
  if previousOrder.isNone && (plan.generateInsert || plan.generateUpdateBefore) then .insert
  else .updateAfter

/-- The stored row that a winner retracts. -/
def previousStored (value : Option Bytes) : Except StateError (Option Bytes) :=
  if plan.generateUpdateBefore then value.mapM decodeStoredRow else .ok none

/-- A row of the row-time mode replaces the stored one if it wins. -/
def selectRowtime (value : Option Bytes) (extremum : Option Int64) (row : InputRow) :
    Except StateError Outcome := do
  let order ← row.order
  if plan.wins extremum order then
    let previousOrder ← value.mapM decodeOrder
    let previous ← plan.previousStored value
    return .store (some (encodeValue order (plan.currentStored row)))
      ((previous.map (row.past .updateBefore)).toList ++
        [row.shown (plan.rowtimeKind previousOrder)])
  else
    return .skip

/-- Does the plan compare times? -/
def isRowtime : Bool := !plan.inputChangelog && !plan.processingTime

/-- What a row does. -/
def outcome (value : Option Bytes) (extremum : Option Int64) (row : InputRow) :
    Except StateError Outcome :=
  if plan.inputChangelog then plan.selectChangelog value row
  else if plan.processingTime then
    .ok (if plan.keepLast then plan.selectProcessingTimeLast value row
      else selectProcessingTimeFirst value row)
  else plan.selectRowtime value extremum row

/-- The running maximum or minimum of the times of a key. -/
def nextExtremum (extremum : Option Int64) (row : InputRow) : Option Int64 :=
  match row.order with
  | .error _ => extremum
  | .ok order =>
    if plan.isRowtime then
      match extremum with
      | none => some order
      | some time => some (if plan.keepLast then max time order else min time order)
    else
      none

/-- A row of a batch.  A row that is emitted needs a 32-bit position. -/
def select (entry : StagedValue) (row : InputRow × Nat) :
    Except StateError (StagedValue × List OutputRow) := do
  let extremum := plan.nextExtremum entry.extremum row.1
  match ← plan.outcome entry.value entry.extremum row.1 with
  | .skip => return ({ entry with extremum := extremum }, [])
  | .emit rows =>
    if row.2 < 2 ^ 31 then return ({ entry with extremum := extremum }, rows)
    else .error (.execution "deduplicate batch exceeds Int32 indexing")
  | .store value rows =>
    if row.2 < 2 ^ 31 then return (⟨value, extremum, true⟩, rows)
    else .error (.execution "deduplicate batch exceeds Int32 indexing")

/-- The copy of a stored value. -/
def load (bytes : Option Bytes) : Except StateError StagedValue := do
  let extremum ← if plan.isRowtime then bytes.mapM decodeOrder else .ok none
  return ⟨bytes, extremum, false⟩

/-- The operator. -/
def operator : RowOperator InputRow OutputRow StagedValue where
  key row := row.key
  load := plan.load
  step := plan.select
  touched entry := entry.touched
  save entry := entry.value

/-- A batch. -/
def processArrow (store : Store) (rows : List InputRow) :
    Except StateError (Store × List OutputRow) :=
  plan.operator.process store rows

/-- Batches one after the other. -/
def processBatches (store : Store) (batches : List (List InputRow)) :
    Except StateError (Store × List OutputRow) :=
  plan.operator.processBatches store batches

/-! ## Row by row -/

/-- The time that a stored value says a row has to beat. -/
def storedExtremum (value : Option Bytes) : Option Int64 :=
  if plan.isRowtime then value.map orderOf else none

/-- The value of a key, row by row. -/
def machine : Machine StateKey InputRow OutputRow (Option Bytes) where
  key row := row.key
  step value row :=
    match plan.outcome value (plan.storedExtremum value) row with
    | .ok outcome => outcome.applied value
    | .error _ => (value, [])

/-- A value of the row-time mode has its time and, for a retraction, its row. -/
def Storable (value : Option Bytes) : Prop :=
  plan.isRowtime = true → ∀ bytes ∈ value,
    8 ≤ bytes.length ∧ (plan.generateUpdateBefore = true → 8 < bytes.length)

/-- What a row of each mode has. -/
structure Valid (row : InputRow) : Prop where
  changelog : plan.inputChangelog = true →
    row.sidecar.isSome = true ∧ (row.upserts = true ∨ row.retracts = true)
  rowtime : plan.isRowtime = true → (∃ order, row.order = .ok order) ∧
    (plan.generateUpdateBefore = true → (plan.currentStored row).getD [] ≠ [])

/-- The copy `entry` stands for the stored value. -/
def Stands (entry : StagedValue) (value : Option Bytes) : Prop :=
  entry.value = value ∧ entry.extremum = plan.storedExtremum value ∧ plan.Storable value

variable {plan}

variable {value : Option Bytes}

theorem load_storable (h : plan.Storable value) :
    plan.load value = .ok ⟨value, plan.storedExtremum value, false⟩ := by
  unfold load storedExtremum
  by_cases hrow : plan.isRowtime = true
  · rw [if_pos hrow, if_pos hrow]
    rcases value with _ | bytes
    · rfl
    · have hlength := (h hrow bytes rfl).1
      show (do return (⟨_, ← some <$> decodeOrder bytes, _⟩ : StagedValue)) = _
      rw [decodeOrder, if_pos hlength]
      rfl
  · rw [if_neg hrow, if_neg hrow]
    rfl

variable {row : InputRow}

/-- The modes without times. -/
theorem outcome_ok (hvalid : plan.Valid row) (hrow : ¬ plan.isRowtime = true)
    (value : Option Bytes) (extremum : Option Int64) :
    ∃ outcome, plan.outcome value extremum row = .ok outcome := by
  unfold outcome
  by_cases hchangelog : plan.inputChangelog = true
  · obtain ⟨hsidecar, hkind⟩ := hvalid.changelog hchangelog
    obtain ⟨current, hcurrent⟩ := Option.isSome_iff_exists.mp hsidecar
    rw [if_pos hchangelog]
    unfold selectChangelog
    rw [hcurrent]
    dsimp only
    by_cases hupserts : row.upserts = true
    · exact ⟨_, if_pos hupserts⟩
    · rw [if_neg hupserts, if_pos (hkind.resolve_left hupserts)]
      rcases value with _ | previous
      · exact ⟨_, rfl⟩
      · exact ⟨_, rfl⟩
  · rw [if_neg hchangelog]
    by_cases hprocessing : plan.processingTime = true
    · exact ⟨_, if_pos hprocessing⟩
    · simp [isRowtime, hchangelog, hprocessing] at hrow

variable {order : Int64} {extremum : Option Int64}

/-- The extremum of a row that wins is the row's time. -/
theorem nextExtremum_eq (hrow : plan.isRowtime = true) (horder : row.order = .ok order) :
    plan.nextExtremum extremum row = if plan.wins extremum order then some order else extremum := by
  unfold nextExtremum wins
  rw [horder]
  dsimp only
  rw [if_pos hrow]
  rcases extremum with _ | time
  · rfl
  · by_cases hle : time ≤ order
    · have hlt := Int64.not_lt.mpr hle
      cases plan.keepLast <;> simp [max, min, hle, hlt]
    · have hlt := Int64.not_le.mp hle
      cases plan.keepLast <;> simp [max, min, hle, hlt]

theorem mapM_decodeOrder (h : ∀ bytes ∈ value, 8 ≤ bytes.length) :
    value.mapM decodeOrder = .ok (value.map orderOf) := by
  rcases value with _ | bytes
  · rfl
  · show some <$> decodeOrder bytes = _
    rw [decodeOrder, if_pos (h bytes rfl)]
    rfl

theorem mapM_decodeStoredRow (h : ∀ bytes ∈ value, 8 < bytes.length) :
    value.mapM decodeStoredRow = .ok (value.map (List.drop 8)) := by
  rcases value with _ | bytes
  · rfl
  · show some <$> decodeStoredRow bytes = _
    rw [decodeStoredRow, if_pos (h bytes rfl)]
    rfl

theorem outcome_of_rowtime (hrow : plan.isRowtime = true) (value : Option Bytes)
    (extremum : Option Int64)
    (row : InputRow) : plan.outcome value extremum row = plan.selectRowtime value extremum row := by
  have hmodes : plan.inputChangelog = false ∧ plan.processingTime = false :=
    by simpa [isRowtime] using hrow
  simp [outcome, hmodes]

/-- The row-time mode: a row that wins is stored with its time, and one that does not leaves the
extremum as it is. -/
theorem outcome_rowtime (hvalid : plan.Valid row) (hrow : plan.isRowtime = true)
    (hvalue : plan.Storable value) :
    (∃ bytes rows, plan.outcome value (plan.storedExtremum value) row =
        .ok (.store (some bytes) rows) ∧ plan.Storable (some bytes) ∧
        plan.nextExtremum (plan.storedExtremum value) row = some (orderOf bytes)) ∨
      plan.outcome value (plan.storedExtremum value) row = .ok .skip ∧
        plan.nextExtremum (plan.storedExtremum value) row = plan.storedExtremum value := by
  obtain ⟨⟨order, horder⟩, hstored⟩ := hvalid.rowtime hrow
  rw [outcome_of_rowtime hrow, selectRowtime, horder, Except.ok_bind]
  by_cases hwins : plan.wins (plan.storedExtremum value) order = true
  · left
    have hprevious : ∃ previous, plan.previousStored value = .ok previous := by
      unfold previousStored
      by_cases hbefore : plan.generateUpdateBefore = true
      · rw [if_pos hbefore]
        exact ⟨_, mapM_decodeStoredRow fun bytes hbytes => (hvalue hrow bytes hbytes).2 hbefore⟩
      · exact ⟨_, if_neg hbefore⟩
    obtain ⟨previous, hprevious⟩ := hprevious
    rw [if_pos hwins, mapM_decodeOrder fun bytes hbytes => (hvalue hrow bytes hbytes).1,
      Except.ok_bind, hprevious, Except.ok_bind]
    refine ⟨_, _, rfl, ?_, ?_⟩
    · intro _ bytes hbytes
      cases hbytes
      rw [length_encodeValue]
      refine ⟨by omega, fun hbefore => ?_⟩
      have := List.length_pos_of_ne_nil (hstored hbefore)
      omega
    · rw [orderOf_encodeValue]
      exact (nextExtremum_eq hrow horder).trans (if_pos hwins)
  · right
    rw [if_neg hwins]
    exact ⟨rfl, (nextExtremum_eq hrow horder).trans (if_neg hwins)⟩

theorem storedExtremum_of_not_rowtime (h : ¬ plan.isRowtime = true) (value : Option Bytes) :
    plan.storedExtremum value = none := if_neg h

theorem nextExtremum_of_not_rowtime (h : ¬ plan.isRowtime = true) (row : InputRow) :
    plan.nextExtremum none row = none := by
  unfold nextExtremum
  cases row.order
  · rfl
  · exact if_neg h

variable {outcome : Outcome}

theorem machine_step (h : plan.outcome value (plan.storedExtremum value) row = .ok outcome) :
    plan.machine.step value row = outcome.applied value := by
  unfold machine
  dsimp only
  rw [h]

variable {entry : StagedValue} {n : Nat}

/-- A row that leaves the stored value, and one that replaces it, on a copy. -/
theorem select_of_outcome (hn : n < 2 ^ 31)
    (hextremum : entry.extremum = plan.storedExtremum entry.value)
    (houtcome : plan.outcome entry.value (plan.storedExtremum entry.value) row = .ok outcome)
    (hkept : (∀ value rows, outcome ≠ .store value rows) →
      plan.nextExtremum entry.extremum row = entry.extremum ∧ plan.Storable entry.value)
    (hstored : ∀ value rows, outcome = .store value rows →
      plan.nextExtremum entry.extremum row = plan.storedExtremum value ∧ plan.Storable value) :
    ∃ entry', plan.select entry (row, n) = .ok (entry', (plan.machine.step entry.value row).2) ∧
      plan.Stands entry' (plan.machine.step entry.value row).1 ∧
      (entry'.touched = false →
        entry.touched = false ∧ (plan.machine.step entry.value row).1 = entry.value) := by
  have hcopy : plan.outcome entry.value entry.extremum row = .ok outcome := by
    rw [hextremum]
    exact houtcome
  rw [machine_step houtcome]
  unfold select
  rw [hcopy]
  cases outcome with
  | skip =>
    obtain ⟨hnext, hvalue⟩ := hkept (by simp)
    exact ⟨_, rfl, ⟨rfl, hnext.trans hextremum, hvalue⟩, fun ht => ⟨ht, rfl⟩⟩
  | emit rows =>
    obtain ⟨hnext, hvalue⟩ := hkept (by simp)
    exact ⟨_, if_pos hn, ⟨rfl, hnext.trans hextremum, hvalue⟩, fun ht => ⟨ht, rfl⟩⟩
  | store value rows =>
    obtain ⟨hnext, hvalue⟩ := hstored value rows rfl
    exact ⟨_, if_pos hn, ⟨rfl, hnext, hvalue⟩, fun ht => absurd ht (by simp)⟩

/-- A valid row on a copy does what it does to the stored value. -/
theorem select_stands (hvalid : plan.Valid row) (hn : n < 2 ^ 31) (h : plan.Stands entry value) :
    ∃ entry', plan.select entry (row, n) = .ok (entry', (plan.machine.step value row).2) ∧
      plan.Stands entry' (plan.machine.step value row).1 ∧
      (entry'.touched = false → entry.touched = false ∧
          (plan.machine.step value row).1 = value) := by
  obtain ⟨rfl, hextremum, hstorable⟩ := h
  by_cases hrow : plan.isRowtime = true
  · rcases outcome_rowtime hvalid hrow hstorable with ⟨bytes, rows, houtcome, hbytes, hnext⟩ |
      ⟨houtcome, hnext⟩
    · refine select_of_outcome hn hextremum houtcome (fun hno => absurd rfl (hno _ _)) ?_
      intro _ _ heq
      cases heq
      rw [hextremum, hnext, storedExtremum, if_pos hrow]
      exact ⟨rfl, hbytes⟩
    · refine select_of_outcome hn hextremum houtcome (fun _ => ⟨?_, hstorable⟩) ?_
      · rw [hextremum, hnext]
      · intro _ _ heq
        cases heq
  · obtain ⟨outcome, houtcome⟩ :=
      outcome_ok hvalid hrow entry.value (plan.storedExtremum entry.value)
    have hnone := hextremum.trans (storedExtremum_of_not_rowtime hrow _)
    have hnext := nextExtremum_of_not_rowtime hrow row
    refine select_of_outcome hn hextremum houtcome (fun _ => ⟨?_, hstorable⟩) (fun _ _ _ => ?_)
    · rw [hnone, hnext]
    · rw [hnone, hnext, storedExtremum_of_not_rowtime hrow]
      exact ⟨rfl, fun h => absurd h hrow⟩

variable (plan) in
/-- The operator refines the machine of one key. -/
theorem operator_refines :
    plan.operator.Refines plan.machine id plan.Storable plan.Valid plan.Stands where
  key := rfl
  load hvalue := ⟨_, load_storable hvalue, ⟨rfl, rfl, hvalue⟩, rfl⟩
  step hvalid hn hstands := select_stands hvalid hn hstands
  save hstands _ := hstands.1
  good hstands := hstands.2.2

end Plan

end StreamFusion.Deduplicate
