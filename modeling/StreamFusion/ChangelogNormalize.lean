import StreamFusion.Lib.Changelog
import StreamFusion.Lib.WrappingInt
import StreamFusion.State.Staged

/-!
# Changelog normalisation

The operator turns an upsert stream into a changelog.  It keeps the last row of every key and emits
what a new row changes: an insertion for a new key, an update for a row that differs, a deletion for
a removed one, and nothing for a row that is already there.  A row that does not pass the plan's
filter removes its key.

The first part is the operator with its time to live.  A stored row carries the time it expires at,
and a plan without a time to live writes the largest time there is.  The second part is what the
operator is for: the value of a key after a row (`next`) and the changes that lead there.  Without a
time to live the two agree as long as the clock stays below that largest time (`run_timed`), and the
changes of a key can be played back (`changelog_normalize_replays`).

Schema checks, statistics and memory accounting are left out.  A row is its Arrow row encoding; the
comparison of rows with floats or maps decodes the two encodings and is a parameter of the plan.
-/

namespace StreamFusion.ChangelogNormalize

open Wire State Grouped Changelog List Machine Function

/-- The plan of the operator. -/
structure Plan where
  stateTtlMillis : UInt64
  generateUpdateBefore : Bool
  hasFilter : Bool
  /-- The semantic comparison of two encoded rows, for schemas that need one. -/
  equaliser : Option (Bytes → Bytes → Bool)

/-- A row of the input: its key, its RowKind byte, its encoding and the result of the filter. -/
structure InputRow where
  key : StateKey
  kind : Int8
  row : Bytes
  filterResult : Option Bool
  deriving DecidableEq

/-- The row of a key and when it expires. -/
structure StoredRow where
  expiresAt : Int64
  row : Bytes
  deriving DecidableEq

/-- The copy of a key's row that a batch works on. -/
structure StagedValue where
  value : Option StoredRow
  touched : Bool
  deriving DecidableEq, Inhabited

/-- An output row with its key. -/
abbrev OutputRow := Change (StateKey × Bytes)

/-! ## The state of a key -/

/-- What a stored row starts with. -/
def stateMagic : Bytes := [83, 70, 78, 67]

/-- The version that is written. -/
def stateVersion : UInt8 := 1

/-- The stored form of a row. -/
def encodeState (value : StoredRow) : Bytes :=
  stateMagic ++ stateVersion :: (leBytes 8 value.expiresAt.toUInt64.toNat ++
    (leBytes 4 value.row.length ++ value.row))

/-- Reads a stored row. -/
def decodeState (bytes : Bytes) : Except StateError StoredRow :=
  if bytes.length < 17 ∨ bytes.take 4 ≠ stateMagic ∨ bytes[4]? ≠ some stateVersion then
    .error (.execution "invalid native changelog normalize state")
  else if bytes.length ≠ saturatingAdd 17 (leNat ((bytes.drop 13).take 4)) then
    .error (.execution "native changelog normalize state length is invalid")
  else
    .ok ⟨(UInt64.ofNat (leNat ((bytes.drop 5).take 8))).toInt64, bytes.drop 17⟩

/-- The length of a row is written in four bytes. -/
theorem decodeState_encodeState {value : StoredRow} (h : value.row.length < 2 ^ 32) :
    decodeState (encodeState value) = .ok value := by
  obtain ⟨time, htime⟩ : ∃ time, leBytes 8 value.expiresAt.toUInt64.toNat = time := ⟨_, rfl⟩
  obtain ⟨size, hsize⟩ : ∃ size, leBytes 4 value.row.length = size := ⟨_, rfl⟩
  have htimeLength : time.length = 8 := by rw [← htime, length_leBytes]
  have hsizeLength : size.length = 4 := by rw [← hsize, length_leBytes]
  have hlength : leNat size = value.row.length := by rw [← hsize, leNat_leBytes_of_lt h]
  have hexpires : (UInt64.ofNat (leNat time)).toInt64 = value.expiresAt := by
    rw [← htime, leNat_leBytes_of_lt value.expiresAt.toUInt64.toNat_lt, UInt64.ofNat_toNat]
    rfl
  have hsum : saturatingAdd 17 value.row.length = 17 + value.row.length := by
    rw [saturatingAdd, usizeLimit]
    omega
  have hdrop : (encodeState value).drop 5 = time ++ (size ++ value.row) := by
    rw [encodeState, htime, hsize]
    rfl
  have htake : ((encodeState value).drop 5).take 8 = time := by
    rw [hdrop, ← htimeLength, take_left]
  have hafter : (encodeState value).drop 13 = size ++ value.row := by
    rw [show 13 = 5 + 8 from rfl, ← drop_drop, hdrop, ← htimeLength, drop_left]
  have hrow : (encodeState value).drop 17 = value.row := by
    rw [show 17 = 13 + 4 from rfl, ← drop_drop, hafter, ← hsizeLength, drop_left]
  have htotal : (encodeState value).length = 17 + value.row.length := by
    simp [encodeState, stateMagic]
    omega
  have hhead : ¬ ((encodeState value).length < 17 ∨ (encodeState value).take 4 ≠ stateMagic ∨
      (encodeState value)[4]? ≠ some stateVersion) := by
    rw [htotal]
    simp [encodeState, stateMagic]
  rw [decodeState, if_neg hhead, htake, hafter, ← hsizeLength, take_left, hlength, htotal, hsum,
    if_neg (by simp), hexpires, hrow]

/-! ## One row -/

/-- When a row of this moment expires. -/
def expiration (nowMillis : Int64) (ttlMillis : UInt64) : Int64 :=
  if ttlMillis = 0 then Int64.maxValue
  else Int64.ofInt (I64.saturatingAdd nowMillis.toInt (min ttlMillis.toNat I64.max))

namespace InputRow

/-- The RowKind bytes of Flink. -/
def IsChange (row : InputRow) : Prop :=
  row.kind = 0 ∨ row.kind = 1 ∨ row.kind = 2 ∨ row.kind = 3

instance : DecidablePred IsChange := fun _ => inferInstanceAs (Decidable (_ ∨ _))

/-- INSERT and UPDATE_AFTER. -/
def upserts (row : InputRow) : Bool := row.kind = 0 || row.kind = 2

end InputRow

namespace StagedValue

/-- Forgets an expired row. -/
def expire (nowMillis : Int64) (entry : StagedValue) : StagedValue :=
  if entry.value.any fun value => value.expiresAt ≤ nowMillis then ⟨none, true⟩ else entry

end StagedValue

namespace Plan

variable (plan : Plan)

/-- Does the filter of the plan let a row pass? -/
def passesFilter (row : InputRow) : Bool :=
  if plan.hasFilter then row.filterResult = some true else true

/-- Are two rows the same to the operator? -/
def rowsEqual (current previous : Bytes) : Bool :=
  match plan.equaliser with
  | none => current = previous
  | some equaliser => equaliser current previous

/-- What is stored of a row. -/
def stored (nowMillis : Int64) (row : InputRow) : StoredRow :=
  ⟨expiration nowMillis plan.stateTtlMillis, row.row⟩

/-- An INSERT or UPDATE_AFTER.  A row that equals the stored one is not filtered. -/
def upsert (nowMillis : Int64) (entry : StagedValue) (row : InputRow) :
    StagedValue × List OutputRow :=
  match entry.value with
  | none =>
    if plan.passesFilter row then
      (⟨some (plan.stored nowMillis row), true⟩, [⟨.insert, (row.key, row.row)⟩])
    else
      (entry, [])
  | some previous =>
    if plan.stateTtlMillis = 0 && plan.rowsEqual row.row previous.row then
      (entry, [])
    else if plan.passesFilter row then
      (⟨some (plan.stored nowMillis row), true⟩,
        (if plan.generateUpdateBefore then [⟨.updateBefore, (row.key, previous.row)⟩] else []) ++
          [⟨.updateAfter, (row.key, row.row)⟩])
    else
      (⟨none, true⟩, [⟨.delete, (row.key, previous.row)⟩])

/-- An UPDATE_BEFORE or DELETE. -/
def remove (entry : StagedValue) (row : InputRow) : StagedValue × List OutputRow :=
  match entry.value with
  | some previous => (⟨none, true⟩, [⟨.delete, (row.key, previous.row)⟩])
  | none => (entry, [])

/-- What a row does to the row of its key. -/
def change (nowMillis : Int64) (entry : StagedValue) (row : InputRow) :
    StagedValue × List OutputRow :=
  if row.upserts then plan.upsert nowMillis entry row else remove entry row

/-- A row of a batch that is processed at the time `row.1`. -/
def rowStep (entry : StagedValue) (row : (Int64 × InputRow) × Nat) :
    Except StateError (StagedValue × List OutputRow) :=
  if row.2 < 2 ^ 31 then
    if row.1.2.IsChange then
      .ok (plan.change row.1.1 (entry.expire row.1.1) row.1.2)
    else
      .error (.execution ("unknown Flink RowKind byte " ++ toString row.1.2.kind))
  else
    .error (.execution "changelog normalize batch exceeds Int32 indexing")

/-- The operator. -/
def operator : RowOperator (Int64 × InputRow) OutputRow StagedValue where
  key row := row.2.key
  load bytes := do return ⟨← bytes.mapM decodeState, false⟩
  step := plan.rowStep
  touched entry := entry.touched
  save entry := entry.value.map encodeState

/-- The rows of a batch and the time they are processed at. -/
def timed (batch : Int64 × List InputRow) : List (Int64 × InputRow) :=
  batch.2.map fun row => (batch.1, row)

/-- A batch. -/
def processArrow (store : Store) (nowMillis : Int64) (rows : List InputRow) :
    Except StateError (Store × List OutputRow) :=
  plan.operator.process store (timed (nowMillis, rows))

/-- A sequence of batches, each at its own time. -/
def processBatches (store : Store) (batches : List (Int64 × List InputRow)) :
    Except StateError (Store × List OutputRow) :=
  plan.operator.processBatches store (batches.map timed)

/-! ## Row by row -/

/-- The row of a key, row by row. -/
def machine : Machine StateKey (Int64 × InputRow) OutputRow (Option StoredRow) where
  key row := row.2.key
  step value row :=
    let (entry, out) := plan.change row.1 (StagedValue.expire row.1 ⟨value, false⟩) row.2
    (entry.value, out)

/-- The row fits the format. -/
def Storable (value : Option StoredRow) : Prop := ∀ stored ∈ value, stored.row.length < 2 ^ 32

/-- The row is a change and fits the format. -/
def Valid (row : Int64 × InputRow) : Prop := row.2.IsChange ∧ row.2.row.length < 2 ^ 32

variable {plan}

/-- What a row does depends on the value of the copy only, and a copy it does not touch is as it
was. -/
theorem change_spec (nowMillis : Int64) (entry : StagedValue) (row : InputRow) :
    (plan.change nowMillis entry row).1.value =
      (plan.change nowMillis ⟨entry.value, false⟩ row).1.value ∧
      (plan.change nowMillis entry row).2 = (plan.change nowMillis ⟨entry.value, false⟩ row).2 ∧
      ((plan.change nowMillis entry row).1.touched = false →
        entry.touched = false ∧ (plan.change nowMillis entry row).1.value = entry.value) := by
  obtain ⟨value, touched⟩ := entry
  unfold change upsert remove
  rcases value with _ | previous <;> dsimp only <;> split_ifs <;> simp

theorem expire_value (nowMillis : Int64) (entry : StagedValue) :
    (entry.expire nowMillis).value = (StagedValue.expire nowMillis ⟨entry.value, false⟩).value ∧
      ((entry.expire nowMillis).touched = false →
        entry.touched = false ∧ (entry.expire nowMillis).value = entry.value) := by
  unfold StagedValue.expire
  split_ifs <;> simp

variable {nowMillis : Int64}

theorem storable_change {entry : StagedValue} {row : InputRow} (h : Storable entry.value)
    (hrow : row.row.length < 2 ^ 32) : Storable (plan.change nowMillis entry row).1.value := by
  obtain ⟨value, touched⟩ := entry
  unfold change upsert remove
  rcases value with _ | previous <;> dsimp only <;> split_ifs <;>
    simp_all [Storable, stored]

theorem storable_expire (entry : StagedValue) (h : Storable entry.value) :
    Storable (entry.expire nowMillis).value := by
  unfold StagedValue.expire
  split
  · simp [Storable]
  · exact h

variable (plan) in
/-- The operator refines the machine of one key. -/
theorem operator_refines : plan.operator.Refines plan.machine
    (Option.map encodeState) Storable Valid
      (fun entry value => entry.value = value ∧ Storable value) where
  key := rfl
  load {value} hvalue := by
    refine ⟨⟨value, false⟩, ?_, ⟨rfl, hvalue⟩, rfl⟩
    rcases value with _ | stored
    · rfl
    · show (do return (⟨← some <$> decodeState (encodeState stored), false⟩ : StagedValue)) = _
      rw [decodeState_encodeState (hvalue stored rfl)]
      rfl
  step {entry value row n} hvalid hn hstands := by
    obtain ⟨rfl, hstorable⟩ := hstands
    have hstep : plan.operator.step entry (row, n) =
        .ok (plan.change row.1 (entry.expire row.1) row.2) := by
      show plan.rowStep entry (row, n) = _
      rw [rowStep, if_pos hn, if_pos hvalid.1]
    obtain ⟨hvalue, hout, huntouched⟩ := plan.change_spec row.1 (entry.expire row.1) row.2
    obtain ⟨hexpired, hexpiredTouched⟩ := expire_value row.1 entry
    obtain ⟨hvalue', hout', -⟩ :=
      plan.change_spec row.1 (StagedValue.expire row.1 ⟨entry.value, false⟩) row.2
    rw [hexpired] at hvalue hout
    refine ⟨(plan.change row.1 (entry.expire row.1) row.2).1, hstep.trans ?_,
      ⟨?_, ?_⟩, fun ht => ?_⟩
    · exact congrArg Except.ok (Prod.ext rfl (hout.trans hout'.symm))
    · exact hvalue.trans hvalue'.symm
    · exact storable_change (storable_expire ⟨entry.value, false⟩ hstorable) hvalid.2
    · obtain ⟨htouched, hkept⟩ := huntouched ht
      obtain ⟨htouched', hkept'⟩ := hexpiredTouched htouched
      refine ⟨htouched', ?_⟩
      exact hvalue'.trans (hvalue.symm.trans (hkept.trans hkept'))
  save hstands _ := by rw [← hstands.1]; rfl
  good hstands := hstands.2

/-! ## What it is for -/

variable (plan)

/-- The row of a key after an input row.  An upsert that equals the row leaves it, and one that does
not pass the filter removes it. -/
def next (current : Option Bytes) (row : InputRow) : Option Bytes :=
  if row.upserts then
    if current.any (plan.rowsEqual row.row) then current
    else if plan.passesFilter row then some row.row
    else none
  else
    none

/-- The rows of the keys, and the changes from one to the next. -/
def normalizer : Machine StateKey InputRow OutputRow (Option Bytes) where
  key := InputRow.key
  step current row := (plan.next current row, changesOf row.key current (plan.next current row))

variable {plan}

/-- Without a time to live a stored row expires at the largest time. -/
def kept (row : Bytes) : StoredRow := ⟨Int64.maxValue, row⟩

theorem expire_kept (hnow : nowMillis < Int64.maxValue) (current : Option Bytes) (touched : Bool) :
    StagedValue.expire nowMillis ⟨current.map kept, touched⟩ = ⟨current.map kept, touched⟩ := by
  rcases current with _ | row
  · rfl
  · refine if_neg ?_
    simpa [kept] using Int64.ne_of_lt hnow

section

variable (httl : plan.stateTtlMillis = 0) (hbefore : plan.generateUpdateBefore = true)
  (hequal : ∀ row, plan.rowsEqual row row = true)
include httl hbefore hequal

/-- A row is replaced or removed, and the difference is emitted. -/
theorem change_kept (nowMillis : Int64) (current : Option Bytes) (row : InputRow) :
    (plan.change nowMillis ⟨current.map kept, false⟩ row).1.value =
      (plan.next current row).map kept ∧
      (plan.change nowMillis ⟨current.map kept, false⟩ row).2 =
        changesOf row.key current (plan.next current row) := by
  have hstored : plan.stored nowMillis row = kept row.row := by
    rw [stored, expiration, if_pos httl]
    rfl
  unfold change next
  by_cases hupserts : row.upserts = true
  · rw [if_pos hupserts, if_pos hupserts, upsert, hstored]
    rcases current with _ | previous
    · by_cases hpasses : plan.passesFilter row = true <;> simp [hpasses, changesOf]
    · by_cases hsame : plan.rowsEqual row.row previous = true
      · simp [httl, hsame, kept, changesOf]
      · -- rows that the comparison tells apart are different rows
        have hne : previous ≠ row.row := fun h => hsame (by rw [h]; exact hequal row.row)
        by_cases hpasses : plan.passesFilter row = true <;>
          simp [httl, hsame, hpasses, hbefore, kept, changesOf, hne]
  · rw [if_neg hupserts, if_neg hupserts, remove]
    rcases current with _ | previous <;> simp [kept, changesOf]

/-- Without a time to live and before the largest time, the operator is the normaliser. -/
theorem run_timed {rows : List (Int64 × InputRow)} (hnow : ∀ row ∈ rows, row.1 < Int64.maxValue) :
    (plan.machine.run (fun _ => none) rows).2 =
      (plan.normalizer.run (fun _ => none) (rows.map Prod.snd)).2 := by
  rw [← run_comap]
  refine (run_simulates (plan.normalizer.comap Prod.snd) plan.machine rfl
    (fun rest value current => value = current.map kept ∧ ∀ row ∈ rest, row.1 < Int64.maxValue)
    (fun row rest value current hsim => ?_) rows (fun _ => none) (fun _ => none)
    fun key => ⟨rfl, fun row hrow => ?_⟩).1
  · obtain ⟨rfl, hrows⟩ := hsim
    obtain ⟨hrow, hrest⟩ := forall_mem_cons.mp hrows
    obtain ⟨hvalue, hout⟩ := change_kept httl hbefore hequal row.1 current row.2
    rw [← expire_kept hrow current false] at hvalue hout
    exact ⟨hout, hvalue, hrest⟩
  · exact hnow row (mem_rowsOf.mp hrow).1

end

/-! ## Playing it back -/

variable (plan)

/-- The row that a key shows after its last input row: the last upserted row if that passes the
filter, or a row that the comparison does not tell from it, and otherwise none. -/
def Shows (last : Option InputRow) (table : Option Bytes) : Prop :=
  match last with
  | some row =>
    if row.upserts && plan.passesFilter row then
      ∃ shown, table = some shown ∧ (shown = row.row ∨ plan.rowsEqual row.row shown = true)
    else
      table = none
  | none => table = none

/-- The changes of every key are well formed, and played back they show its last row. -/
def Replays (rows : List InputRow) (events : List OutputRow)
    (table : StateKey → Option Bytes) : Prop :=
  ∀ key, replayKey none (changesFor key events) = some (table key) ∧
    plan.Shows (rowsOf InputRow.key key rows).getLast? (table key)

variable {plan}

/-- The changes of a run are played back from the rows it starts with to those it ends with. -/
theorem replayKey_run (view : StateKey → Option Bytes) (rows : List InputRow) (key : StateKey) :
    replayKey (view key) (changesFor key (plan.normalizer.run view rows).2) =
      some ((plan.normalizer.run view rows).1 key) := by
  induction rows generalizing view with
  | nil => rcases h : view key <;> simp [changesFor, replayKey, h]
  | cons row rows ih =>
    rw [run_cons]
    rw [changesFor_append]
    have hih := ih (update view (plan.normalizer.key row)
      (plan.normalizer.step (view (plan.normalizer.key row)) row).1)
    show replayKey (view key) (changesFor key (changesOf row.key (view row.key)
      (plan.next (view row.key) row)) ++ _) = _
    rw [changesFor_changesOf]
    by_cases hkey : row.key = key
    · subst hkey
      rw [if_pos rfl, replayKey_changesOf_append]
      have hself : update view (plan.normalizer.key row)
          (plan.normalizer.step (view (plan.normalizer.key row)) row).1 row.key =
          plan.next (view row.key) row := update_self ..
      rwa [hself] at hih
    · rw [if_neg hkey, nil_append]
      have hother : update view (plan.normalizer.key row)
          (plan.normalizer.step (view (plan.normalizer.key row)) row).1 key = view key :=
        update_of_ne (Ne.symm hkey) ..
      rwa [hother] at hih

section

variable {rows : List InputRow}
  (hfilter : ∀ row ∈ rows, ∀ row' ∈ rows, plan.rowsEqual row.row row'.row = true →
    plan.passesFilter row = plan.passesFilter row')
include hfilter

/-- The row of a key after its rows: it is shown, and it is one of them and has passed. -/
theorem shows_fold :
    plan.Shows rows.getLast? (plan.normalizer.fold none rows) ∧
      ∀ shown ∈ plan.normalizer.fold none rows,
        ∃ row ∈ rows, row.row = shown ∧ plan.passesFilter row = true := by
  induction rows using List.reverseRecOn with
  | nil => exact ⟨rfl, by simp⟩
  | append_singleton rows row ih =>
    obtain ⟨-, horigin⟩ := ih fun r hr r' hr' => hfilter r (mem_append_left _ hr) r'
      (mem_append_left _ hr')
    rw [fold_append, fold_cons, fold_nil, List.getLast?_concat]
    obtain ⟨current, hcurrent⟩ : ∃ current, plan.normalizer.fold none rows = current := ⟨_, rfl⟩
    rw [hcurrent] at horigin ⊢
    show plan.Shows (some row) (plan.next current row) ∧ ∀ shown ∈ plan.next current row, _
    have hmem : row ∈ rows ++ [row] := mem_append_right _ (mem_singleton_self row)
    rw [next, Shows]
    by_cases hupserts : row.upserts = true
    · rw [if_pos hupserts, hupserts, Bool.true_and]
      by_cases hsame : current.any (plan.rowsEqual row.row) = true
      · -- the row that is kept came from an earlier row, which has passed the filter
        rw [if_pos hsame]
        obtain ⟨shown, rfl, hequal⟩ : ∃ shown, current = some shown ∧
            plan.rowsEqual row.row shown = true := by
          rcases current with _ | shown
          · cases hsame
          · exact ⟨shown, rfl, hsame⟩
        obtain ⟨origin, horiginMem, horiginRow, hpassed⟩ := horigin shown rfl
        have hpasses : plan.passesFilter row = true := by
          rw [hfilter row hmem origin (mem_append_left _ horiginMem)
            (by rw [horiginRow]; exact hequal), hpassed]
        rw [if_pos hpasses]
        refine ⟨⟨shown, rfl, Or.inr hequal⟩, fun other hother => ?_⟩
        cases Option.mem_some_iff.mp hother
        exact ⟨origin, mem_append_left _ horiginMem, horiginRow, hpassed⟩
      · rw [if_neg hsame]
        by_cases hpasses : plan.passesFilter row = true
        · rw [if_pos hpasses, if_pos hpasses]
          refine ⟨⟨row.row, rfl, Or.inl rfl⟩, fun other hother => ?_⟩
          exact ⟨row, hmem, Option.mem_some_iff.mp hother, hpasses⟩
        · rw [if_neg hpasses, if_neg hpasses]
          exact ⟨rfl, by simp⟩
    · simp [hupserts]

theorem replays_run :
    plan.Replays rows (plan.normalizer.run (fun _ => none) rows).2
      (plan.normalizer.run (fun _ => none) rows).1 := by
  intro key
  refine ⟨replayKey_run (fun _ => none) rows key, ?_⟩
  rw [run_fst_apply]
  refine (shows_fold fun row hrow row' hrow' => ?_).1
  exact hfilter row (mem_rowsOf.mp hrow).1 row' (mem_rowsOf.mp hrow').1

end

theorem holds_empty : RowOperator.Holds (Option.map encodeState) Storable ∅ fun _ => none :=
  fun key => ⟨Store.get_empty key, by simp [Storable]⟩

theorem map_snd_timed (batches : List (Int64 × List InputRow)) :
    (batches.map timed).flatten.map Prod.snd = batches.flatMap Prod.snd := by
  induction batches with
  | nil => rfl
  | cons batch batches ih =>
    rw [map_cons, flatten_cons, map_append, ih, flatMap_cons, timed, map_map]
    simp [comp_def]

theorem mem_timed {batches : List (Int64 × List InputRow)} {row : Int64 × InputRow}
    (h : row ∈ (batches.map timed).flatten) : ∃ batch ∈ batches, row.1 = batch.1 ∧
        row.2 ∈ batch.2 := by
  obtain ⟨rows, hrows, hrow⟩ := mem_flatten.mp h
  obtain ⟨batch, hbatch, rfl⟩ := mem_map.mp hrows
  obtain ⟨inner, hinner, rfl⟩ := mem_map.mp hrow
  exact ⟨batch, hbatch, rfl, hinner⟩

/-- Batches that are processed before the largest time, with row numbers and lengths in range. -/
structure Clean (batches : List (Int64 × List InputRow)) : Prop where
  now : ∀ batch ∈ batches, batch.1 < Int64.maxValue
  length : ∀ batch ∈ batches, batch.2.length ≤ 2 ^ 31
  change : ∀ row ∈ batches.flatMap Prod.snd, row.IsChange ∧ row.row.length < 2 ^ 32

/-- What comes before a row of clean batches is clean. -/
theorem Clean.initial {first last : List (Int64 × List InputRow)} {rows rest : List InputRow}
    (h : Clean (first ++ (nowMillis, rows ++ rest) :: last)) :
    Clean (first ++ [(nowMillis, rows)]) := by
  obtain ⟨hnow, hlength, hchange⟩ := h
  simp only [forall_mem_append, forall_mem_cons, length_append] at hnow hlength
  refine ⟨?_, ?_, fun row hrow => hchange row ?_⟩
  · simpa only [forall_mem_append, forall_mem_singleton] using ⟨hnow.1, hnow.2.1⟩
  · rw [forall_mem_append, forall_mem_singleton]
    exact ⟨hlength.1, (Nat.le_add_right _ _).trans hlength.2.1⟩
  · rw [flatMap_append, mem_append] at hrow ⊢
    refine hrow.imp_right fun hmem => ?_
    rw [flatMap_cons, mem_append]
    exact .inl (mem_append_left _ (by simpa using hmem))

/-- The operator emits what the normaliser does, whatever the batches. -/
theorem processBatches_clean (httl : plan.stateTtlMillis = 0)
    (hbefore : plan.generateUpdateBefore = true) (hequal : ∀ row, plan.rowsEqual row row = true)
    {batches : List (Int64 × List InputRow)} (h : Clean batches) :
    ∃ store, plan.processBatches ∅ batches =
      .ok (store, (plan.normalizer.run (fun _ => none) (batches.flatMap Prod.snd)).2) := by
  have hvalid : ∀ row ∈ (batches.map timed).flatten, Valid row := by
    intro row hrow
    obtain ⟨batch, hbatch, -, hmem⟩ := mem_timed hrow
    exact h.change row.2 (mem_flatMap.mpr ⟨batch, hbatch, hmem⟩)
  have htimes : ∀ row ∈ (batches.map timed).flatten, row.1 < Int64.maxValue := by
    intro row hrow
    obtain ⟨batch, hbatch, htime, -⟩ := mem_timed hrow
    rw [htime]
    exact h.now batch hbatch
  have hsizes : ∀ rows ∈ batches.map timed, rows.length ≤ 2 ^ 31 := by
    intro rows hrows
    obtain ⟨batch, hbatch, rfl⟩ := mem_map.mp hrows
    simpa [timed] using h.length batch hbatch
  obtain ⟨store, hrun, -⟩ :=
    RowOperator.processBatches_ok (operator_refines plan) holds_empty hvalid hsizes
  rw [run_timed httl hbefore hequal htimes, map_snd_timed] at hrun
  exact ⟨store, hrun⟩

/-- Without a time to live and with UPDATE_BEFORE rows, batches of change rows are processed, the
changes of every key are well formed and show its last row, and that holds after every row.  What a
row emits is what the run up to it emits more than the run before it; a row that equals the row its
key shows emits nothing.

The clock has to stay below the largest time, because a row that is kept for ever is stored with
that time and is forgotten when the clock reaches it.  A filter has to give the same result on rows
that are compared as equal, because such a row is not filtered again. -/
theorem changelog_normalize_replays (plan : Plan) (httl : plan.stateTtlMillis = 0)
    (hbefore : plan.generateUpdateBefore = true)
    (hequal : ∀ row, plan.rowsEqual row row = true) (batches : List (Int64 × List InputRow))
    (hnow : ∀ batch ∈ batches, batch.1 < Int64.maxValue)
    (hlength : ∀ batch ∈ batches, batch.2.length ≤ 2 ^ 31)
    (hchange : ∀ row ∈ batches.flatMap Prod.snd, row.IsChange ∧ row.row.length < 2 ^ 32)
    (hfilter : ∀ row ∈ batches.flatMap Prod.snd, ∀ row' ∈ batches.flatMap Prod.snd,
      plan.rowsEqual row.row row'.row = true → plan.passesFilter row = plan.passesFilter row') :
    ∃ store events, plan.processBatches ∅ batches = .ok (store, events) ∧
      (∃ table, plan.Replays (batches.flatMap Prod.snd) events table) ∧
      ∀ first nowMillis rows row rest last,
        batches = first ++ (nowMillis, rows ++ row :: rest) :: last →
        ∃ before early after out late table,
          plan.processBatches ∅ (first ++ [(nowMillis, rows)]) = .ok (before, early) ∧
          plan.processBatches ∅ (first ++ [(nowMillis, rows ++ [row])]) =
            .ok (after, early ++ out) ∧
          events = early ++ out ++ late ∧
          plan.Replays (first.flatMap Prod.snd ++ rows) early table ∧
          (row.upserts = true →
              (table row.key).any (plan.rowsEqual row.row) = true → out = []) := by
  have hclean : Clean batches := ⟨hnow, hlength, hchange⟩
  obtain ⟨store, hrun⟩ := processBatches_clean httl hbefore hequal hclean
  refine ⟨store, _, hrun, ⟨_, replays_run hfilter⟩, ?_⟩
  rintro first nowMillis rows row rest last rfl
  obtain ⟨before, hrunBefore⟩ := processBatches_clean httl hbefore hequal hclean.initial
  rw [append_cons rows] at hclean
  obtain ⟨after, hrunAfter⟩ := processBatches_clean httl hbefore hequal hclean.initial
  simp only [flatMap_append, flatMap_cons, flatMap_nil, append_nil]
    at hrunBefore hrunAfter hfilter ⊢
  rw [← append_assoc] at hrunAfter
  rw [append_assoc, cons_append, ← append_assoc] at hfilter ⊢
  obtain ⟨shown, hshown⟩ : ∃ shown, first.flatMap Prod.snd ++ rows = shown := ⟨_, rfl⟩
  rw [hshown] at hrunBefore hrunAfter hfilter ⊢
  obtain ⟨table, htable⟩ : ∃ table, (plan.normalizer.run (fun _ => none) shown).1 =
    table := ⟨_, rfl⟩
  have hsplit (later : List InputRow) :
      (plan.normalizer.run (fun _ => none) (shown ++ row :: later)).2 =
        (plan.normalizer.run (fun _ => none) shown).2 ++
          changesOf row.key (table row.key) (plan.next (table row.key) row) ++
          (plan.normalizer.run (update table row.key (plan.next (table row.key) row)) later).2 := by
    rw [run_append, run_cons, htable, append_assoc]
    rfl
  rw [hsplit [], run_nil, append_nil] at hrunAfter
  refine ⟨before, _, after, _, _, table, hrunBefore, hrunAfter, hsplit _, ?_,
    fun hupserts hsame => ?_⟩
  · rw [← htable]
    exact replays_run fun r hr r' hr' =>
      hfilter r (mem_append_left _ hr) r' (mem_append_left _ hr')
  · rw [next, if_pos hupserts, if_pos hsame]
    rcases table row.key with _ | current <;> simp [changesOf]

/-- A plan that keeps its rows for ever, with UPDATE_BEFORE rows. -/
def keeping (hasFilter : Bool) : Plan := ⟨0, true, hasFilter, none⟩

/-- A row of one key. -/
def rowOf (kind : Int8) (content : UInt8) (filterResult : Option Bool) : InputRow :=
  ⟨⟨0, [1]⟩, kind, [content], filterResult⟩

theorem changelog_normalize_replays_update : ∃ store events, (keeping false).processBatches ∅
        [(5, [rowOf 0 7 none, rowOf 0 7 none]), (6, [rowOf 2 8 none])] = .ok (store, events) ∧
      ∃ table, (keeping false).Replays [rowOf 0 7 none, rowOf 0 7 none,
          rowOf 2 8 none] events table := by
  obtain ⟨store, events, hrun, htable, -⟩ :=
    changelog_normalize_replays (keeping false) rfl rfl (by simp [keeping, rowsEqual])
      [(5, [rowOf 0 7 none, rowOf 0 7 none]), (6, [rowOf 2 8 none])] (by decide) (by decide)
      (by decide) (by simp [keeping, passesFilter])
  exact ⟨store, events, hrun, htable⟩

/-- A last row that is filtered out removes its key, although it is not a deletion, and a clock at
the largest time inserts a second row into a key that has one. -/
theorem changelog_normalize_forgets :
    (∃ store, (keeping true).processBatches ∅
      [(5, [rowOf 0 7 (some true), rowOf 2 8 (some false)])] =
      .ok (store, [⟨.insert, (⟨0, [1]⟩, [7])⟩, ⟨.delete, (⟨0, [1]⟩, [7])⟩])) ∧
    ∃ store events, (keeping false).processBatches ∅
        [(5, [rowOf 0 7 none]), (Int64.maxValue, [rowOf 0 8 none])] = .ok (store, events) ∧
      events = [⟨.insert, (⟨0, [1]⟩, [7])⟩, ⟨.insert, (⟨0, [1]⟩, [8])⟩] ∧
      replayKey none (changesFor ⟨0, [1]⟩ events) = none := by
  refine ⟨⟨_, rfl⟩, _, _, rfl, rfl, rfl⟩

end Plan

end StreamFusion.ChangelogNormalize
