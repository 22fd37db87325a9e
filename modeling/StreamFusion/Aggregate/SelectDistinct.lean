import StreamFusion.Aggregate.Operator

/-!
# SELECT DISTINCT

An aggregate without calls counts the rows of each key.  What it should do depends on the
multiplicity of a key alone: a row changes it by one, a retraction of an absent key changes nothing,
and a change row is emitted exactly if the key appears or disappears (`distinctMachine`).

Across batches the operator does that, but not inside a batch: the state of a key whose last row was
retracted stays in the batch as a count of zero, and a later row finds a key that is present.  A new
row then emits nothing, and a retraction leaves a negative count behind.  Up to the width of the
counters this is the only way to go wrong (`select_distinct_faithful_iff`): the operator is right on
a sequence of batches if and only if a row that removes its key is the last row of its key in the
batch.
-/

namespace StreamFusion.Aggregate

open Wire State Grouped Changelog GroupAggregate Machine Except List

variable {operator : GroupAggregate}

theorem eq_of_withState_nil {inputChangelog generateUpdateBefore : Bool}
    (h : withState ⟨inputChangelog, generateUpdateBefore, []⟩ = .ok operator) :
    operator = ⟨inputChangelog, generateUpdateBefore, [], none⟩ := by
  cases inputChangelog <;> cases h <;> rfl

/-! ## What it should do -/

/-- A key is present if it has rows; there are no values. -/
def present (multiplicity : Nat) : Option Values := if multiplicity = 0 then none else some []

/-- Multiplicities, and a change row for every key that appears or disappears. -/
def distinctMachine (operator : GroupAggregate) : Machine StateKey InputRow OutputEvent Nat where
  key := InputRow.key
  step m row :=
    let m' := if operator.adds row then m + 1 else m - 1
    (m', changesOf row.key (present m) (present m'))

/-- The multiplicity of a key after a sequence of rows. -/
def multiplicity (operator : GroupAggregate) (key : StateKey) (rows : List InputRow) : Nat :=
  (distinctMachine operator).fold 0 (rowsOf InputRow.key key rows)

/-- What the batches have to emit, after the rows of earlier batches. -/
def distinctOutputs (operator : GroupAggregate) (prior : List InputRow) :
    List (List InputRow) → List (List OutputEvent)
  | [] => []
  | rows :: batches =>
    ((distinctMachine operator).run (fun key => multiplicity operator key prior) rows).2 ::
      distinctOutputs operator (prior ++ rows) batches

section

variable (operator : GroupAggregate)

theorem multiplicity_append (key : StateKey) (prior rows : List InputRow) :
    multiplicity operator key (prior ++ rows) =
      (distinctMachine operator).fold (multiplicity operator key prior)
          (rowsOf InputRow.key key rows) := by
  rw [multiplicity, multiplicity, rowsOf_append, fold_append]

theorem run_multiplicity (prior rows : List InputRow) :
    ((distinctMachine operator).run (fun key => multiplicity operator key prior) rows).1 =
      fun key => multiplicity operator key (prior ++ rows) := by
  funext key
  rw [run_fst_apply, multiplicity_append]
  rfl

/-- Cutting the rows into batches cuts the output. -/
theorem distinctOutputs_flatten (prior : List InputRow) (batches : List (List InputRow)) :
    (distinctOutputs operator prior batches).flatten =
      ((distinctMachine operator).run (fun key => multiplicity operator key prior)
          batches.flatten).2 := by
  induction batches generalizing prior with
  | nil => rfl
  | cons rows batches ih =>
    rw [distinctOutputs, flatten_cons, flatten_cons, run_append, run_multiplicity, ih]

theorem fold_le (m : Nat) (rows : List InputRow) :
    (distinctMachine operator).fold m rows ≤ m + rows.length := by
  induction rows generalizing m with
  | nil => exact Nat.le_refl m
  | cons row rows ih =>
    rw [fold_cons, length_cons]
    refine (ih _).trans ?_
    show (if operator.adds row then m + 1 else m - 1) + rows.length ≤ _
    split <;> omega

end

/-! ## What it does -/

/-- The count of a key after a change; a key that was removed keeps the count zero. -/
def countStep (key : StateKey) (count : Option Int64) : CountChange →
    Option Int64 × List OutputEvent
  | .ignored => (count, [])
  | .present count emitInsert => (some count, if emitInsert then [⟨.insert, (key, [])⟩] else [])
  | .removed => (some 0, [⟨.delete, (key, [])⟩])

/-- The count of a key, row by row. -/
def countMachine (operator : GroupAggregate) : Machine StateKey InputRow OutputEvent
    (Option Int64) where
  key := InputRow.key
  step count row := countStep row.key count (applyCountChange count (operator.adds row))

/-- The store holds the counts of the keys. -/
def HoldsCounts (store : Store) (counts : StateKey → Option Int64) : Prop :=
  ∀ key, store.get key = (counts key).map fun count => encodeState ⟨count, []⟩

variable {store : Store} {counts : StateKey → Option Int64}

theorem HoldsCounts.unique {store' : Store}
    (h : HoldsCounts store counts) (h' : HoldsCounts store' counts) : store = store' :=
  Store.ext_get fun key => (h key).trans (h' key).symm

theorem decodeState_count (count : Int64) : decodeState (encodeState ⟨count, []⟩) [] =
    .ok ⟨count, []⟩ :=
  decodeState_encodeState (by simp) (by decide) .nil

variable {D : DataFusion} {converter : RowConverter} {schema : Schema} {row : InputRow}
    {rows : List InputRow}

section Batch

theorem rowStep_of_calls_nil (hcalls : operator.calls = []) (slot : Slot D) (h : IsChange row) :
    operator.rowStep schema slot (row, 0) = .ok (countRow slot row (operator.adds row)) := by
  rw [rowStep, accumulates_eq _ h, hcalls]
  rfl

/-- The copy of a key has the count; it is untouched only if the count is the loaded one. -/
def Stages (loaded : Option Int64) (slot : Slot D) (count : Option Int64) : Prop :=
  slot.staged = count.map (fun count => ⟨count, []⟩) ∧ slot.membership = none ∧
    (slot.touched = false → count = loaded)

theorem Stages.countRow {loaded : Option Int64} {slot : Slot D} {count : Option Int64}
    (h : Stages loaded slot count) (operator : GroupAggregate) (row : InputRow) :
    (countRow slot row (operator.adds row)).2 = ((countMachine operator).step count row).2 ∧
      Stages loaded (countRow slot row (operator.adds row)).1
          ((countMachine operator).step count row).1 := by
  obtain ⟨hstaged, hmembers, htouched⟩ := h
  have hcount : slot.staged.map (fun state => state.rowCount) = count := by
    rw [hstaged]
    cases count <;> rfl
  unfold GroupAggregate.countRow
  rw [hcount]
  show _ = (countStep row.key count (applyCountChange count (operator.adds row))).2 ∧
    Stages loaded _ (countStep row.key count (applyCountChange count (operator.adds row))).1
  cases applyCountChange count (operator.adds row) with
  | ignored => exact ⟨rfl, hstaged, hmembers, htouched⟩
  | present count emitInsert => exact ⟨rfl, rfl, hmembers, fun h => Bool.noConfusion h⟩
  | removed => exact ⟨rfl, rfl, hmembers, fun h => Bool.noConfusion h⟩

variable (D) (converter) (schema) in
/-- One batch, as the counts see it.  Counts of zero are not written. -/
theorem processArrow_counts (hcalls : operator.calls = [])
    (hlayout : operator.membershipLayout = none)
    (hstore : HoldsCounts store counts)
    (hpositive : ∀ key, counts key ≠ some 0)
    (hkinds : ∀ row ∈ rows, IsChange row) (hlength : rows.length ≤ 2 ^ 32) :
    ∃ store', operator.processArrow D converter schema store rows =
        .ok (store', ((countMachine operator).run counts rows).2) ∧
      HoldsCounts store' fun key =>
          (((countMachine operator).run counts rows).1 key).filter (· ≠ 0) := by
  let slot : StateKey → Slot D := fun key =>
    ⟨(counts key).map fun count => ⟨count, []⟩, none, false, .counted, none⟩
  have hload : ∀ key ∈ keysOf InputRow.key rows,
      operator.loadGroup D converter schema store rows key = .ok (slot key) := by
    intro key _
    rw [loadGroup, hlayout]
    rw [hstore key, hcalls]
    rcases hcount : counts key with _ | count
    · simp [slot, hcount]
    · show (do
        let staged ← (some <$> decodeState (encodeState ⟨count, []⟩) [])
        ok (⟨staged, none, false, .counted, none⟩ : Slot D)) = _
      rw [decodeState_count]
      simp [slot, hcount]
  obtain ⟨staged, hstage, hfinal⟩ := stage_simulates (countMachine operator)
    (fun slot row => operator.rowStep schema slot (row, 0))
    (fun key rest slot count => (∀ row ∈ rest, IsChange row) ∧ Stages (counts key) slot count)
    (· ∈ keysOf InputRow.key rows)
    (fun row rest slot count h => by
      obtain ⟨hrow, hrest⟩ := forall_mem_cons.mp h.1
      obtain ⟨hout, hnext⟩ := h.2.countRow operator row
      exact ⟨_, by rw [rowStep_of_calls_nil hcalls slot hrow, ← hout], hrest, hnext⟩)
    rows (fun row hrow => mem_keysOf.mpr ⟨row, hrow, rfl⟩)
    (slotOf ((keysOf InputRow.key rows).map fun key => (key, slot key))) counts
    (fun key hkey => by
      rw [slotOf_map slot hkey]
      exact ⟨fun row hrow => hkinds row (mem_rowsOf.mp hrow).1, rfl, rfl, fun _ => rfl⟩)
  refine ⟨_, processArrow_of_stage hload ((stage_zipIdx _ hlength).trans hstage), ?_⟩
  -- a count that is not zero is not filtered out
  have hkeep : ∀ key, (counts key).filter (· ≠ 0) = counts key := by
    intro key
    rcases hcount : counts key with _ | count
    · rfl
    · have hne : count ≠ 0 := fun h => hpositive key (hcount.trans (congrArg some h))
      simp [Option.filter, hne]
  have hmembers : memberMutations staged (keysOf InputRow.key rows) = [] := by
    refine flatMap_eq_nil_iff.mpr fun key hkey => ?_
    rw [(hfinal key hkey).2.2.1]
  intro key
  dsimp only
  rw [hmembers, append_nil, stateMutations, Store.get_writeBatch_filterMap]
  by_cases hkey : key ∈ keysOf InputRow.key rows
  · obtain ⟨-, hstaged, -, htouched⟩ := hfinal key hkey
    rcases ht : (staged key).touched with _ | _
    · rw [if_neg (by simp), htouched ht, hkeep, hstore key]
    · rw [if_pos ⟨hkey, rfl⟩, encodeSlot, hstaged]
      rcases ((countMachine operator).run counts rows).1 key with _ | count
      · rfl
      · by_cases hzero : count = 0
        · simp [Option.filter, hzero]
        · simp [Option.filter, hzero, hlayout]
  · have hnone : rowsOf (countMachine operator).key key rows = [] := rowsOf_eq_nil hkey
    rw [if_neg (fun h => hkey h.1), run_fst_apply, hnone, fold_nil, hkeep, hstore key]

end Batch

/-! ## When the two agree -/

/-- A row that removes the key is the last one. -/
def RemovesLast (operator : GroupAggregate) (m : Nat) (rows : List InputRow) : Prop :=
  ∀ before row after, rows = before ++ row :: after → operator.adds row = false →
    (distinctMachine operator).fold m before = 1 → after = []

variable {m : Nat}

section Agree

theorem removesLast_cons : RemovesLast operator m (row :: rows) ↔
      (operator.adds row = false → m = 1 → rows = []) ∧
        RemovesLast operator ((distinctMachine operator).step m row).1 rows := by
  constructor
  · intro h
    refine ⟨fun hrow hm => h [] row rows rfl hrow hm, ?_⟩
    intro before row' after hrows
    exact h (row :: before) row' after (by rw [hrows]; rfl)
  · intro h before row' after hrows hrow' hfold
    cases before with
    | nil =>
      obtain ⟨rfl, rfl⟩ := List.cons.inj hrows
      exact h.1 hrow' hfold
    | cons first before =>
      obtain ⟨rfl, rfl⟩ := List.cons.inj hrows
      exact h.2 before row' after rfl hrow' hfold

/-- The count that a multiplicity is stored as. -/
def countOf (m : Nat) : Option Int64 := if m = 0 then none else some (Int64.ofNat m)

theorem ofNat_ne_zero (hpos : 0 < m) (hm : m < 2 ^ 64) : Int64.ofNat m ≠ 0 := by
  intro h
  have hbits := congrArg (fun n : Int64 => n.toBitVec.toNat) h
  simp at hbits
  omega

theorem ofNat_eq_one (hm : m < 2 ^ 64) : Int64.ofNat m = 1 ↔ m = 1 := by
  constructor
  · intro h
    have hbits := congrArg (fun n : Int64 => n.toBitVec.toNat) h
    simp at hbits
    omega
  · intro h
    rw [h]
    rfl

theorem countOf_ne_zero (hm : m < 2 ^ 64) : countOf m ≠ some 0 := by
  rw [countOf]
  by_cases hzero : m = 0
  · simp [hzero]
  · rw [if_neg hzero]
    exact fun h => ofNat_ne_zero (Nat.pos_of_ne_zero hzero) hm (Option.some.inj h)

/-- One row on a key that has not been removed in the batch. -/
theorem countMachine_step (hm : m < 2 ^ 64) (row : InputRow) :
    ((countMachine operator).step (countOf m) row).2 = ((distinctMachine operator).step m row).2 ∧
      ((countMachine operator).step (countOf m) row).1 =
        if operator.adds row = false ∧ m = 1 then some 0
        else countOf ((distinctMachine operator).step m row).1 := by
  show (countStep row.key (countOf m) (applyCountChange (countOf m) (operator.adds row))).2 =
      changesOf row.key (present m) (present (if operator.adds row then m + 1 else m - 1)) ∧
    (countStep row.key (countOf m) (applyCountChange (countOf m) (operator.adds row))).1 =
      if operator.adds row = false ∧ m = 1 then some 0
      else countOf (if operator.adds row then m + 1 else m - 1)
  by_cases hzero : m = 0
  · subst hzero
    cases operator.adds row <;> exact ⟨rfl, rfl⟩
  · obtain ⟨n, rfl⟩ := Nat.exists_eq_succ_of_ne_zero hzero
    have hcount : countOf (n + 1) = some (Int64.ofNat (n + 1)) := if_neg hzero
    rw [Nat.succ_eq_add_one, hcount]
    cases operator.adds row with
    | true => simp [applyCountChange, countStep, present, changesOf, countOf]
    | false =>
      by_cases hone : n = 0
      · subst hone
        exact ⟨rfl, rfl⟩
      · have hne : Int64.ofNat (n + 1) ≠ 1 := fun h => hone (by
          have := (ofNat_eq_one hm).mp h
          omega)
        rw [applyCountChange, if_neg hne]
        simp [countStep, present, changesOf, countOf, hone]

/-- A key whose removals come last goes through the batch as its multiplicity does. -/
def CountsAs (operator : GroupAggregate) (rest : List InputRow) (count : Option Int64)
    (m : Nat) : Prop :=
  m + rest.length < 2 ^ 64 ∧ RemovesLast operator m rest ∧
    (count = countOf m ∨ count = some 0 ∧ m = 0 ∧ rest = [])

variable {count : Option Int64}

/-- A row moves the count as it moves the multiplicity. -/
theorem CountsAs.step {rest : List InputRow} (h : CountsAs operator (row :: rest) count m) :
    ((countMachine operator).step count row).2 = ((distinctMachine operator).step m row).2 ∧
      CountsAs operator rest ((countMachine operator).step count row).1
        ((distinctMachine operator).step m row).1 := by
  obtain ⟨hbound, hlast, rfl | ⟨-, -, hrest⟩⟩ := h
  · rw [length_cons] at hbound
    obtain ⟨hout, hnext⟩ := @countMachine_step operator m (by omega) row
    obtain ⟨hremoves, htail⟩ := removesLast_cons.mp hlast
    have hm : ((distinctMachine operator).step m row).1 =
        if operator.adds row then m + 1 else m - 1 := rfl
    refine ⟨hout, ?_, htail, ?_⟩
    · rw [hm]
      split <;> omega
    · by_cases hremoved : operator.adds row = false ∧ m = 1
      · rw [if_pos hremoved] at hnext
        refine Or.inr ⟨hnext, ?_, hremoves hremoved.1 hremoved.2⟩
        rw [hm, hremoved.1, hremoved.2]
        rfl
      · rw [if_neg hremoved] at hnext
        exact Or.inl hnext
  · cases hrest

theorem CountsAs.filter (h : CountsAs operator [] count m) : count.filter (· ≠ 0) = countOf m := by
  obtain ⟨hbound, -, rfl | ⟨rfl, rfl, -⟩⟩ := h
  · rw [countOf]
    by_cases hzero : m = 0
    · simp [hzero]
    · have := ofNat_ne_zero (Nat.pos_of_ne_zero hzero) (by simpa using hbound)
      simp [Option.filter, hzero, this]
  · rfl

/-! ### After a removal -/

theorem countMachine_some (count : Int64) (row : InputRow) :
    ∃ count', ((countMachine operator).step (some count) row).1 = some count' ∧
      (∀ e ∈ ((countMachine operator).step (some count) row).2, e.kind ≠ .insert) ∧
      (operator.adds row = false → count' = count - 1) := by
  show ∃ count', (countStep row.key (some count) (applyCountChange (some count)
      (operator.adds row))).1 = some count' ∧ (∀ e ∈ (countStep row.key (some count)
      (applyCountChange (some count) (operator.adds row))).2, e.kind ≠ .insert) ∧ _
  cases operator.adds row with
  | true => exact ⟨count + 1, rfl, by simp [applyCountChange, countStep], by simp⟩
  | false =>
    rw [applyCountChange]
    by_cases hone : count = 1
    · subst hone
      exact ⟨0, rfl, by simp [countStep], fun _ => rfl⟩
    · rw [if_neg hone]
      exact ⟨count - 1, rfl, by simp [countStep], fun _ => rfl⟩

/-- A key that has a count emits no insertion. -/
theorem emits_some_ne_insert (count : Int64) (rows : List InputRow) :
    ∀ e ∈ (countMachine operator).emits (some count) rows, e.kind ≠ .insert := by
  induction rows generalizing count with
  | nil => simp [emits]
  | cons row rows ih =>
    obtain ⟨count', hnext, hout, -⟩ := @countMachine_some operator count row
    rw [emits, hnext]
    intro e he
    rcases mem_append.mp he with he | he
    · exact hout e he
    · exact ih count' e he

/-- An absent key that gets a row should emit an insertion. -/
theorem exists_insert_of_adds (h : ∃ row ∈ rows, operator.adds row = true) :
    ∃ e ∈ (distinctMachine operator).emits 0 rows, e.kind = .insert := by
  induction rows with
  | nil => simp at h
  | cons row rows ih =>
    rw [emits]
    have hstep : (distinctMachine operator).step 0 row = (if operator.adds row then 1 else 0,
          changesOf row.key none (present (if operator.adds row then 1 else 0))) := rfl
    rw [hstep]
    by_cases hrow : operator.adds row = true
    · rw [hrow]
      exact ⟨⟨.insert, (row.key, [])⟩, mem_append_left _ (by simp [present, changesOf]), rfl⟩
    · obtain ⟨row', hmem, hadds⟩ := h
      rcases mem_cons.mp hmem with rfl | hmem
      · exact absurd hadds hrow
      · obtain ⟨e, he, hkind⟩ := ih ⟨row', hmem, hadds⟩
        rw [if_neg hrow]
        exact ⟨e, mem_append_right _ he, hkind⟩

/-- Retractions count down, below zero. -/
theorem fold_retractions (h : ∀ row ∈ rows, operator.adds row = false) (count : Int64) :
    (countMachine operator).fold (some count) rows = some (count - Int64.ofNat rows.length) ∧
      (distinctMachine operator).fold 0 rows = 0 := by
  induction rows generalizing count with
  | nil => simp
  | cons row rows ih =>
    obtain ⟨hrow, hrows⟩ := forall_mem_cons.mp h
    obtain ⟨count', hnext, -, hcount⟩ := @countMachine_some operator count row
    have hzero : ((distinctMachine operator).step 0 row).1 = 0 := by
      show (if operator.adds row then 0 + 1 else 0 - 1) = 0
      rw [hrow]
      rfl
    rw [fold_cons, fold_cons, hnext, hzero, hcount hrow]
    refine ⟨?_, (ih hrows 0).2⟩
    rw [(ih hrows _).1, length_cons]
    congr 1
    rw [Int64.ofNat_add]
    grind

/-- A key that was removed in the batch behaves only if it has no further rows. -/
theorem eq_nil_of_removed (hlength : rows.length < 2 ^ 64)
    (hout : (countMachine operator).emits (some 0) rows = (distinctMachine operator).emits 0 rows)
    (hfinal : ((countMachine operator).fold (some 0) rows).filter (· ≠ 0) =
      countOf ((distinctMachine operator).fold 0 rows)) : rows = [] := by
  by_cases hadd : ∃ row ∈ rows, operator.adds row = true
  · obtain ⟨e, he, hkind⟩ := exists_insert_of_adds hadd
    rw [← hout] at he
    exact absurd hkind (emits_some_ne_insert 0 rows e he)
  · have hretract : ∀ row ∈ rows, operator.adds row = false := by
      intro row hrow
      by_contra h
      exact hadd ⟨row, hrow, by simpa using h⟩
    obtain ⟨hfold, hzero⟩ := fold_retractions hretract 0
    rw [hfold, hzero] at hfinal
    by_contra hne
    have hpos : 0 < rows.length := length_pos_iff.mpr hne
    simp [Option.filter, countOf] at hfinal
    exact ofNat_ne_zero hpos hlength hfinal

/-- A key that behaves is not used after its removal. -/
theorem removesLast_of_agree (hbound : m + rows.length < 2 ^ 64)
    (hout : (countMachine operator).emits (countOf m) rows =
      (distinctMachine operator).emits m rows)
    (hfinal : ((countMachine operator).fold (countOf m) rows).filter (· ≠ 0) =
      countOf ((distinctMachine operator).fold m rows)) : RemovesLast operator m rows := by
  induction rows generalizing m with
  | nil =>
    intro before row after hrows
    simp at hrows
  | cons row rows ih =>
    rw [length_cons] at hbound
    obtain ⟨hrow, hnext⟩ := @countMachine_step operator m (by omega) row
    have hm : ((distinctMachine operator).step m row).1 =
        if operator.adds row then m + 1 else m - 1 := rfl
    rw [emits, emits, hrow, hnext] at hout
    have htail := append_cancel_left hout
    rw [fold_cons, fold_cons, hnext] at hfinal
    refine removesLast_cons.mpr ?_
    by_cases hremoved : operator.adds row = false ∧ m = 1
    · have hzero : ((distinctMachine operator).step m row).1 = 0 := by
        rw [hm, hremoved.1, hremoved.2]
        rfl
      rw [if_pos hremoved, hzero] at htail hfinal
      have hnil := eq_nil_of_removed (by omega) htail hfinal
      subst hnil
      exact ⟨fun _ _ => rfl, fun before row' after hrows => by simp at hrows⟩
    · rw [if_neg hremoved] at htail hfinal
      refine ⟨fun hrow hone => absurd ⟨hrow, hone⟩ hremoved, ih ?_ htail hfinal⟩
      rw [hm]
      split <;> omega

theorem changesOf_group {k : StateKey} {old new : Option Values} : ∀ e ∈ changesOf k old new,
    e.row.1 = k := by
  intro e he
  rcases old with _ | v <;> rcases new with _ | v'
  · simp [changesOf] at he
  · simp [changesOf] at he
    simp [he]
  · simp [changesOf] at he
    simp [he]
  · rw [changesOf] at he
    by_cases hv : v = v'
    · simp [hv] at he
    · rw [if_neg hv] at he
      simp only [mem_cons, not_mem_nil, or_false] at he
      rcases he with rfl | rfl <;> rfl

theorem countStep_group {key : StateKey} {change : CountChange} :
    ∀ e ∈ (countStep key count change).2, e.row.1 = key := by
  intro e he
  cases change with
  | ignored => simp [countStep] at he
  | present n emitInsert =>
    cases emitInsert
    · simp [countStep] at he
    · simp [countStep] at he
      simp [he]
  | removed =>
    simp [countStep] at he
    simp [he]

end Agree

/-! ## Batches -/

/-- What a batch must satisfy, after the rows before it.  Rows are indexed and counted by machine
integers; a row that removes its key is the last one of its key. -/
structure CleanBatch (operator : GroupAggregate) (prior rows : List InputRow) : Prop where
  length : rows.length ≤ 2 ^ 32
  removesLast : ∀ key, RemovesLast operator (multiplicity operator key prior)
    (rowsOf InputRow.key key rows)
  count : ∀ key, multiplicity operator key (prior ++ rows) < 2 ^ 63

/-- No batch of the sequence counts a key down and on. -/
def Clean (operator : GroupAggregate) (prior : List InputRow) : List (List InputRow) → Prop
  | [] => True
  | rows :: batches => CleanBatch operator prior rows ∧ Clean operator (prior ++ rows) batches

/-- The persisted count of a key is its multiplicity, and an absent key has no state. -/
def PersistsCount (store : Store) (key : StateKey) (m : Nat) : Prop :=
  (m = 0 → store.get key = none) ∧
    (0 < m → ∃ bytes state, store.get key = some bytes ∧ decodeState bytes [] = .ok state ∧
      state.rowCount.toInt = m)

/-- The stored count is the multiplicity. -/
theorem persistsCount_iff {key : StateKey} {count : Option Int64}
    (h : store.get key = count.map fun count => encodeState ⟨count, []⟩) :
    PersistsCount store key m ↔ count = countOf m ∧ m < 2 ^ 63 := by
  by_cases hzero : m = 0
  · subst hzero
    have hcount : store.get key = none ↔ count = none := by
      rw [h, Option.map_eq_none_iff]
    simp [PersistsCount, countOf, hcount]
  · have hpos := Nat.pos_of_ne_zero hzero
    rw [countOf, if_neg hzero]
    constructor
    · intro hp
      obtain ⟨bytes, state, hget, hdecode, hrow⟩ := hp.2 hpos
      rcases count with _ | n
      · rw [h] at hget
        cases hget
      · rw [h] at hget
        cases hget
        rw [decodeState_count] at hdecode
        cases hdecode
        have hn : n = Int64.ofNat m := by
          rw [← Int64.ofInt_eq_ofNat, ← hrow, Int64.ofInt_toInt]
        have hlt := n.toInt_lt
        rw [hrow] at hlt
        exact ⟨congrArg some hn, by exact_mod_cast hlt⟩
    · intro hp
      obtain ⟨rfl, hlt⟩ := hp
      exact ⟨fun h0 => absurd h0 hzero, fun _ =>
        ⟨_, _, h, decodeState_count _, Int64.toInt_ofNat_of_lt hlt⟩⟩

/-! ## Sequences of batches -/

/-- Does the operator do on the batches what it should?  After every batch it has emitted what it
should and the persisted counts are the multiplicities, and row by row it emits the same rows and
ends in the same state. -/
def Faithful (operator : GroupAggregate) (D : DataFusion) (converter : RowConverter)
    (schema : Schema) (batches : List (List InputRow)) : Prop :=
  (∀ done rest, batches = done ++ rest → ∃ store,
    operator.processBatches D converter schema ∅ done =
      .ok (store, distinctOutputs operator [] done) ∧
      ∀ key, PersistsCount store key (multiplicity operator key done.flatten)) ∧
  ∃ store outputs outputs',
    operator.processBatches D converter schema ∅ batches = .ok (store, outputs) ∧
    operator.processBatches D converter schema ∅ (batches.flatten.map fun row => [row]) =
      .ok (store, outputs') ∧
    outputs.flatten = outputs'.flatten

section Batches

variable {prior rows : List InputRow} {batches : List (List InputRow)}

theorem RemovesLast.singleton (m : Nat) (key : StateKey) (row : InputRow) :
    RemovesLast operator m (rowsOf InputRow.key key [row]) := by
  intro before row' after hrows _ _
  have hlength := congrArg List.length hrows
  have hle : (rowsOf InputRow.key key [row]).length ≤ 1 := length_filter_le ..
  rw [length_append, length_cons] at hlength
  exact length_eq_zero_iff.mp (by omega)

theorem clean_append {done rest : List (List InputRow)} (h : Clean operator prior (done ++ rest)) :
    Clean operator prior done := by
  induction done generalizing prior with
  | nil => trivial
  | cons rows done ih => exact ⟨h.1, ih h.2⟩

section

variable (h : Clean operator prior batches)
    (hprior : ∀ key, multiplicity operator key prior < 2 ^ 63)
include h hprior

/-- The counts of clean batches stay in range, also inside a batch. -/
theorem Clean.bound {before after : List InputRow}
    (hsplit : batches.flatten = before ++ after) (key : StateKey) :
    multiplicity operator key (prior ++ before) + 1 < 2 ^ 64 := by
  induction batches generalizing prior before with
  | nil =>
    obtain ⟨rfl, -⟩ := append_eq_nil_iff.mp hsplit.symm
    have := hprior key
    rw [append_nil]
    omega
  | cons rows batches ih =>
    rw [flatten_cons] at hsplit
    rcases append_eq_append_iff.mp hsplit with ⟨more, rfl, hrest⟩ | ⟨more, rfl, -⟩
    · rw [← append_assoc]
      exact ih h.2 h.1.count hrest
    · -- the position is inside the first batch, which has at most `2 ^ 32` rows
      have hlength := h.1.length
      have hle := fold_le operator (multiplicity operator key prior)
        (rowsOf InputRow.key key before)
      have hown : (rowsOf InputRow.key key before).length ≤ before.length :=
        length_filter_le ..
      rw [length_append] at hlength
      rw [multiplicity_append]
      have := hprior key
      omega

theorem Clean.count (key : StateKey) :
    multiplicity operator key (prior ++ batches.flatten) < 2 ^ 63 := by
  induction batches generalizing prior with
  | nil => simpa using hprior key
  | cons rows batches ih =>
    rw [flatten_cons, ← append_assoc]
    exact ih h.2 h.1.count

end

variable (hcalls : operator.calls = []) (hlayout : operator.membershipLayout = none)
  (hstore : HoldsCounts store fun key => countOf (multiplicity operator key prior))
include hcalls hlayout hstore

variable (D) (converter) (schema) in
/-- A batch without rows after a removal does what it should. -/
theorem processArrow_multiplicity (hkinds : ∀ row ∈ rows, IsChange row)
    (hlength : rows.length ≤ 2 ^ 32)
    (hlast : ∀ key,
      RemovesLast operator (multiplicity operator key prior) (rowsOf InputRow.key key rows))
    (hbound : ∀ key, multiplicity operator key prior + rows.length < 2 ^ 64) :
    ∃ store', operator.processArrow D converter schema store rows =
        .ok (store',
          ((distinctMachine operator).run (fun key => multiplicity operator key prior) rows).2) ∧
      HoldsCounts store' fun key => countOf (multiplicity operator key (prior ++ rows)) := by
  have hown : ∀ key, (rowsOf InputRow.key key rows).length ≤ rows.length := fun key =>
    length_filter_le ..
  have hpositive : ∀ key, countOf (multiplicity operator key prior) ≠ some 0 := fun key =>
    countOf_ne_zero (by have := hbound key; omega)
  obtain ⟨store', hprocess, hstore'⟩ :=
    processArrow_counts D converter schema hcalls hlayout hstore hpositive hkinds hlength
  obtain ⟨hout, hfinal⟩ := run_simulates (distinctMachine operator) (countMachine operator)
    rfl (CountsAs operator) (fun row rest count m h => h.step) rows
    (fun key => countOf (multiplicity operator key prior))
    (fun key => multiplicity operator key prior)
    (fun key => ⟨lt_of_le_of_lt (Nat.add_le_add_left (hown key) _) (hbound key),
      hlast key, Or.inl rfl⟩)
  refine ⟨store', hprocess.trans (by rw [hout]), ?_⟩
  intro key
  refine (hstore' key).trans ?_
  dsimp only
  rw [(hfinal key).filter, run_multiplicity]

/-- A batch that does what it should is clean. -/
theorem cleanBatch_of_processArrow {store' : Store}
    (hprior : ∀ key, multiplicity operator key prior < 2 ^ 63)
    (hkinds : ∀ row ∈ rows, IsChange row)
    (hprocess : operator.processArrow D converter schema store rows =
      .ok (store',
        ((distinctMachine operator).run (fun key => multiplicity operator key prior) rows).2))
    (hpersists : ∀ key, PersistsCount store' key (multiplicity operator key (prior ++ rows))) :
    CleanBatch operator prior rows := by
  -- the row with the index `2 ^ 32` cannot be gathered
  have hlength : rows.length ≤ 2 ^ 32 := by
    by_contra hlong
    obtain ⟨slots, -, hrest⟩ := bind_eq_ok.mp hprocess
    obtain ⟨staged, hstage, -⟩ := bind_eq_ok.mp hrest
    have hmem : (rows[2 ^ 32], 2 ^ 32) ∈ rows.zipIdx := by
      rw [mem_zipIdx_iff_getElem?]
      exact List.getElem?_eq_getElem _
    obtain ⟨slot, next, hstep⟩ := step_of_stage_ok hstage _ hmem
    rw [rowStep, hcalls] at hstep
    obtain ⟨accumulate, -, hstep⟩ := bind_eq_ok.mp hstep
    simp at hstep
  have hpositive : ∀ key, countOf (multiplicity operator key prior) ≠ some 0 := fun key =>
    countOf_ne_zero ((hprior key).trans (by norm_num))
  obtain ⟨store'', hprocess', hstore'⟩ :=
    processArrow_counts D converter schema hcalls hlayout hstore hpositive hkinds hlength
  rw [hprocess', ok.injEq, Prod.mk.injEq] at hprocess
  obtain ⟨rfl, hout⟩ := hprocess
  have hfinal := fun key => (persistsCount_iff (hstore' key)).mp (hpersists key)
  refine ⟨hlength, fun key => ?_, fun key => (hfinal key).2⟩
  refine removesLast_of_agree ?_ ?_ ?_
  · have := hprior key
    have : (rowsOf InputRow.key key rows).length ≤ rows.length := length_filter_le ..
    omega
  · have hcounts := run_snd_filter (countMachine operator)
      (fun count row => countStep_group) (fun key => countOf (multiplicity operator key prior))
      rows key
    have hmultiplicity := run_snd_filter (distinctMachine operator)
      (fun m row => changesOf_group) (fun key => multiplicity operator key prior) rows key
    exact hcounts.symm.trans ((congrArg _ hout).trans hmultiplicity)
  · have hcount := (hfinal key).1
    dsimp only at hcount
    rw [run_fst_apply, multiplicity_append] at hcount
    exact hcount

variable (D) (converter) (schema) in
/-- Row by row the operator does what it should, as long as the counts do not wrap. -/
theorem processBatches_singletons (hkinds : ∀ row ∈ rows, IsChange row)
    (hbound : ∀ before after, rows = before ++ after → ∀ key,
      multiplicity operator key (prior ++ before) + 1 < 2 ^ 64) :
    ∃ store', operator.processBatches D converter schema store (rows.map fun row => [row]) =
        .ok (store', distinctOutputs operator prior (rows.map fun row => [row])) ∧
      HoldsCounts store' fun key => countOf (multiplicity operator key (prior ++ rows)) := by
  induction rows generalizing store prior with
  | nil =>
    rw [append_nil]
    exact ⟨store, rfl, hstore⟩
  | cons row rows ih =>
    obtain ⟨hrow, hrows⟩ := forall_mem_cons.mp hkinds
    obtain ⟨middle, hprocess, hmiddle⟩ := processArrow_multiplicity D converter schema hcalls
      hlayout hstore (forall_mem_singleton.mpr hrow) (by norm_num)
      (fun key => RemovesLast.singleton _ key row)
      (fun key => by simpa using hbound [] (row :: rows) rfl key)
    obtain ⟨final, hrest, hfinal⟩ := ih hmiddle hrows fun before after heq key => by
      have := hbound (row :: before) after (by rw [heq]; rfl) key
      rwa [append_assoc]
    refine ⟨final, ?_, ?_⟩
    · rw [map_cons, processBatches_cons hprocess, hrest]
      rfl
    · simpa only [append_assoc, singleton_append] using hfinal

section

variable (hprior : ∀ key, multiplicity operator key prior < 2 ^ 63)
  (hkinds : ∀ row ∈ batches.flatten, IsChange row)
include hprior hkinds

variable (D) (converter) (schema) in
/-- Clean batches emit the changes of the distinct rows. -/
theorem processBatches_of_clean (h : Clean operator prior batches) :
    ∃ store', operator.processBatches D converter schema store batches =
        .ok (store', distinctOutputs operator prior batches) ∧
      HoldsCounts store' fun key =>
        countOf (multiplicity operator key (prior ++ batches.flatten)) := by
  induction batches generalizing store prior with
  | nil =>
    rw [flatten_nil, append_nil]
    exact ⟨store, rfl, hstore⟩
  | cons rows batches ih =>
    rw [flatten_cons] at hkinds
    obtain ⟨middle, hprocess, hmiddle⟩ := processArrow_multiplicity D converter schema hcalls
      hlayout hstore (fun row hrow => hkinds row (mem_append_left _ hrow))
        h.1.length h.1.removesLast
      (fun key => by have := hprior key; have := h.1.length; omega)
    obtain ⟨final, hrest, hfinal⟩ := ih hmiddle h.1.count
      (fun row hrow => hkinds row (mem_append_right _ hrow)) h.2
    refine ⟨final, ?_, ?_⟩
    · rw [processBatches_cons hprocess, hrest]
      rfl
    · rwa [flatten_cons, ← append_assoc]

/-- Batches that do what they should are clean. -/
theorem clean_of_processBatches
    (h : ∀ done rest, batches = done ++ rest → ∃ store',
      operator.processBatches D converter schema store done =
      .ok (store', distinctOutputs operator prior done) ∧ ∀ key,
      PersistsCount store' key (multiplicity operator key (prior ++ done.flatten))) :
    Clean operator prior batches := by
  induction batches generalizing store prior with
  | nil => trivial
  | cons rows batches ih =>
    rw [flatten_cons] at hkinds
    have hrows : ∀ row ∈ rows, IsChange row := fun row hrow =>
      hkinds row (mem_append_left _ hrow)
    obtain ⟨middle, hmiddle, hpersists⟩ := h [rows] batches rfl
    rw [flatten_singleton] at hpersists
    have hprocess : operator.processArrow D converter schema store rows =
        .ok (middle, ((distinctMachine operator).run
          (fun key => multiplicity operator key prior) rows).2) := by
      rw [processBatches] at hmiddle
      obtain ⟨⟨store', events⟩, hfirst, hrest⟩ := bind_eq_ok.mp hmiddle
      cases hrest
      exact hfirst
    have hclean := cleanBatch_of_processArrow hcalls hlayout hstore hprior hrows hprocess hpersists
    obtain ⟨middle', hprocess', hstore'⟩ := processArrow_multiplicity D converter schema hcalls
      hlayout hstore hrows hclean.length
      hclean.removesLast (fun key => by have := hprior key; have := hclean.length; omega)
    rw [hprocess', ok.injEq, Prod.mk.injEq] at hprocess
    obtain ⟨rfl, -⟩ := hprocess
    refine ⟨hclean,
      ih hstore' hclean.count (fun row hrow => hkinds row (mem_append_right _ hrow)) ?_⟩
    intro done rest hsplit
    obtain ⟨final, hfinal, hcounts⟩ := h (rows :: done) rest (by rw [hsplit]; rfl)
    rw [processBatches_cons hprocess'] at hfinal
    refine ⟨final, ?_, ?_⟩
    · rcases hdone : operator.processBatches D converter schema middle' done with
        error | ⟨store', outputs⟩
      · rw [hdone] at hfinal
        cases hfinal
      · rw [hdone] at hfinal
        change ok (store', _ :: outputs) = .ok (final, _ :: _) at hfinal
        rw [ok.injEq, Prod.mk.injEq, List.cons.injEq] at hfinal
        rw [hfinal.1, hfinal.2.2]
    · simpa only [flatten_cons, append_assoc] using hcounts

end

end Batches

/-- **SELECT DISTINCT.**  The operator does on a sequence of batches what it should if and only if
every batch is clean. -/
theorem select_distinct_faithful_iff (D : DataFusion) (converter : RowConverter) (schema : Schema)
    (inputChangelog generateUpdateBefore : Bool) (operator : GroupAggregate)
    (hplan : withState ⟨inputChangelog, generateUpdateBefore, []⟩ = .ok operator)
    (batches : List (List InputRow)) (hkinds : ∀ row ∈ batches.flatten, IsChange row) :
    Faithful operator D converter schema batches ↔ Clean operator [] batches := by
  have hcalls : operator.calls = [] := by rw [eq_of_withState_nil hplan]
  have hlayout : operator.membershipLayout = none := by rw [eq_of_withState_nil hplan]
  have hstore : HoldsCounts ∅ fun key => countOf (multiplicity operator key []) := fun key =>
    Store.get_empty key
  have hzero : ∀ key, multiplicity operator key [] < 2 ^ 63 := fun key => by
    show 0 < 2 ^ 63
    norm_num
  constructor
  · intro h
    exact clean_of_processBatches hcalls hlayout hstore hzero hkinds fun done rest hsplit => by
      simpa only [nil_append] using h.1 done rest hsplit
  · intro h
    refine ⟨fun done rest hsplit => ?_, ?_⟩
    · subst hsplit
      have hdone := clean_append h
      obtain ⟨store, hrun, hcounts⟩ :=
        processBatches_of_clean D converter schema hcalls hlayout hstore hzero
        (fun row hrow => hkinds row (by
          rw [flatten_append]
          exact mem_append_left _ hrow)) hdone
      refine ⟨store, hrun, fun key => (persistsCount_iff (hcounts key)).mpr ⟨rfl, ?_⟩⟩
      exact hdone.count hzero key
    · obtain ⟨store, hrun, hcounts⟩ :=
        processBatches_of_clean D converter schema hcalls hlayout hstore hzero hkinds h
      obtain ⟨store', hrun', hcounts'⟩ := processBatches_singletons D converter schema hcalls
        hlayout hstore hkinds
        (fun before after hsplit key => h.bound hzero hsplit key)
      cases hcounts.unique hcounts'
      refine ⟨store, _, _, hrun, hrun', ?_⟩
      rw [distinctOutputs_flatten, distinctOutputs_flatten]
      congr 2
      rw [← flatMap_def, flatMap_singleton']

/-- One key, a changelog plan and the rows of the key. -/
def distinctKey : StateKey := ⟨0, [0]⟩

/-- A row that adds its key. -/
def accumulation : InputRow := ⟨distinctKey, 0, []⟩

/-- A row that takes it back. -/
def retraction : InputRow := ⟨distinctKey, 3, []⟩

theorem select_distinct_faithful_iff_two_batches : withState ⟨true, true, []⟩ =
    .ok ⟨true, true, [], none⟩ ∧
      (∀ row ∈ [[accumulation, retraction], [accumulation]].flatten, IsChange row) ∧
      (Faithful ⟨true, true, [], none⟩ .reference .reference [] [[accumulation, retraction],
        [accumulation]] ↔
        Clean ⟨true, true, [], none⟩ [] [[accumulation, retraction], [accumulation]]) :=
  ⟨rfl, by decide,
             select_distinct_faithful_iff .reference .reference [] true true _ rfl _ (by decide)⟩

/-- A key that returns in the batch that removed it: the batch emits no second insertion, and row by
row there is one.  A key that is retracted once more leaves a negative count behind. -/
theorem select_distinct_returning_key :
    ((GroupAggregate.processBatches ⟨true, true, [], none⟩ .reference .reference [] ∅
        [[accumulation, retraction, accumulation]]).map fun result =>
          result.2.flatten.map fun e => e.kind) = .ok [.insert, .delete] ∧
    ((GroupAggregate.processBatches ⟨true, true, [], none⟩ .reference .reference [] ∅
        [[accumulation], [retraction], [accumulation]]).map fun result =>
          result.2.flatten.map fun e => e.kind) = .ok [.insert, .delete, .insert] ∧
    ((GroupAggregate.processBatches ⟨true, true, [], none⟩ .reference .reference [] ∅
        [[accumulation, retraction, retraction]]).toOption.bind fun result =>
          (result.1.get distinctKey).bind fun bytes =>
            (decodeState bytes []).toOption.map fun state => state.rowCount) = some (-1) := by
  decide +kernel

end StreamFusion.Aggregate
