import StreamFusion.Deduplicate

/-!
# Row-time deduplication

The source decides key by key which rows of a batch are winners, with the running maximum or minimum
of the stored time and the times of the key's rows, and then compares each winner with what is
stored. Flink's rule goes row by row and knows the winner of a key, not its bytes (`rule`).  Every
intermediate winner is emitted; no plan reduces the changes of a batch to one per key.
-/

namespace StreamFusion.Deduplicate.Plan

open Wire State Grouped Changelog RowOperator List Except

variable (plan : Plan)

/-! ## The winners of a batch -/

/-- The maximum or the minimum of each time and those before it. -/
def extrema : List Int64 → List Int64
  | [] => []
  | time :: times =>
    times.scanl (fun extremum time =>
      if plan.keepLast then max extremum time else min extremum time) time

/-- The winners among the rows of a key. -/
def keyWinners (prior : Option Int64) (orders : List Int64) : List Bool :=
  let extrema := plan.extrema (prior.toList ++ orders)
  let offset := if prior.isSome then 1 else 0
  orders.zipIdx.map fun (order, index) =>
    let position := offset + index
    if plan.keepLast then order == extrema.getD position 0
    else position == 0 || order < extrema.getD (position - 1) 0

/-! ## The loop over the winners -/

/-- A winner replaces whatever is stored.  A copy goes with what is left of the mask of its key. -/
def selectWinner (slot : StagedValue × List Bool) (row : InputRow × Nat) :
    Except StateError ((StagedValue × List Bool) × List OutputRow) := do
  if slot.2.headD false then
    let (entry, rows) ← plan.select { slot.1 with extremum := none } row
    .ok ((entry, slot.2.tail), rows)
  else .ok ((slot.1, slot.2.tail), [])

/-- A batch of the row-time mode, with the winners of every key computed at once. -/
def selectRowtimeBatch (store : Store) (rows : List InputRow) :
    Except StateError (Store × List OutputRow) := do
  let orders ← rows.mapM InputRow.order
  let keys := keysOf InputRow.key rows
  let slots ← keys.mapM fun key => do
    let prior ← (store.get key).mapM decodeOrder
    .ok (key, ((⟨store.get key, none, false⟩ : StagedValue),
      plan.keyWinners prior ((rowsOf (fun r => r.1.key) key (rows.zip orders)).map Prod.snd)))
  let (staged, events) ← stage (fun row : InputRow × Nat =>
    row.1.key) plan.selectWinner (slotOf slots)
    rows.zipIdx
  .ok (store.writeBatch (plan.operator.mutations (fun key => (staged key).1) keys), events)

/-- Batches one after the other. -/
def selectRowtimeBatches (store : Store) : List (List InputRow) →
    Except StateError (Store × List OutputRow)
  | [] => .ok (store, [])
  | rows :: batches => do
    let (store, events) ← plan.selectRowtimeBatch store rows
    let (store, rest) ← selectRowtimeBatches store batches
    .ok (store, events ++ rest)

/-- The mask of the rule. -/
def ruleMask (extremum : Option Int64) : List Int64 → List Bool
  | [] => []
  | order :: orders => plan.wins extremum order ::
      ruleMask (if plan.wins extremum order then some order else extremum) orders

/-! ## The mask is that of the rule -/

variable {plan}

/-- The running extremum is the time of the winner. -/
theorem ite_wins (time order : Int64) :
    (if plan.wins (some time) order then some order else some time) =
      some (if plan.keepLast then max time order else min time order) := by
  unfold wins
  cases plan.keepLast with
  | true =>
    simp only [if_true, decide_eq_true_iff]
    exact (apply_ite some _ _ _).symm
  | false =>
    simp only [Bool.false_eq_true, if_false, decide_eq_true_iff]
    by_cases hlt : order < time
    · rw [if_pos hlt]
      exact congrArg some (if_neg (Int64.not_le.mpr hlt)).symm
    · rw [if_neg hlt]
      exact congrArg some (if_pos (Int64.not_lt.mp hlt)).symm

theorem eq_extremum_iff (time order : Int64) : (order == max time order) =
    decide (time ≤ order) := by
  rw [Bool.eq_iff_iff, beq_iff_eq, decide_eq_true_iff]
  show order = (if time ≤ order then order else time) ↔ _
  split
  · exact ⟨fun _ => ‹_›, fun _ => rfl⟩
  · exact ⟨fun h => h ▸ Int64.le_refl order, fun h => absurd h ‹_›⟩

theorem keyWinners_some (time : Int64) (orders : List Int64) :
    plan.keyWinners (some time) orders = plan.ruleMask (some time) orders := by
  induction orders generalizing time with
  | nil => rfl
  | cons order orders ih =>
    rw [ruleMask, ite_wins, ← ih]
    simp only [keyWinners, extrema, Option.toList_some, singleton_append, scanl_cons,
      zipIdx_cons, map_cons, Option.isSome_some, if_true]
    congr 1
    · cases h : plan.keepLast <;> simp [wins, h, eq_extremum_iff]
    · rw [zipIdx_succ, map_map]
      refine map_congr_left fun x _ => ?_
      simp [Nat.add_comm 1]

theorem keyWinners_eq (prior : Option Int64) (orders : List Int64) :
    plan.keyWinners prior orders = plan.ruleMask prior orders := by
  rcases prior with _ | time
  · rcases orders with _ | ⟨order, orders⟩
    · rfl
    · -- Without a stored time the first row wins, and its time is the one to beat.
      rw [ruleMask, show plan.wins none order = true from rfl, if_pos rfl, ← keyWinners_some]
      simp only [keyWinners, extrema, Option.toList_none, Option.toList_some, nil_append,
        singleton_append, zipIdx_cons, map_cons]
      congr 1
      · cases orders <;> simp
      · rw [zipIdx_succ, map_map]
        refine map_congr_left fun x _ => ?_
        simp [Nat.add_comm 1]
  · exact keyWinners_some time orders

/-! ## One row -/

variable {value : Option Bytes} {extremum : Option Int64} {row : InputRow} {order : Int64} {n : Nat}

/-- A row that beats the extremum is selected as if nothing were stored to beat. -/
theorem select_of_wins (hrow : plan.isRowtime = true) (horder : row.order = .ok order)
    (hwins : plan.wins extremum order = true) (touched : Bool) :
    plan.select ⟨value, none, touched⟩ (row, n) =
        plan.select ⟨value, extremum, touched⟩ (row, n) := by
  have houtcome : plan.outcome value none row = plan.outcome value extremum row := by
    rw [outcome_of_rowtime hrow, outcome_of_rowtime hrow, selectRowtime, selectRowtime,
      horder, ok_bind,
      ok_bind, if_pos hwins]
    exact if_pos rfl
  unfold select
  rw [houtcome, nextExtremum_eq hrow horder, nextExtremum_eq hrow horder, if_pos hwins]
  rfl

theorem machine_step_of_not_wins (hrow : plan.isRowtime = true) (horder : row.order = .ok order)
    (hlost : ¬ plan.wins (plan.storedExtremum value) order = true) :
    plan.machine.step value row = (value, []) := by
  refine @machine_step _ _ _ .skip ?_
  rw [outcome_of_rowtime hrow, selectRowtime, horder, ok_bind, if_neg hlost]
  rfl

theorem storedExtremum_machine_step (hvalid : plan.Valid row) (hrow : plan.isRowtime = true)
    (hvalue : plan.Storable value) : plan.storedExtremum (plan.machine.step value row).1 =
      plan.nextExtremum (plan.storedExtremum value) row := by
  rcases outcome_rowtime hvalid hrow hvalue with ⟨bytes, rows, houtcome, -,
    hnext⟩ | ⟨houtcome, hnext⟩
  · rw [machine_step houtcome, hnext]
    exact if_pos hrow
  · rw [machine_step houtcome, hnext]
    rfl

/-! ## Batches -/

/-- The time of a row that has one. -/
def time (row : InputRow) : Int64 := row.order.toOption.getD 0

theorem order_eq (hvalid : plan.Valid row) (hrow : plan.isRowtime = true) :
    row.order = .ok (time row) := by
  obtain ⟨⟨order, horder⟩, -⟩ := hvalid.rowtime hrow
  rw [time, horder]
  rfl

variable (plan) in
/-- The copy of a key and the rows of the key that are still to come. -/
structure Tracks (rest : List (InputRow × Nat)) (slot : StagedValue × List Bool)
    (value : Option Bytes) :
    Prop where
  rows : ∀ row ∈ rest, plan.Valid row.1 ∧ row.2 < 2 ^ 31
  mask : slot.2 = plan.ruleMask (plan.storedExtremum value) (rest.map fun row => time row.1)
  stored : slot.1.value = value
  storable : plan.Storable value

/-- A row moves the staged winner as it moves the machine. -/
theorem Tracks.step (hrow : plan.isRowtime = true) {row : InputRow × Nat}
    {rest : List (InputRow × Nat)}
    {slot : StagedValue × List Bool} (h : plan.Tracks (row :: rest) slot value) :
    ∃ slot', plan.selectWinner slot row = .ok (slot', (plan.machine.step value row.1).2) ∧
      plan.Tracks rest slot' (plan.machine.step value row.1).1 ∧
      (slot'.1.touched = false → slot.1.touched = false ∧
          (plan.machine.step value row.1).1 = value) := by
  obtain ⟨entry, mask⟩ := slot
  obtain ⟨hrows, hmask, rfl, hgood⟩ := h
  obtain ⟨⟨hvalid, hn⟩, hrest⟩ := forall_mem_cons.mp hrows
  have horder := order_eq hvalid hrow
  dsimp only at hmask hgood ⊢
  rw [map_cons, ruleMask] at hmask
  cases hwins : plan.wins (plan.storedExtremum entry.value) (time row.1) with
  | true =>
    obtain ⟨entry', hselect, hstands, hkeep⟩ := @select_stands _ _ _
      ⟨entry.value, plan.storedExtremum entry.value, entry.touched⟩ _ hvalid hn ⟨rfl, rfl, hgood⟩
    rw [hwins, if_pos rfl] at hmask
    refine ⟨(entry', mask.tail), ?_, ⟨hrest, ?_, hstands.1, hstands.2.2⟩, hkeep⟩
    · rw [selectWinner, hmask]
      rw [select_of_wins hrow horder hwins, hselect]
      rfl
    · rw [storedExtremum_machine_step hvalid hrow hgood, nextExtremum_eq hrow horder, if_pos hwins,
        hmask]
      rfl
  | false =>
    have hlost : ¬ plan.wins (plan.storedExtremum entry.value) (time row.1) =
      true := by simp [hwins]
    rw [hwins, if_neg Bool.false_ne_true] at hmask
    rw [machine_step_of_not_wins hrow horder hlost, selectWinner, hmask]
    exact ⟨_, rfl, ⟨hrest, rfl, rfl, hgood⟩, fun ht => ⟨ht, rfl⟩⟩

variable {store : Store} {view : StateKey → Option Bytes} {rows : List InputRow}

/-- A batch by row time emits what the machine emits. -/
theorem selectRowtimeBatch_ok (hrow : plan.isRowtime = true)
    (hstore : Holds id plan.Storable store view)
    (hvalid : ∀ row ∈ rows, plan.Valid row) (hlength : rows.length ≤ 2 ^ 31) :
    ∃ store', plan.selectRowtimeBatch store rows = .ok (store', (plan.machine.run view rows).2) ∧
      Holds id plan.Storable store' (plan.machine.run view rows).1 := by
  let slot : StateKey → StagedValue × List Bool := fun key => (⟨store.get key, none, false⟩,
    plan.ruleMask (plan.storedExtremum (view key)) ((rowsOf InputRow.key key rows).map time))
  have hslots : (keysOf InputRow.key rows).mapM (fun key => do
      let prior ← (store.get key).mapM decodeOrder
      ok (key, ((⟨store.get key, none, false⟩ : StagedValue), plan.keyWinners prior
        ((rowsOf (fun r : InputRow × Int64 => r.1.key) key (rows.zip (rows.map time))).map
          Prod.snd)))) =
      .ok ((keysOf InputRow.key rows).map fun key => (key, slot key)) := by
    refine mapM_of_ok fun key _ => ?_
    simp only [slot, (hstore key).1, id]
    rw [mapM_decodeOrder fun bytes hbytes => ((hstore key).2 hrow bytes hbytes).1,
      ok_bind, keyWinners_eq,
      ← map_prod_left_eq_zip, rowsOf_map, map_map, storedExtremum, if_pos hrow]
    rfl
  obtain ⟨staged, hstage, hfinal⟩ := stage_simulates (plan.machine.comap Prod.fst) plan.selectWinner
    (fun key rest slot value => plan.Tracks rest slot value ∧
      (slot.1.touched = false → value = view key))
    (· ∈ keysOf InputRow.key rows)
    (fun row rest slot value h => by
      obtain ⟨slot', hselect, htracks, hkeep⟩ := h.1.step hrow
      exact ⟨slot', hselect, htracks, fun ht => (hkeep ht).2.trans (h.2 (hkeep ht).1)⟩)
    rows.zipIdx
    (fun row hmem => mem_keysOf.mpr ⟨row.1, fst_mem_of_mem_zipIdx hmem, rfl⟩)
    (slotOf ((keysOf InputRow.key rows).map fun key => (key, slot key))) view
    (fun key hkey => by
      rw [slotOf_map slot hkey]
      refine ⟨⟨fun row hmem => ?_, ?_, (hstore key).1, (hstore key).2⟩, fun _ => rfl⟩
      · have hlt := snd_lt_of_mem_zipIdx (mem_rowsOf.mp hmem).1
        exact ⟨hvalid _ (fst_mem_of_mem_zipIdx (mem_rowsOf.mp hmem).1), by omega⟩
      · have hfst := rowsOf_map Prod.fst InputRow.key key rows.zipIdx
        rw [zipIdx_map_fst] at hfst
        simp only [slot, hfst, map_map]
        rfl)
  rw [Machine.run_comap, zipIdx_map_fst] at hstage hfinal
  refine ⟨store.writeBatch
    (plan.operator.mutations (fun key => (staged key).1) (keysOf InputRow.key rows)), ?_,
    fun key => ?_⟩
  · rw [selectRowtimeBatch, mapM_of_ok fun row hmem => order_eq (hvalid row hmem) hrow, ok_bind]
    dsimp only
    rw [hslots, ok_bind]
    exact congrArg (· >>= _) hstage
  · rw [get_writeBatch_mutations]
    by_cases hkey : key ∈ keysOf InputRow.key rows
    · obtain ⟨htracks, huntouched⟩ := hfinal key hkey
      refine ⟨?_, htracks.storable⟩
      cases ht : (staged key).1.touched with
      | false => rw [if_neg (by simp [operator, ht]), huntouched ht, (hstore key).1]
      | true => rw [if_pos ⟨hkey, ht⟩]; exact htracks.stored
    · rw [if_neg (fun hin => hkey hin.1), Machine.run_fst_apply,
        show plan.machine.key = InputRow.key from rfl,
        rowsOf_eq_nil hkey]
      exact hstore key

theorem selectRowtimeBatches_ok (hrow : plan.isRowtime = true) {batches : List (List InputRow)}
    (hstore : Holds id plan.Storable store view) (hvalid : ∀ row ∈ batches.flatten, plan.Valid row)
    (hlength : ∀ rows ∈ batches, rows.length ≤ 2 ^ 31) :
    ∃ store', plan.selectRowtimeBatches store batches =
        .ok (store', (plan.machine.run view batches.flatten).2) ∧
      Holds id plan.Storable store' (plan.machine.run view batches.flatten).1 := by
  induction batches generalizing store view with
  | nil => exact ⟨store, rfl, hstore⟩
  | cons rows batches ih =>
    obtain ⟨hrows, hrest⟩ := forall_mem_cons.mp hlength
    rw [flatten_cons, forall_mem_append] at hvalid
    obtain ⟨middle, hfirst, hmiddle⟩ := selectRowtimeBatch_ok hrow hstore hvalid.1 hrows
    obtain ⟨final, hthen, hfinal⟩ := ih hmiddle hvalid.2 hrest
    rw [flatten_cons, Machine.run_append]
    refine ⟨final, ?_, hfinal⟩
    rw [selectRowtimeBatches, hfirst, ok_bind]
    dsimp only
    rw [hthen]
    rfl

/-! ## Flink's rule -/

/-- The winner of a key: its time, and what is kept of it for a retraction. -/
structure Winner where
  time : Int64
  kept : Option Bytes

/-- A winner as it is stored. -/
def Winner.bytes (winner : Winner) : Bytes := encodeValue winner.time winner.kept

variable (plan)

/-- Without a winner every row wins.  Otherwise a row has to be strictly earlier to be the first,
and not earlier to be the last. -/
def replaces (time : Int64) : Option Winner → Bool
  | none => true
  | some winner => if plan.keepLast then !decide (time < winner.time) else time < winner.time

/-- What is kept of a winner: its stored-row column, or its visible columns if they are
retracted. -/
def retained (row : InputRow) : Option Bytes :=
  row.sidecar <|> if plan.generateUpdateBefore then some row.row else none

/-- The changes of a row that wins: an INSERT where a consumer asks for inserts, and otherwise the
UPDATE pair or its second half. -/
def changes (row : InputRow) : Option Winner → List OutputRow
  | none =>
    let kind := if plan.generateInsert || plan.generateUpdateBefore then .insert else .updateAfter
    [⟨kind, (row.key, .input row.row)⟩]
  | some winner =>
    if plan.generateUpdateBefore then
      [⟨.updateBefore, (row.key, .stored (winner.kept.getD []))⟩,
        ⟨.updateAfter, (row.key, .input row.row)⟩]
    else
      [⟨.updateAfter, (row.key, .input row.row)⟩]

/-- The rule, row by row. -/
def rule : Machine StateKey InputRow OutputRow (Option Winner) where
  key row := row.key
  step winner row :=
    if plan.replaces (time row) winner then
      (some ⟨time row, plan.retained row⟩, plan.changes row winner)
    else
      (winner, [])

/-- A winner that can be retracted has kept its row. -/
def Retractable (winner : Option Winner) : Prop :=
  plan.generateUpdateBefore = true → ∀ w ∈ winner, w.kept.getD [] ≠ []

variable {plan} {winner : Option Winner}

theorem storable_of_retractable (h : plan.Retractable winner) :
    plan.Storable (winner.map Winner.bytes) := by
  rintro - bytes hbytes
  obtain ⟨w, hw, rfl⟩ := Option.mem_map.mp hbytes
  rw [Winner.bytes, length_encodeValue]
  refine ⟨by omega, fun hbefore => ?_⟩
  have := length_pos_of_ne_nil (h hbefore w hw)
  omega

theorem retained_eq_currentStored (row : InputRow) : plan.retained row =
    plan.currentStored row := by
  unfold retained currentStored
  cases row.sidecar <;> rfl

theorem wins_eq_replaces (hrow : plan.isRowtime = true) (time : Int64) :
    plan.wins (plan.storedExtremum (winner.map Winner.bytes)) time = plan.replaces time winner := by
  rw [storedExtremum, if_pos hrow, Option.map_map]
  rcases winner with _ | winner
  · rfl
  · simp only [Option.map_some, Function.comp_apply, Winner.bytes,
      orderOf_encodeValue, wins, replaces]
    split
    · rw [Bool.eq_iff_iff, Bool.not_eq_true', decide_eq_true_iff, decide_eq_false_iff_not]
      exact Int64.not_lt.symm
    · rfl

/-- A row does to a stored winner what the rule says. -/
theorem machine_step_bytes (hrow : plan.isRowtime = true) (hvalid : plan.Valid row)
    (hwinner : plan.Retractable winner) :
    plan.machine.step (winner.map Winner.bytes) row =
        ((plan.rule.step winner row).1.map Winner.bytes, (plan.rule.step winner row).2) ∧
      plan.Retractable (plan.rule.step winner row).1 := by
  have horder := order_eq hvalid hrow
  simp only [rule]
  by_cases hreplaces : plan.replaces (time row) winner = true
  · have hwins := (wins_eq_replaces hrow (time row)).trans hreplaces
    rw [if_pos hreplaces]
    refine ⟨?_, fun hbefore w hw => ?_⟩
    · have hstorable := storable_of_retractable hwinner
      have hprevious : plan.previousStored (winner.map Winner.bytes) =
          .ok (if plan.generateUpdateBefore then winner.map fun w => w.kept.getD [] else none) := by
        unfold previousStored
        split
        · next hbefore =>
          rw [mapM_decodeStoredRow fun bytes hbytes => (hstorable hrow bytes hbytes).2 hbefore,
            Option.map_map]
          refine congrArg (fun f => Except.ok (winner.map f)) (funext fun w => ?_)
          exact drop_left' (length_leBytes _ _)
        · rfl
      have houtcome : plan.outcome (winner.map Winner.bytes)
          (plan.storedExtremum (winner.map Winner.bytes)) row =
          .ok (.store (some (Winner.bytes ⟨time row, plan.retained row⟩))
              (plan.changes row winner)) := by
        rw [outcome_of_rowtime hrow, selectRowtime, horder, ok_bind, if_pos hwins,
          mapM_decodeOrder fun bytes hbytes => (hstorable hrow bytes hbytes).1, ok_bind, hprevious,
          ok_bind, ← retained_eq_currentStored]
        refine congrArg (fun rows => Except.ok (Outcome.store _ rows)) ?_
        rcases winner with _ | w <;> cases hbefore : plan.generateUpdateBefore <;>
          cases hinsert : plan.generateInsert <;>
          simp [changes, rowtimeKind, InputRow.shown, InputRow.past, hbefore, hinsert]
      exact machine_step houtcome
    · cases hw
      rw [retained_eq_currentStored]
      exact (hvalid.rowtime hrow).2 hbefore
  · rw [if_neg hreplaces]
    refine ⟨machine_step_of_not_wins hrow horder ?_, hwinner⟩
    rwa [wins_eq_replaces hrow]

/-- **Row-time deduplication** is Flink's rule row by row, for every cut of the rows into batches:
the changes that are emitted and the winners that are stored are those of the rule. -/
theorem rowtime_follows_rule (hrow : plan.isRowtime = true) {batches : List (List InputRow)}
    {winners : StateKey → Option Winner}
    (hstore : Holds (Option.map Winner.bytes) plan.Retractable store winners)
    (hvalid : ∀ row ∈ batches.flatten, plan.Valid row)
    (hlength : ∀ rows ∈ batches, rows.length ≤ 2 ^ 31) :
    ∃ store', plan.selectRowtimeBatches store batches =
        .ok (store', (plan.rule.run winners batches.flatten).2) ∧
      Holds (Option.map Winner.bytes) plan.Retractable store'
        (plan.rule.run winners batches.flatten).1 := by
  have hbytes : Holds id plan.Storable store fun key => (winners key).map Winner.bytes :=
    fun key => ⟨(hstore key).1, storable_of_retractable (hstore key).2⟩
  obtain ⟨store', hrun, hfinal⟩ := selectRowtimeBatches_ok hrow hbytes hvalid hlength
  obtain ⟨hevents, hview⟩ := Machine.run_simulates plan.rule plan.machine rfl
    (fun rest value winner => value = winner.map Winner.bytes ∧ plan.Retractable winner ∧
      ∀ row ∈ rest, plan.Valid row)
    (fun row rest value winner hsim => by
      obtain ⟨rfl, hwinner, hrows⟩ := hsim
      obtain ⟨hrowValid, hrest⟩ := forall_mem_cons.mp hrows
      obtain ⟨hstep, hnext⟩ := machine_step_bytes hrow hrowValid hwinner
      rw [hstep]
      exact ⟨rfl, rfl, hnext, hrest⟩)
    batches.flatten (fun key => (winners key).map Winner.bytes) winners
    (fun key => ⟨rfl, (hstore key).2, fun row hmem => hvalid row (mem_rowsOf.mp hmem).1⟩)
  rw [hevents] at hrun
  refine ⟨store', hrun, fun key => ⟨?_, (hview key).2.1⟩⟩
  exact (hfinal key).1.trans (hview key).1

/-- A row of one key at a time. -/
def timedRow (order : Int64) : InputRow := ⟨⟨0, []⟩, 0, .ok order, [0], none⟩

theorem timedRow_valid (hrow : plan.isRowtime = true) (order : Int64) :
    plan.Valid (timedRow order) := by
  refine ⟨fun h => ?_, fun _ => ⟨⟨order, rfl⟩, fun h => ?_⟩⟩
  · simp [isRowtime, h] at hrow
  · simp [currentStored, timedRow, h]

theorem rowtime_follows_rule_three : ∃ store',
    Plan.selectRowtimeBatches ⟨false, false, true, true, false⟩ ∅
      [[timedRow 2, timedRow 2], [timedRow 1]] = .ok (store', [(timedRow 2).shown .insert,
        (timedRow 1).past .updateBefore [0], (timedRow 1).shown .updateAfter]) := by
  obtain ⟨store', hrun, -⟩ := @rowtime_follows_rule ⟨false, false, true, true, false⟩ ∅ rfl
    [[timedRow 2, timedRow 2], [timedRow 1]] (fun _ => none) (fun _ => ⟨rfl, nofun⟩)
    (by simp; exact ⟨timedRow_valid rfl 2, timedRow_valid rfl 1⟩) (by simp)
  exact ⟨store', hrun⟩

/-- No plan that keeps the last row reduces two winners of a batch to one change. -/
theorem rowtime_emits_every_winner :
    ([(false, false), (false, true), (true, false), (true, true)].map fun flags =>
      (selectRowtimeBatch ⟨false, true, flags.1, flags.2, false⟩ ∅ [timedRow 1, timedRow 2]).map
        fun result => result.2.length) = [.ok 2, .ok 3, .ok 2, .ok 3] := by
  decide

end StreamFusion.Deduplicate.Plan
