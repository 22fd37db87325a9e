import StreamFusion.Deduplicate

/-!
# The changelog of deduplication

`play` is a consumer of the changes of one key.  It refuses an INSERT of a key that has a row and a
retraction of a row that the key does not have.  An UPDATE_BEFORE has its UPDATE_AFTER behind it; an
UPDATE_AFTER comes alone only if the plan generates no UPDATE_BEFORE, and for a key without a row
only if it generates no INSERT either.

What the state holds of the consumer's row depends on the plan: its bytes, a mark, or nothing
(`Plan.Shows`).
-/

namespace StreamFusion.Deduplicate

open Wire State Grouped Changelog

/-- `decode` reads the bytes that the state keeps. -/
def Content.decoded (decode : Bytes → Bytes) : Content → Bytes
  | input row => row
  | stored row => decode row

namespace Plan

variable (plan : Plan)

/-- The row of a key after its changes, which are read with `decode`; `none` if one of them is
refused. -/
def play (decode : Bytes → Bytes) : Option Bytes → List (Change Content) → Option (Option Bytes)
  | present, [] => some present
  | present, ⟨.insert, row⟩ :: rest =>
    if present = none then play decode (some (row.decoded decode)) rest else none
  | present, ⟨.delete, row⟩ :: rest =>
    if present = some (row.decoded decode) then play decode none rest else none
  | present, ⟨.updateBefore, old⟩ :: ⟨.updateAfter, row⟩ :: rest =>
    if plan.generateUpdateBefore ∧ present = some (old.decoded decode) then
      play decode (some (row.decoded decode)) rest
    else none
  | _, ⟨.updateBefore, _⟩ :: _ => none
  | present, ⟨.updateAfter, row⟩ :: rest =>
    if !plan.generateUpdateBefore && (present.isSome || !plan.generateInsert) then
      play decode (some (row.decoded decode)) rest
    else none

/-- The bytes that stand for a row in the state. -/
def kept (row : InputRow) : Bytes := if plan.inputChangelog then row.sidecar.getD [] else row.row

/-- The row that a key has after a row has arrived. -/
def arrive (present : Option Bytes) (row : InputRow) : Option Bytes :=
  if plan.inputChangelog then (if row.upserts then some row.row else none)
  else if plan.keepLast then some row.row else present <|> some row.row

/-- What is stored of the row that a key has. -/
def Shows (decode : Bytes → Bytes) (value present : Option Bytes) : Prop :=
  if !plan.inputChangelog && !plan.keepLast then value = present.map fun _ => [1]
  else if !plan.inputChangelog &&
    (!plan.generateInsert && !plan.generateUpdateBefore) then value = none
  else present = value.map decode

/-- The changes without their key. -/
def contents (events : List OutputRow) : List (Change Content) := events.map fun e =>
    ⟨e.kind, e.row.2⟩

variable {plan} {decode : Bytes → Bytes} {value present : Option Bytes} {row : InputRow}

theorem play_replace {current : Bytes} (hdecode : decode current = row.row)
    (rest : List (Change Content)) :
    plan.play decode (value.map decode)
      (contents ((plan.replace value row current).applied value).2 ++ rest) =
        plan.play decode (some row.row) rest ∧
      some row.row = (((plan.replace value row current).applied value).1).map decode := by
  unfold replace
  rcases value with _ | previous
  · exact ⟨rfl, congrArg some hdecode.symm⟩
  · dsimp only
    split
    · rename_i hsame
      subst hsame
      exact ⟨by rw [← hdecode]; rfl, congrArg some hdecode.symm⟩
    · refine ⟨?_, congrArg some hdecode.symm⟩
      cases hbefore : plan.generateUpdateBefore with
      | false => exact if_pos (by simp [hbefore])
      | true => exact if_pos ⟨hbefore, rfl⟩

section

variable (hmode : ¬ plan.isRowtime = true)
include hmode

/-- A row and the consumer of its key. -/
theorem play_step (hvalid : plan.Valid row) (hdecode : decode (plan.kept row) = row.row)
    (h : plan.Shows decode value present) (rest : List (Change Content)) :
    plan.play decode present (contents (plan.machine.step value row).2 ++ rest) =
        plan.play decode (plan.arrive present row) rest ∧
      plan.Shows decode (plan.machine.step value row).1 (plan.arrive present row) := by
  have hstep : ∀ outcome, plan.outcome value (plan.storedExtremum value) row = .ok outcome →
      plan.machine.step value row = outcome.applied value := fun _ => machine_step
  unfold Shows arrive kept at *
  by_cases hchangelog : plan.inputChangelog = true
  · obtain ⟨hsidecar, hkind⟩ := hvalid.changelog hchangelog
    obtain ⟨current, hcurrent⟩ := Option.isSome_iff_exists.mp hsidecar
    simp only [outcome, selectChangelog, hchangelog, hcurrent, Option.getD_some,
      if_true, Bool.not_true,
      Bool.false_and, Bool.false_eq_true, if_false] at *
    subst h
    by_cases hupserts : row.upserts = true
    · rw [hstep _ (if_pos hupserts), if_pos hupserts]
      exact play_replace hdecode rest
    · rw [if_neg hupserts, if_pos (hkind.resolve_left hupserts)] at hstep
      rw [if_neg hupserts]
      rcases value with _ | previous
      · rw [hstep _ rfl]
        exact ⟨rfl, rfl⟩
      · rw [hstep _ rfl]
        exact ⟨if_pos rfl, rfl⟩
  · have hprocessing : plan.processingTime = true := by simpa [isRowtime, hchangelog] using hmode
    simp only [outcome, selectProcessingTimeFirst, selectProcessingTimeLast,
      hchangelog, hprocessing,
      Bool.not_eq_true, Bool.false_eq_true, if_true, if_false, Bool.not_false, Bool.true_and] at *
    cases hlast : plan.keepLast with
    | false =>
      simp only [hlast, Bool.not_false, Bool.false_eq_true, if_true, if_false] at *
      subst h
      rcases present with _ | first <;> rw [hstep _ rfl] <;> exact ⟨rfl, rfl⟩
    | true =>
      simp only [hlast, Bool.not_true, Bool.false_eq_true, if_true, if_false] at *
      by_cases hstateless : (!plan.generateInsert && !plan.generateUpdateBefore) = true
      · rw [if_pos hstateless] at *
        rw [hstep _ rfl]
        obtain ⟨hinsert, hbefore⟩ := Bool.and_eq_true_iff.mp hstateless
        exact ⟨if_pos (by rw [hbefore, hinsert, Bool.or_true]; rfl), h⟩
      · rw [if_neg hstateless] at *
        subst h
        rw [hstep _ rfl]
        exact play_replace hdecode rest

theorem play_emits (rows : List InputRow)
    (hrows : ∀ row ∈ rows, plan.Valid row ∧ decode (plan.kept row) = row.row)
    (h : plan.Shows decode value present) :
    plan.play decode present (contents (plan.machine.emits value rows)) =
      some (rows.foldl plan.arrive present) ∧
      plan.Shows decode (plan.machine.fold value rows) (rows.foldl plan.arrive present) := by
  induction rows generalizing value present with
  | nil => exact ⟨rfl, h⟩
  | cons row rows ih =>
    obtain ⟨⟨hvalid, hdecode⟩, hrest⟩ := List.forall_mem_cons.mp hrows
    obtain ⟨hplay, hshows⟩ :=
      play_step hmode hvalid hdecode h (contents (plan.machine.emits _ rows))
    obtain ⟨hplays, hfinal⟩ := ih hrest hshows
    rw [Machine.emits, contents, List.map_append]
    exact ⟨hplay.trans hplays, hfinal⟩

/-- What a row emits belongs to its key. -/
theorem key_of_mem_step (value : Option Bytes) (row : InputRow) :
    ∀ e ∈ (plan.machine.step value row).2, e.row.1 = row.key := by
  intro e he
  simp only [isRowtime, machine, outcome, selectChangelog, selectProcessingTimeFirst,
    selectProcessingTimeLast, replace] at hmode he
  grind [InputRow.shown, InputRow.past, Outcome.applied]

end

/-- The row to keep is the first or the last one. -/
theorem foldl_arrive (h : plan.inputChangelog = false) (rows : List InputRow) :
    rows.foldl plan.arrive none =
      (if plan.keepLast then rows.getLast? else rows.head?).map InputRow.row := by
  cases hlast : plan.keepLast with
  | true => induction rows using List.reverseRecOn <;> simp [arrive, h, hlast]
  | false =>
    have hfirst (first : Bytes) (rows : List InputRow) :
        rows.foldl plan.arrive (some first) = some first := by
      induction rows <;> simp_all [arrive]
    cases rows with
    | nil => rfl
    | cons row rows => simpa [arrive, h, hlast] using hfirst row.row rows

/-- Of a changelog the last row counts, and it leaves nothing if it is a retraction. -/
theorem foldl_arrive_changelog (h : plan.inputChangelog = true) (rows : List InputRow) :
    rows.foldl plan.arrive none = (rows.getLast?.filter InputRow.upserts).map InputRow.row := by
  induction rows using List.reverseRecOn with
  | nil => rfl
  | append_singleton rows row =>
    rw [List.foldl_concat, List.getLast?_concat, arrive, if_pos h, Option.filter]
    split <;> rfl

/-- **The changelog of deduplication.**  However the rows come in batches, the changes of a key are
played back without a refusal.  They leave the first or the last row to arrive or, of a changelog,
the last row unless it is a retraction; and what is stored of this row. -/
theorem deduplicate_replays (plan : Plan) (hmode : ¬ plan.isRowtime = true) (decode : Bytes → Bytes)
    (batches : List (List InputRow)) (hlength : ∀ rows ∈ batches, rows.length ≤ 2 ^ 31)
    (hrows : ∀ row ∈ batches.flatten, plan.Valid row ∧ decode (plan.kept row) = row.row) :
    ∃ store events, plan.processBatches ∅ batches = .ok (store, events) ∧
      ∀ key, ∃ present, plan.play decode none (changesFor key events) = some present ∧
        plan.Shows decode (store.get key) present ∧
        (plan.inputChangelog = false → present = (if plan.keepLast
          then (rowsOf InputRow.key key batches.flatten).getLast?
          else (rowsOf InputRow.key key batches.flatten).head?).map InputRow.row) ∧
        (plan.inputChangelog = true → present =
          ((rowsOf InputRow.key key batches.flatten).getLast?.filter InputRow.upserts).map
              InputRow.row) := by
  have hempty : RowOperator.Holds id plan.Storable ∅ fun _ => none := fun _ =>
    ⟨rfl, fun _ _ h => by cases h⟩
  have hshows : plan.Shows decode none none := by
    unfold Shows
    split_ifs <;> rfl
  obtain ⟨store, hrun, hstore⟩ := RowOperator.processBatches_ok (operator_refines plan) hempty
    (fun row hrow => (hrows row hrow).1) hlength
  refine ⟨store, _, hrun, fun key => ?_⟩
  obtain ⟨hplay, hfinal⟩ := play_emits hmode (rowsOf InputRow.key key batches.flatten)
    (fun row hrow => hrows row (mem_rowsOf.mp hrow).1) hshows
  refine ⟨_, ?_, ?_, fun h => foldl_arrive h _, fun h => foldl_arrive_changelog h _⟩
  · rw [changesFor, Machine.run_snd_filter plan.machine (key_of_mem_step hmode)]
    exact hplay
  · rw [(hstore key).1]
    rw [Machine.run_fst_apply]
    exact hfinal

/-- An INSERT of one key. -/
def plainRow (row : UInt8) : InputRow := ⟨⟨0, []⟩, 0, .ok 0, [row], none⟩

/-- A row of a changelog; the state keeps its bytes. -/
def changelogRow (kind : Int8) (row : UInt8) : InputRow := ⟨⟨0, []⟩, kind, .ok 0, [row], some [row]⟩

/-- The last of two rows, and a changelog whose row is updated and then deleted. -/
theorem deduplicate_replays_last_and_changelog :
    (∃ store events,
      processBatches ⟨true, true, true, true, false⟩ ∅ [[plainRow 1], [plainRow 2]] =
        .ok (store, events) ∧
        play ⟨true, true, true, true, false⟩ id none (changesFor ⟨0, []⟩ events) =
          some (some [2])) ∧
    ∃ store events,
      processBatches ⟨false, true, true, false, true⟩ ∅
          [[changelogRow 0 1, changelogRow 2 2], [changelogRow 3 2]] = .ok (store, events) ∧
        play ⟨false, true, true, false, true⟩ id none (changesFor ⟨0, []⟩ events) = some none := by
  constructor
  · obtain ⟨store, events, hrun, hkeys⟩ :=
      deduplicate_replays ⟨true, true, true, true, false⟩ (by decide) id
      [[plainRow 1], [plainRow 2]] (by decide) fun _ _ => ⟨⟨by simp, by simp [isRowtime]⟩, rfl⟩
    obtain ⟨present, hplay, -, hpresent, -⟩ := hkeys ⟨0, []⟩
    exact ⟨store, events, hrun, hplay.trans (congrArg some (hpresent rfl))⟩
  · obtain ⟨store, events, hrun, hkeys⟩ :=
      deduplicate_replays ⟨false, true, true, false, true⟩ (by decide) id
      [[changelogRow 0 1, changelogRow 2 2], [changelogRow 3 2]] (by decide) fun row hrow => by
        fin_cases hrow <;> exact ⟨⟨fun _ => by decide, by simp [isRowtime]⟩, rfl⟩
    obtain ⟨present, hplay, -, -, hpresent⟩ := hkeys ⟨0, []⟩
    exact ⟨store, events, hrun, hplay.trans (congrArg some (hpresent rfl))⟩

/-- A plan that emits updates only stores nothing of the row that a consumer has. -/
theorem updates_only_store_nothing : ∃ store events,
    processBatches ⟨true, true, false, false, false⟩ ∅ [[plainRow 1]] = .ok (store, events) ∧
      play ⟨true, true, false, false, false⟩ id none (changesFor ⟨0, []⟩ events) = some (some [1]) ∧
      store.get ⟨0, []⟩ = none :=
  ⟨_, _, rfl, rfl, rfl⟩

end Plan

end StreamFusion.Deduplicate
