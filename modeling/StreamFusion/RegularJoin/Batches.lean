import StreamFusion.RegularJoin.Cursor

/-!
# Batches of the regular join

A batch of one side (`regular_join/streaming.rs`) loads the states of its keys once, drains its rows
one after the other and writes the states back.  The masks of the residual condition are computed
ahead, for as many rows as the memory allows (`candidate_batch.rs`), and a batch that only adds rows
does not load the own side's stored rows and appends to them.  A key that is left without rows is
not stored, and its identities start anew with the next batch.

So the states of two ways to cut the rows are alike, up to identities, and this is enough: a change
looks at the contents of the rows only (`transition_congr`).  It changes nothing but the association
counts of the other side's rows, so a mask computed ahead is the mask of the row when its turn
comes, and a batch is its rows one by one (`drainRows_ok`).

How many rows a mask is prepared for, which limits the pages have and for which keys the stored rows
stay unloaded depends on the memory that is granted, and is arbitrary here (`Pull`).  The residual
condition is total.  The encoding of the states is left out, and so is the choice to read an inner
join's history page by page, which changes nothing (`drainHistory_eq_referenceProcessChange`).
-/

namespace StreamFusion.RegularJoin

open State OutputRow Function JoinState List
open Changelog (Kind)

variable {ρ : Type}

/-- What the operator knows when it works on one side. -/
structure Plan (ρ : Type) where
  joinType : RegularJoinType
  side : Side
  /-- The residual condition on the row of the side and a row of the other side. -/
  residualCondition : Option (ρ → ρ → Bool)

/-- A row of a batch.  It is not matchable if a key field is null for which null equals nothing. -/
structure InputRow (ρ : Type) where
  key : StateKey
  kind : Kind
  row : ρ
  matchable : Bool

/-- Without a residual condition all rows of the key match. -/
def evaluates : Option (ρ → ρ → Bool) → ρ → ρ → Bool
  | none, _, _ => true
  | some condition, row, candidate => condition row candidate

/-- What the memory allows while a row is drained: for how many rows masks are prepared, if none are
left, and the limits of the pages. -/
structure Pull where
  ahead : Nat
  limits : Nat → Nat

/-- `unloaded` are the stored rows of the batch's side that stay where they are. -/
structure StagedState (ρ : Type) where
  value : JoinState ρ
  unloaded : List (StoredRow ρ)
  touched : Bool

/-- The rows that were not loaded stay before the new ones. -/
def StagedState.whole (side : Side) (entry : StagedState ρ) : JoinState ρ :=
  entry.value.setRows side (entry.unloaded ++ entry.value.rows side)

/-- A batch.  `unload` says for which keys the rows of the own side can stay unloaded; whether they
do also depends on the rows of the batch. -/
structure Batch (ρ : Type) where
  inputOffset : Nat
  unload : StateKey → Bool
  rows : List (InputRow ρ × Pull)

namespace Plan

variable (plan : Plan ρ)

/-- Which candidates a row joins. -/
def conditionMatchesRow (row : InputRow ρ) (candidates : List (StoredRow ρ)) : CandidateMatches :=
  ⟨candidates.map fun candidate => row.matchable &&
    evaluates plan.residualCondition row.row candidate.row⟩

/-- The stored rows of the other side. -/
def candidates (staged : StateKey → StagedState ρ) (row : InputRow ρ) : List (StoredRow ρ) :=
  (staged row.key).value.rows plan.side.other

/-- The masks of the next rows. -/
def conditionMatchesBatch (staged : StateKey → StagedState ρ) (rows : List (InputRow ρ))
    (ahead : Nat) : List CandidateMatches :=
  (rows.take ahead).map fun row => plan.conditionMatchesRow row (plan.candidates staged row)

/-- The masks that are there when the row's turn comes. -/
def refill (staged : StateKey → StagedState ρ) (cache : List CandidateMatches)
    (rows : List (InputRow ρ)) (ahead : Nat) : List CandidateMatches :=
  if plan.residualCondition.isSome && cache.isEmpty then
    plan.conditionMatchesBatch staged rows ahead
  else cache

/-- A row of the batch as a change. -/
def change (row : InputRow ρ) (ordinal : Int) : Change ρ :=
  ⟨plan.joinType, plan.side, row.kind, row.kind.adds, row.row, ordinal⟩

/-- The limits of the pages; two rows always fit.  The cursor asks for no more pages than these. -/
def pageLimits (pull : Pull) (candidates : CandidateMatches) : List Nat :=
  (List.range (candidates.len + 2)).map fun page => max 2 (pull.limits page)

variable [DecidableEq ρ]

/-- The rows of a batch from the row number `index` on. -/
def drainRows (inputOffset : Nat) : (StateKey → StagedState ρ) → List CandidateMatches → Nat →
    List (InputRow ρ × Pull) → Except StateError ((StateKey → StagedState ρ) × List (OutputRow ρ))
  | staged, _, _, [] => .ok (staged, [])
  | staged, cache, index, (row, pull) :: rest => do
    let cache := plan.refill staged cache (row :: rest.map Prod.fst) pull.ahead
    let candidates := cache.headD (plan.conditionMatchesRow row (plan.candidates staged row))
    if inputOffset + index < 2 ^ 31 then
      let entry := staged row.key
      let (value, output, _) ← ChangeCursor.drainPages
        { change := plan.change row (inputOffset + index : Nat) } entry.value candidates
        (pageLimits pull candidates)
      let (staged, outputs) ← drainRows inputOffset
        (update staged row.key { entry with value := value, touched := true }) cache.tail
        (index + 1) rest
      .ok (staged, output ++ outputs)
    else
      .error (.execution "regular join input exceeds Int32 ordinals")

/-- A state is loaded, without the rows of the own side if they are not needed. -/
def load (unload : Bool) (state : JoinState ρ) : StagedState ρ :=
  if unload then ⟨state.setRows plan.side [], state.rows plan.side, false⟩ else ⟨state, [], false⟩

/-- A key without rows has no manifest, and its identities start anew. -/
def root (state : JoinState ρ) : JoinState ρ :=
  if (state.rows .left).isEmpty && (state.rows .right).isEmpty then ⟨fun _ => 0, fun _ => []⟩
  else state

/-- What is stored of a copy. -/
def flush (state : JoinState ρ) (entry : StagedState ρ) : JoinState ρ :=
  if entry.touched then root (entry.whole plan.side) else state

/-- A batch. -/
def processBatch (states : StateKey → JoinState ρ) (batch : Batch ρ) :
    Except StateError ((StateKey → JoinState ρ) × List (OutputRow ρ)) := do
  let accumulating := batch.rows.all fun row => row.1.kind.adds
  let (staged, output) ← plan.drainRows batch.inputOffset
    (fun key => plan.load (accumulating && batch.unload key) (states key)) [] 0 batch.rows
  .ok (fun key => plan.flush (states key) (staged key), output)

/-- Batches one after the other. -/
def processBatches (states : StateKey → JoinState ρ) :
    List (Batch ρ) → Except StateError ((StateKey → JoinState ρ) × List (OutputRow ρ))
  | [] => .ok (states, [])
  | batch :: batches => do
    let (states, output) ← plan.processBatch states batch
    let (states, outputs) ← processBatches states batches
    .ok (states, output ++ outputs)

/-! ## Row by row -/

/-- The state and the output of one row, with the mask that it has at its turn. -/
def processRow (state : JoinState ρ) (row : InputRow ρ) : JoinState ρ × List (OutputRow ρ) :=
  (plan.change row 0).transition
    (plan.conditionMatchesRow row (state.rows plan.side.other)) state

/-- Rows one after the other. -/
def processRows (states : StateKey → JoinState ρ) :
    List (InputRow ρ) → (StateKey → JoinState ρ) × List (OutputRow ρ)
  | [] => (states, [])
  | row :: rows =>
    let (state, output) := plan.processRow (states row.key) row
    let (states, outputs) := processRows (update states row.key state) rows
    (states, output ++ outputs)

end Plan

/-! ## What a change looks at -/

/-- A row that is emitted, without the number of the row that caused it. -/
def OutputRow.content (output : OutputRow ρ) : Option ρ × Option ρ × Kind :=
  (output.left, output.right, output.kind)

/-- A stored row without its identity. -/
def StoredRow.content (row : StoredRow ρ) : ρ × Int32 := (row.row, row.associations)

/-- The same rows in the same order, with the same association counts, under other identities. -/
def JoinState.Alike (state state' : JoinState ρ) : Prop :=
  ∀ side, (state.rows side).map StoredRow.content = (state'.rows side).map StoredRow.content

namespace JoinState.Alike

variable {state state' state'' : JoinState ρ}

theorem refl (state : JoinState ρ) : Alike state state := fun _ => rfl

theorem symm (h : Alike state state') : Alike state' state := fun side => (h side).symm

theorem trans (h : Alike state state') (h' : Alike state' state'') : Alike state state'' :=
  fun side => (h side).trans (h' side)

theorem map_row (h : Alike state state') (side : Side) :
    (state.rows side).map StoredRow.row = (state'.rows side).map StoredRow.row := by
  have := congrArg (map Prod.fst) (h side)
  rwa [map_map, map_map] at this

theorem of_sides (side : Side)
    (hown : (state.rows side).map StoredRow.content = (state'.rows side).map StoredRow.content)
    (hother : (state.rows side.other).map StoredRow.content =
      (state'.rows side.other).map StoredRow.content) : Alike state state' := by
  intro side'
  obtain rfl | rfl : side' = side ∨ side' = side.other := by
    cases side <;> cases side' <;> simp [Side.other]
  · exact hown
  · exact hother

end JoinState.Alike

namespace Change

variable (change : Change ρ) (ordinal : Int)

/-- The change of another row of the batch. -/
def renumber : Change ρ := { change with ordinal := ordinal }

theorem content_pushPair (side : Side) (input other : Option ρ) (kind : Kind)
    (ordinal ordinal' : Int) :
    (pushPair side input other kind ordinal).content =
        (pushPair side input other kind ordinal').content := by
  cases side <;> rfl

/-- What is done to a candidate depends on its content, and the number of the change shows in the
output only. -/
theorem visitCandidate_congr {candidate candidate' : StoredRow ρ}
    (h : candidate.content = candidate'.content) :
    ((change.renumber ordinal).visitCandidate candidate).1.content =
        (change.visitCandidate candidate').1.content ∧
      ((change.renumber ordinal).visitCandidate candidate).2.map OutputRow.content =
        (change.visitCandidate candidate').2.map OutputRow.content := by
  obtain ⟨id, row, associations⟩ := candidate
  obtain ⟨id', row', associations'⟩ := candidate'
  obtain ⟨rfl, rfl⟩ := Prod.mk.inj h
  have hpair := fun (side : Side) (input other : Option ρ) (kind : Kind) =>
    content_pushPair side input other kind ordinal change.ordinal
  have hsemi : isSemi (change.renumber ordinal).joinType = isSemi change.joinType := rfl
  have hadds : (change.renumber ordinal).accumulate = change.accumulate := rfl
  have hanti : (change.renumber ordinal).isAnti = change.isAnti := rfl
  have hinput : (change.renumber ordinal).inputOuter = change.inputOuter := rfl
  have houter : (change.renumber ordinal).otherOuter = change.otherOuter := rfl
  unfold visitCandidate
  rw [hsemi, hadds, hanti, hinput, houter]
  dsimp only
  constructor
  · split_ifs <;> rfl
  · split_ifs <;> simp [renumber, hpair]

/-- A change looks at the contents of the candidates only. -/
theorem forMatches_congr {visit visit' : StoredRow ρ → StoredRow ρ × List (OutputRow ρ)}
    (h : ∀ candidate candidate', candidate.content = candidate'.content →
      (visit candidate).1.content = (visit' candidate').1.content ∧
        (visit candidate).2.map OutputRow.content = (visit' candidate').2.map OutputRow.content)
    {entries entries' : List (StoredRow ρ × Bool)}
    (hentries : entries.map (fun entry => (entry.1.content, entry.2)) =
      entries'.map fun entry => (entry.1.content, entry.2)) :
    (forMatches visit entries).1.map StoredRow.content =
        (forMatches visit' entries').1.map StoredRow.content ∧
      (forMatches visit entries).2.map OutputRow.content =
        (forMatches visit' entries').2.map OutputRow.content := by
  induction entries generalizing entries' with
  | nil =>
    obtain rfl := map_eq_nil_iff.mp hentries.symm
    exact ⟨rfl, rfl⟩
  | cons entry entries ih =>
    obtain ⟨entry', rest, rfl, hfirst, hrest⟩ := map_eq_cons_iff.mp hentries.symm
    obtain ⟨candidate, isMatch⟩ := entry
    obtain ⟨candidate', isMatch'⟩ := entry'
    obtain ⟨hcontent, rfl⟩ := Prod.mk.inj hfirst
    obtain ⟨hrows, houtput⟩ := ih hrest.symm
    obtain ⟨hrow, hemits⟩ := h candidate candidate' hcontent.symm
    rw [forMatches, forMatches]
    cases isMatch'
    · simp [hrows, houtput, hcontent.symm]
    · simp [hrows, houtput, hrow, hemits]

theorem row_visitCandidate (candidate : StoredRow ρ) :
    (change.visitCandidate candidate).1.row = candidate.row := by
  unfold visitCandidate
  split_ifs <;> rfl

theorem map_row_forMatches (entries : List (StoredRow ρ × Bool)) :
    (forMatches change.visitCandidate entries).1.map StoredRow.row =
      (entries.map Prod.fst).map StoredRow.row := by
  induction entries with
  | nil => rfl
  | cons entry entries ih =>
    obtain ⟨candidate, isMatch⟩ := entry
    rw [forMatches]
    cases isMatch with
    | false => simp [ih]
    | true => simp [ih, row_visitCandidate]

variable [DecidableEq ρ] {change} {candidates : CandidateMatches} {state state' : JoinState ρ}

omit [DecidableEq ρ] in
theorem rows_closed_other (middle : JoinState ρ) :
    (change.closed candidates middle).rows change.side.other = middle.rows change.side.other := by
  unfold closed
  split
  · rw [rows_setRows_other, rows_setNextRowId]
  · rfl

theorem content_removeRow (row : ρ) (rows : List (StoredRow ρ)) :
    (removeRow row rows).map StoredRow.content =
      (rows.map StoredRow.content).eraseP fun content => content.1 = row := by
  rw [eraseP_map]
  rfl

/-- The rows of the two sides after a change. -/
theorem rows_transition_other : (change.transition candidates state).1.rows change.side.other =
    (forMatches change.visitCandidate (change.entries candidates state)).1 ++
      (state.rows change.side.other).drop (change.entries candidates state).length := by
  rw [transition, rows_closed_other, rows_stateAt_other, take_length]

/-- A change adds or removes its own row. -/
theorem rows_transition_own : (change.transition candidates state).1.rows change.side =
    if change.accumulate then state.rows change.side ++
      [⟨state.nextRowId change.side, change.input, change.ownAssociations candidates⟩]
    else removeRow change.input (state.rows change.side) := by
  rw [transition, closed]
  have hid (visited : Nat) : (change.stateAt candidates state visited).nextRowId =
      state.nextRowId :=
    nextRowId_opened
  split_ifs with haccumulate
  · rw [rows_setRows, hid, stateAt, rows_setRows_of_other, opened, if_pos haccumulate]
  · rw [stateAt, rows_setRows_of_other, opened, if_neg haccumulate, rows_setRows]

/-- **A change looks neither at identities nor at its own number.** -/
theorem transition_congr (h : state.Alike state') (ordinal : Int) :
    ((change.renumber ordinal).transition candidates state).1.Alike
        (change.transition candidates state').1 ∧
      ((change.renumber ordinal).transition candidates state).2.map OutputRow.content =
        (change.transition candidates state').2.map OutputRow.content := by
  have hentries : ((change.renumber ordinal).entries candidates state).map
      (fun entry => (entry.1.content, entry.2)) =
        (change.entries candidates state').map fun entry => (entry.1.content, entry.2) := by
    have hzip (rows : List (StoredRow ρ)) : (rows.zip candidates.values).map
        (fun entry => (entry.1.content, entry.2)) =
          (rows.map StoredRow.content).zip candidates.values := by
      rw [zip_map_left]
      rfl
    have hvisits : (change.renumber ordinal).visitsCandidates = change.visitsCandidates := rfl
    unfold entries
    rw [hvisits]
    split
    · rw [hzip, hzip]
      exact congrArg (zip · _) (h change.side.other)
    · rfl
  have hlength := congrArg length hentries
  rw [length_map, length_map] at hlength
  obtain ⟨hrows, houtput⟩ :=
    forMatches_congr (fun _ _ => change.visitCandidate_congr ordinal) hentries
  have hown : ((change.renumber ordinal).ownRow candidates).map OutputRow.content =
      (change.ownRow candidates).map OutputRow.content := by
    have hemits : (change.renumber ordinal).emitsOwn candidates = change.emitsOwn candidates := rfl
    unfold ownRow
    rw [hemits]
    split
    · exact congrArg (fun content => [content]) (content_pushPair ..)
    · rfl
  refine ⟨.of_sides change.side ?_ ?_, ?_⟩
  · have hleft := @rows_transition_own _ (change.renumber ordinal) _ candidates state
    have hadds : (change.renumber ordinal).accumulate = change.accumulate := rfl
    refine (congrArg (map StoredRow.content) hleft).trans ?_
    rw [rows_transition_own, hadds]
    split
    · rw [map_append, map_append]
      exact congrArg (· ++ _) (h change.side)
    · rw [content_removeRow, content_removeRow]
      exact congrArg (eraseP _) (h change.side)
  · have hleft := @rows_transition_other _ (change.renumber ordinal) _ candidates state
    refine (congrArg (map StoredRow.content) hleft).trans ?_
    rw [rows_transition_other, map_append, map_append, hrows, hlength, map_drop, map_drop]
    exact congrArg (fun rows => _ ++ drop _ rows) (h change.side.other)
  · rw [transition, transition]
    dsimp only
    rw [map_append, map_append, houtput, hown]

/-- An identity is given to a row that is added. -/
theorem nextRowId_transition_le : (change.transition candidates state).1.nextRowId change.side ≤
      state.nextRowId change.side + 1 := by
  rw [transition]
  have hmiddle : (change.stateAt candidates state
      (change.entries candidates state).length).nextRowId = state.nextRowId := nextRowId_opened
  unfold closed
  split
  · rw [nextRowId_setRows, hmiddle]
    unfold setNextRowId
    dsimp only
    rw [update_self]
  · rw [hmiddle]
    exact Nat.le_succ _

section

variable (h : candidates.len = (state.rows change.side.other).length)
include h

/-- A change does not touch the rows of the other side. -/
theorem map_row_transition :
    ((change.transition candidates state).1.rows change.side.other).map StoredRow.row =
      (state.rows change.side.other).map StoredRow.row := by
  rw [rows_transition_other, map_append, map_row_forMatches, ← map_append]
  congr 1
  unfold entries
  split
  · have hlength : candidates.values.length = (state.rows change.side.other).length := h
    rw [map_fst_zip (le_of_eq h.symm), length_zip, hlength, min_self, drop_length, append_nil]
  · rfl

end

/-- A row that is added is appended to the rows of its side, whatever they are. -/
theorem transition_unloaded (haccumulate : change.accumulate = true)
    (unloaded : List (StoredRow ρ)) :
    change.transition candidates
        (state.setRows change.side (unloaded ++ state.rows change.side)) =
      ((change.transition candidates state).1.setRows change.side (unloaded ++
          (change.transition candidates state).1.rows change.side),
        (change.transition candidates state).2) := by
  have hentries :
    change.entries candidates (state.setRows change.side (unloaded ++ state.rows change.side)) =
      change.entries candidates state := by
    unfold entries
    rw [rows_setRows_other]
  have hstate : ∀ visited, change.stateAt candidates
      (state.setRows change.side (unloaded ++ state.rows change.side)) visited =
      (change.stateAt candidates state visited).setRows change.side (unloaded ++
          state.rows change.side) := by
    intro visited
    unfold stateAt opened
    rw [hentries, if_pos haccumulate, if_pos haccumulate, rows_setRows_other, setRows_comm]
  have hown : ∀ visited, (change.stateAt candidates state visited).rows change.side =
      state.rows change.side := by
    intro visited
    unfold stateAt opened
    rw [rows_setRows_of_other, if_pos haccumulate]
  rw [transition, transition, hentries, hstate]
  unfold closed
  rw [if_pos haccumulate, if_pos haccumulate]
  refine Prod.ext ?_ rfl
  rw [rows_setRows, rows_setRows, setRows_setRows, hown, nextRowId_setRows, append_assoc]
  exact setRows_setRows ((change.stateAt candidates state _).setNextRowId _ _) ..

end Change

/-! ## A batch is its rows one by one -/

namespace Plan

variable {plan : Plan ρ}

theorem conditionMatchesRow_congr {candidates candidates' : List (StoredRow ρ)}
    (h : candidates.map StoredRow.row = candidates'.map StoredRow.row) (row : InputRow ρ) :
    plan.conditionMatchesRow row candidates = plan.conditionMatchesRow row candidates' := by
  have hmap : ∀ candidates : List (StoredRow ρ), plan.conditionMatchesRow row candidates =
      ⟨(candidates.map StoredRow.row).map fun candidate => row.matchable &&
        evaluates plan.residualCondition row.row candidate⟩ := by
    intro candidates
    rw [map_map]
    rfl
  rw [hmap, hmap, h]

theorem len_conditionMatchesRow (plan : Plan ρ) (row : InputRow ρ)
    (candidates : List (StoredRow ρ)) :
    (plan.conditionMatchesRow row candidates).len = candidates.length := length_map _

/-- The masks that are there belong to the next rows. -/
def Prepared (plan : Plan ρ) (staged : StateKey → StagedState ρ) (cache : List CandidateMatches)
    (rows : List (InputRow ρ)) : Prop :=
  cache = plan.conditionMatchesBatch staged rows cache.length

variable {staged : StateKey → StagedState ρ} {cache : List CandidateMatches}
    {rows : List (InputRow ρ)}

theorem prepared_refill (h : plan.Prepared staged cache rows) (ahead : Nat) :
    plan.Prepared staged (plan.refill staged cache rows ahead) rows := by
  unfold refill
  split
  · unfold Prepared conditionMatchesBatch
    rw [length_map, length_take, ← take_take, take_length]
  · exact h

variable {row : InputRow ρ}

theorem Prepared.headD (h : plan.Prepared staged cache (row :: rows)) :
    cache.headD (plan.conditionMatchesRow row (plan.candidates staged row)) =
      plan.conditionMatchesRow row (plan.candidates staged row) := by
  cases cache with
  | nil => rfl
  | cons first cache => exact (List.cons.inj h).1

/-- The masks stay what they are while the payloads of the other side do. -/
theorem Prepared.tail {staged staged' : StateKey → StagedState ρ}
    (h : plan.Prepared staged cache (row :: rows))
    (hsame : ∀ row, (plan.candidates staged' row).map StoredRow.row =
      (plan.candidates staged row).map StoredRow.row) :
    plan.Prepared staged' cache.tail rows := by
  have hmask : ∀ row, plan.conditionMatchesRow row (plan.candidates staged' row) =
      plan.conditionMatchesRow row (plan.candidates staged row) := fun row =>
    conditionMatchesRow_congr (hsame row) row
  unfold Prepared conditionMatchesBatch
  simp only [hmask]
  cases cache with
  | nil => rfl
  | cons first cache => exact (List.cons.inj h).2

section

variable [DecidableEq ρ]

variable (plan) in
/-- The cursor of a row, with the pages that it needs. -/
theorem drainPages_row (row : InputRow ρ) (ordinal : Int) (pull : Pull) (value : JoinState ρ)
    (hid : value.nextRowId plan.side + 1 < 2 ^ 64) :
    let mask := plan.conditionMatchesRow row (value.rows plan.side.other)
    ∃ output isDone, ChangeCursor.drainPages { change := plan.change row ordinal } value mask
        (pageLimits pull mask) = .ok (((plan.change row ordinal).transition mask value).1,
          output, isDone) ∧
      output = ((plan.change row ordinal).transition mask value).2 := by
  intro mask
  have hlen : mask.len = (value.rows (plan.change row ordinal).side.other).length :=
    plan.len_conditionMatchesRow row _
  have hlimits : ∀ limit ∈ pageLimits pull mask, 2 ≤ limit := by
    intro limit hlimit
    obtain ⟨page, -, rfl⟩ := mem_map.mp hlimit
    exact le_max_left _ _
  have henough : ((plan.change row ordinal).entries mask value).length + 2 ≤
      (pageLimits pull mask).length := by
    have hentries := Change.length_entries_le (plan.change row ordinal) mask value
    rw [pageLimits, length_map, length_range, hlen]
    omega
  exact ⟨_, true, ChangeCursor.drainPages_start hlen (fun _ => hid) hlimits henough, rfl⟩

variable (plan) in
/-- A row from states that are alike. -/
theorem processRow_congr {state state' : JoinState ρ} (h : state.Alike state') (row : InputRow ρ)
    (ordinal : Int) :
    let mask := plan.conditionMatchesRow row (state.rows plan.side.other)
    ((plan.change row ordinal).transition mask state).1.Alike (plan.processRow state' row).1 ∧
      ((plan.change row ordinal).transition mask state).2.map OutputRow.content =
        (plan.processRow state' row).2.map OutputRow.content := by
  intro mask
  have hmask : mask = plan.conditionMatchesRow row (state'.rows plan.side.other) :=
    conditionMatchesRow_congr (h.map_row _) row
  rw [hmask]
  exact @Change.transition_congr _ (plan.change row 0) _ _ _ _ h ordinal

variable (plan) in
theorem whole_transition (entry : StagedState ρ) (row : InputRow ρ) (ordinal : Int)
    (hloaded : entry.unloaded = [] ∨ row.kind.adds = true) (mask : CandidateMatches) :
    (plan.change row ordinal).transition mask (entry.whole plan.side) =
      (StagedState.whole plan.side
          { entry with
            value := ((plan.change row ordinal).transition mask entry.value).1
            touched := true },
        ((plan.change row ordinal).transition mask entry.value).2) := by
  rcases hloaded with hnil | hadds
  · have hwhole : ∀ value : JoinState ρ, ∀ touched, StagedState.whole plan.side
        ⟨value, entry.unloaded, touched⟩ = value := by
      intro value touched
      unfold StagedState.whole
      rw [hnil, nil_append, setRows_self]
    have hentry : entry.whole plan.side = entry.value := hwhole entry.value entry.touched
    rw [hentry, hwhole]
  · exact @Change.transition_unloaded _ (plan.change row ordinal) _ _ _ hadds entry.unloaded

variable (plan) in
/-- The loaded state of a key after a row: with the rows that were not loaded it is alike to the
state after the row. -/
theorem drainRow_ok (entry : StagedState ρ) {state : JoinState ρ}
    (halike : (entry.whole plan.side).Alike state) (row : InputRow ρ) (ordinal : Int) (pull : Pull)
    (hloaded : entry.unloaded = [] ∨ row.kind.adds = true)
    (hid : entry.value.nextRowId plan.side + 1 < 2 ^ 64) :
    let mask := plan.conditionMatchesRow row (entry.value.rows plan.side.other)
    ∃ value output isDone, ChangeCursor.drainPages { change := plan.change row ordinal }
        entry.value mask (pageLimits pull mask) = .ok (value, output, isDone) ∧
      (StagedState.whole plan.side ⟨value, entry.unloaded, true⟩).Alike
        (plan.processRow state row).1 ∧
      output.map content = (plan.processRow state row).2.map content ∧
      value.nextRowId plan.side ≤ entry.value.nextRowId plan.side + 1 ∧
      (value.rows plan.side.other).map StoredRow.row =
        (entry.value.rows plan.side.other).map StoredRow.row := by
  intro mask
  obtain ⟨output, isDone, hdrain, houtput⟩ := plan.drainPages_row row ordinal pull entry.value hid
  -- the row from the whole state, of which the loaded one has the other side's rows
  have hother : (entry.whole plan.side).rows plan.side.other = entry.value.rows plan.side.other :=
    rows_setRows_other ..
  obtain ⟨hstate, hcontent⟩ := plan.processRow_congr halike row ordinal
  rw [hother, plan.whole_transition entry row ordinal hloaded mask] at hstate hcontent
  exact ⟨_, output, isDone, hdrain, hstate, by rw [houtput]; exact hcontent,
    @Change.nextRowId_transition_le _ (plan.change row ordinal) _ mask entry.value,
    @Change.map_row_transition _ (plan.change row ordinal) _ _ _
      (plan.len_conditionMatchesRow row _)⟩

/-- What a batch has done to the states it loaded: up to identities it is its rows one by one. -/
structure Drained (plan : Plan ρ) (staged : StateKey → StagedState ρ)
    (states : StateKey → JoinState ρ)
    (rows : List (InputRow ρ)) (staged' : StateKey → StagedState ρ) (output : List (OutputRow ρ)) :
    Prop where
  whole : ∀ key, ((staged' key).whole plan.side).Alike ((plan.processRows states rows).1 key)
  untouched : ∀ key, (staged' key).touched = false → staged' key = staged key
  identities : ∀ key, (staged' key).value.nextRowId plan.side ≤
    (staged key).value.nextRowId plan.side + rows.length
  output : output.map content = (plan.processRows states rows).2.map content

/-- **A batch is its rows one by one.**  The induction is on the rows: the masks that were prepared
are those of the next rows, because the row leaves the payloads of the other side alone. -/
theorem drainRows_ok (inputOffset : Nat) (rows : List (InputRow ρ × Pull))
    {states : StateKey → JoinState ρ} {index : Nat}
    (hwhole : ∀ key, ((staged key).whole plan.side).Alike (states key))
    (hloaded : ∀ key, (staged key).unloaded = [] ∨ ∀ row ∈ rows, row.1.kind.adds = true)
    (hcache : plan.Prepared staged cache (rows.map Prod.fst))
    (hordinals : inputOffset + index + rows.length ≤ 2 ^ 31)
    (hids : ∀ key, (staged key).value.nextRowId plan.side + rows.length < 2 ^ 64) :
    ∃ staged' output, plan.drainRows inputOffset staged cache index rows = .ok (staged', output) ∧
      plan.Drained staged states (rows.map Prod.fst) staged' output := by
  induction rows generalizing staged states cache index with
  | nil => exact ⟨staged, [], rfl, hwhole, fun _ _ => rfl, fun _ => Nat.le_add_right _ _, rfl⟩
  | cons first rows ih =>
    obtain ⟨row, pull⟩ := first
    rw [length_cons] at hordinals hids
    rw [map_cons] at hcache
    have hprepared := prepared_refill hcache pull.ahead
    have hid : (staged row.key).value.nextRowId plan.side + 1 < 2 ^ 64 := by
      have := hids row.key
      omega
    obtain ⟨value, output, isDone, hdrain, halike, hcontent, hnext, hpayload⟩ :=
      plan.drainRow_ok (staged row.key) (hwhole row.key) row (inputOffset + index : Nat) pull
        ((hloaded row.key).imp_right fun hall => hall (row, pull) mem_cons_self) hid
    -- the rest of the batch, from the states after the row
    let entry : StagedState ρ := { staged row.key with value := value, touched := true }
    have hwhole' : ∀ key, ((update staged row.key entry key).whole plan.side).Alike
        (update states row.key (plan.processRow (states row.key) row).1 key) := by
      intro key
      by_cases hkey : key = row.key
      · subst hkey
        rw [update_self, update_self]
        exact halike
      · rw [update_of_ne hkey, update_of_ne hkey]
        exact hwhole key
    have hkeep (key : StateKey) := (hloaded key).imp_right fun hall row hrow =>
      hall row (mem_cons_of_mem _ hrow)
    have hloaded' : ∀ key, (update staged row.key entry key).unloaded = [] ∨
        ∀ row ∈ rows, row.1.kind.adds = true :=
      (forall_update_iff staged fun _ (entry : StagedState ρ) => entry.unloaded = [] ∨ _).mpr
        ⟨hkeep row.key, fun key _ => hkeep key⟩
    have hcache' : plan.Prepared (update staged row.key entry)
        (plan.refill staged cache (row :: rows.map Prod.fst) pull.ahead).tail
            (rows.map Prod.fst) := by
      refine hprepared.tail fun other => ?_
      unfold candidates
      by_cases hkey : other.key = row.key
      · rw [hkey, update_self]
        exact hpayload
      · rw [update_of_ne hkey]
    have hle : ∀ key, (update staged row.key entry key).value.nextRowId plan.side ≤
        (staged key).value.nextRowId plan.side + 1 :=
      (forall_update_iff staged fun key (entry : StagedState ρ) =>
        entry.value.nextRowId plan.side ≤ (staged key).value.nextRowId plan.side + 1).mpr
        ⟨hnext, fun key _ => Nat.le_succ _⟩
    obtain ⟨staged', outputs, hrest, hdrained⟩ := ih hwhole' hloaded' hcache'
      (show inputOffset + (index + 1) + rows.length ≤ 2 ^ 31 by omega) fun key => by
        have := hids key
        have := hle key
        omega
    refine ⟨staged', output ++ outputs, ?_, hdrained.whole, fun key huntouched => ?_,
      fun key => ?_, ?_⟩
    · rw [drainRows]
      dsimp only
      rw [hprepared.headD, if_pos (by omega), candidates, hdrain, Except.ok_bind]
      dsimp only
      rw [hrest]
      rfl
    · have hsame := hdrained.untouched key huntouched
      by_cases hkey : key = row.key
      · subst hkey
        rw [update_self] at hsame
        rw [hsame] at huntouched
        cases huntouched
      · rw [update_of_ne hkey] at hsame
        exact hsame
    · have := hdrained.identities key
      have := hle key
      rw [map_cons, length_cons]
      omega
    · rw [map_cons, processRows]
      rw [map_append, map_append, hdrained.output]
      exact congrArg (· ++ _) hcontent

omit [DecidableEq ρ] in
theorem whole_load (unload : Bool) (state : JoinState ρ) :
    (plan.load unload state).whole plan.side = state := by
  unfold load StagedState.whole
  cases unload with
  | false => exact setRows_self ..
  | true =>
    rw [if_pos rfl]
    rw [rows_setRows, append_nil, setRows_setRows, setRows_self]

omit [DecidableEq ρ] in
theorem nextRowId_load (unload : Bool) (state : JoinState ρ) :
    (plan.load unload state).value.nextRowId = state.nextRowId := by
  cases unload <;> rfl

omit [DecidableEq ρ] in
/-- Without a manifest only the identities are lost. -/
theorem root_alike (state : JoinState ρ) :
    (root state).Alike state ∧ ∀ side, (root state).nextRowId side ≤ state.nextRowId side := by
  unfold root
  split
  · rename_i hempty
    obtain ⟨hleft, hright⟩ := (Bool.and_eq_true _ _).mp hempty
    refine ⟨fun side => ?_, fun _ => Nat.zero_le _⟩
    cases side
    · rw [isEmpty_iff.mp hleft]
    · rw [isEmpty_iff.mp hright]
  · exact ⟨.refl _, fun _ => le_rfl⟩

theorem processRows_append (states : StateKey → JoinState ρ) (rows rows' : List (InputRow ρ)) :
    plan.processRows states (rows ++ rows') =
      ((plan.processRows (plan.processRows states rows).1 rows').1,
        (plan.processRows states rows).2 ++
            (plan.processRows (plan.processRows states rows).1 rows').2) := by
  induction rows generalizing states with
  | nil => rfl
  | cons row rows ih =>
    rw [cons_append, processRows, processRows]
    dsimp only
    rw [ih, append_assoc]

variable {states states' : StateKey → JoinState ρ}

variable (plan) in
/-- A batch from states that are alike. -/
theorem processBatch_ok (halike : ∀ key, (states key).Alike (states' key)) (batch : Batch ρ)
    (hordinals : batch.inputOffset + batch.rows.length ≤ 2 ^ 31)
    (hids : ∀ key, (states key).nextRowId plan.side + batch.rows.length < 2 ^ 64) :
    ∃ final output, plan.processBatch states batch = .ok (final, output) ∧
      (∀ key, (final key).Alike ((plan.processRows states' (batch.rows.map Prod.fst)).1 key)) ∧
      (∀ key, (final key).nextRowId plan.side ≤ (states key).nextRowId plan.side +
        batch.rows.length) ∧
      output.map content = (plan.processRows states' (batch.rows.map Prod.fst)).2.map content := by
  generalize hstaged : (fun key => plan.load
    ((batch.rows.all fun row => row.1.kind.adds) && batch.unload key) (states key)) = staged
  have hload : ∀ key, staged key = plan.load
      ((batch.rows.all fun row => row.1.kind.adds) && batch.unload key) (states key) := by
    intro key
    rw [← hstaged]
  have hwhole : ∀ key, (staged key).whole plan.side = states key := by
    intro key
    rw [hload]
    exact whole_load ..
  have hnext : ∀ key, (staged key).value.nextRowId = (states key).nextRowId := by
    intro key
    rw [hload, nextRowId_load]
  have hloaded : ∀ key, (staged key).unloaded = [] ∨ ∀ row ∈ batch.rows,
      row.1.kind.adds = true := by
    intro key
    rw [hload]
    by_cases hall : (batch.rows.all fun row => row.1.kind.adds) = true
    · exact Or.inr fun row hrow => all_eq_true.mp hall row hrow
    · refine Or.inl ?_
      rw [Bool.eq_false_of_not_eq_true hall, Bool.false_and]
      rfl
  have hordinals' : batch.inputOffset + 0 + batch.rows.length ≤ 2 ^ 31 := hordinals
  obtain ⟨staged', output, hdrain, hdrained⟩ := drainRows_ok batch.inputOffset batch.rows
    (fun key => hwhole key ▸ halike key) hloaded (rfl :
      plan.Prepared staged [] (batch.rows.map Prod.fst))
    hordinals' fun key => hnext key ▸ hids key
  refine ⟨fun key => plan.flush (states key) (staged' key), output, ?_, fun key =>
    ?_, fun key => ?_,
    hdrained.output⟩
  · unfold processBatch
    dsimp only
    rw [hstaged, hdrain, Except.ok_bind]
  · unfold flush
    dsimp only
    split
    · exact (root_alike _).1.trans (hdrained.whole key)
    · rename_i htouched
      have hsame := hdrained.untouched key (Bool.eq_false_of_not_eq_true htouched)
      rw [← hwhole key, ← hsame]
      exact hdrained.whole key
  · unfold flush
    dsimp only
    split
    · have hidentities := hdrained.identities key
      rw [length_map, hnext key] at hidentities
      exact ((root_alike _).2 plan.side).trans hidentities
    · exact Nat.le_add_right _ _

variable (plan) in
/-- Batches end as their rows do one after the other. -/
theorem processBatches_ok (halike : ∀ key, (states key).Alike (states' key))
    (batches : List (Batch ρ))
    (hordinals : ∀ batch ∈ batches, batch.inputOffset + batch.rows.length ≤ 2 ^ 31)
    (hids : ∀ key, (states key).nextRowId plan.side +
      (batches.flatMap fun batch => batch.rows.map Prod.fst).length < 2 ^ 64) :
    ∃ final outputs, plan.processBatches states batches = .ok (final, outputs) ∧
      (∀ key, (final key).Alike ((plan.processRows states'
        (batches.flatMap fun batch => batch.rows.map Prod.fst)).1 key)) ∧
      outputs.map content = (plan.processRows states'
        (batches.flatMap fun batch => batch.rows.map Prod.fst)).2.map content := by
  induction batches generalizing states states' with
  | nil => exact ⟨states, [], rfl, halike, rfl⟩
  | cons batch batches ih =>
    obtain ⟨hfirst, hrest⟩ := forall_mem_cons.mp hordinals
    simp only [flatMap_cons, length_append, length_map] at hids
    obtain ⟨middle, output, hbatch, hmiddle, hle, hcontent⟩ :=
      plan.processBatch_ok halike batch hfirst
      fun key => by
        have := hids key
        omega
    obtain ⟨final, outputs, hbatches, hfinal, hcontents⟩ := ih hmiddle hrest fun key => by
      have := hids key
      have := hle key
      omega
    refine ⟨final, output ++ outputs, ?_, fun key => ?_, ?_⟩
    · rw [processBatches, hbatch, Except.ok_bind]
      dsimp only
      rw [hbatches]
      rfl
    · rw [flatMap_cons, processRows_append]
      exact hfinal key
    · rw [flatMap_cons, processRows_append, map_append, map_append, hcontent, hcontents]

/-- A batch with a row number that does not fit fails. -/
theorem drainRows_error (inputOffset : Nat) (rows : List (InputRow ρ × Pull))
    (staged : StateKey → StagedState ρ) (cache : List CandidateMatches) (index : Nat)
    (hindex : inputOffset + index ≤ 2 ^ 31)
    (h : 2 ^ 31 < inputOffset + index + rows.length) :
    ∃ error, plan.drainRows inputOffset staged cache index rows = .error error := by
  induction rows generalizing staged cache index with
  | nil => exact absurd h (by simpa using hindex)
  | cons first rows ih =>
    obtain ⟨row, pull⟩ := first
    rw [length_cons] at h
    rw [drainRows]
    dsimp only
    by_cases hordinal : inputOffset + index < 2 ^ 31
    · rw [if_pos hordinal]
      cases hpages :
        ChangeCursor.drainPages { change := plan.change row (inputOffset + index : Nat) }
          (staged row.key).value _ _ with
      | error error => exact ⟨error, rfl⟩
      | ok drained =>
        obtain ⟨value, output, isDone⟩ := drained
        obtain ⟨error, herror⟩ := ih _ _ (index + 1) (by omega) (by omega)
        rw [Except.ok_bind]
        rw [herror]
        exact ⟨error, rfl⟩
    · rw [if_neg hordinal]
      exact ⟨_, rfl⟩

end

end Plan

/-- A left outer join with a residual condition. -/
def orderedPlan : Plan Nat := ⟨.left, .left, some fun row candidate => row < candidate⟩

/-- A left row and how its output is pulled. -/
def leftRow (row : Nat) : InputRow Nat × Pull := (⟨⟨0, []⟩, .insert, row, true⟩, ⟨2, fun _ => 4⟩)

-- a key that a cut leaves without rows starts its identities anew
example :
    let row (kind : Kind) (row : Nat) : InputRow Nat × Pull :=
      (⟨⟨0, []⟩, kind, row, true⟩, ⟨2, fun _ => 4⟩)
    let empty : StateKey → JoinState Nat := fun _ => ⟨fun _ => 0, fun _ => []⟩
    let ids (result : Except StateError ((StateKey → JoinState Nat) × List (OutputRow Nat))) :=
      result.toOption.map fun result => (result.1 ⟨0, []⟩).rows .left
    ids (orderedPlan.processBatches empty
        [⟨0, fun _ => false, [row .insert 5, row .delete 5, row .insert 6]⟩]) = some [⟨1, 6, 0⟩] ∧
      ids (orderedPlan.processBatches empty [⟨0, fun _ => false, [row .insert 5, row .delete 5]⟩,
        ⟨0, fun _ => false, [row .insert 6]⟩]) = some [⟨0, 6, 0⟩] := by
  decide

theorem processBatch_error (rows : List (InputRow Nat × Pull)) (h : 2 ^ 31 < rows.length) :
    ∃ error, orderedPlan.processBatch (fun _ => padded) ⟨0, fun _ => false, rows⟩ =
        .error error := by
  obtain ⟨error, herror⟩ := @Plan.drainRows_error Nat orderedPlan _ 0 rows
    (fun _ => orderedPlan.load ((rows.all fun row => row.1.kind.adds) && false) padded) [] 0
    (Nat.zero_le _) (by omega)
  refine ⟨error, ?_⟩
  unfold Plan.processBatch
  dsimp only
  rw [herror]
  rfl

theorem processBatches_fits (rows rows' : List (InputRow Nat × Pull)) (h : rows.length ≤ 2 ^ 31)
    (h' : rows'.length ≤ 2 ^ 31) : ∃ result, orderedPlan.processBatches (fun _ => padded)
      [⟨0, fun _ => false, rows⟩, ⟨0, fun _ => false, rows'⟩] = .ok result := by
  have hordinals : ∀ batch ∈ [(⟨0, fun _ => false, rows⟩ : Batch Nat), ⟨0, fun _ => false, rows'⟩],
      batch.inputOffset + batch.rows.length ≤ 2 ^ 31 := by
    simp only [forall_mem_cons, Nat.zero_add]
    exact ⟨h, h', by simp⟩
  obtain ⟨final, outputs, hbatches, -⟩ := orderedPlan.processBatches_ok
    (fun _ => .refl padded) _ hordinals fun key => by
      have hnext : padded.nextRowId orderedPlan.side = 1 := rfl
      simp only [flatMap_cons, flatMap_nil, append_nil, length_append, length_map, hnext]
      omega
  exact ⟨_, hbatches⟩

end StreamFusion.RegularJoin
