import StreamFusion.RegularJoin.Model

/-!
# The change cursor and the transition at once

A page of the cursor goes through some of the candidates that are left (`drainCandidates_spec`), so
that after any number of pages the state is that of the transition up to some candidate (`stateAt`),
and the pages together are what the transition has emitted up to there.  A page that stops early has
emitted at least one row, hence has gone through at least one candidate, and so the cursor
completes.
-/

namespace StreamFusion.RegularJoin

open State List ChangeCursor JoinState Function Except
open Changelog (Kind)

variable {ρ : Type}

/-! ## The rows of the two sides -/

namespace JoinState

variable (state : JoinState ρ) (side : Side) (rows rows' : List (StoredRow ρ)) (id : Nat)

@[simp] theorem rows_setRows : (state.setRows side rows).rows side = rows := update_self ..

@[simp] theorem rows_setRows_other : (state.setRows side rows).rows side.other =
    state.rows side.other :=
  update_of_ne (Side.other_ne side) ..

@[simp] theorem rows_setRows_of_other : (state.setRows side.other rows).rows side =
    state.rows side :=
  update_of_ne (Ne.symm (Side.other_ne side)) ..

@[simp] theorem nextRowId_setRows : (state.setRows side rows).nextRowId = state.nextRowId := rfl

@[simp] theorem rows_setNextRowId : (state.setNextRowId side id).rows = state.rows := rfl

@[simp] theorem setRows_setRows : (state.setRows side rows).setRows side rows' =
    state.setRows side rows' := by
  unfold setRows
  rw [update_idem]

theorem setRows_self : state.setRows side (state.rows side) = state := by
  unfold setRows
  rw [update_eq_self]

theorem setRows_comm : (state.setRows side.other rows').setRows side rows =
    (state.setRows side rows).setRows side.other rows' := by
  unfold setRows
  rw [update_comm (Side.other_ne side)]

end JoinState

/-! ## Going through the candidates -/

namespace Change

variable (change : Change ρ) (visit : StoredRow ρ → StoredRow ρ × List (OutputRow ρ))

theorem forMatches_append (first second : List (StoredRow ρ × Bool)) :
    forMatches visit (first ++ second) = ((forMatches visit first).1 ++ (forMatches visit second).1,
        (forMatches visit first).2 ++ (forMatches visit second).2) := by
  induction first with
  | nil => rfl
  | cons entry first ih =>
    obtain ⟨row, isMatch⟩ := entry
    rw [cons_append, forMatches, forMatches, ih]
    cases isMatch
    · rfl
    · simp

theorem length_forMatches (entries : List (StoredRow ρ × Bool)) :
    (forMatches visit entries).1.length = entries.length := by
  induction entries with
  | nil => rfl
  | cons entry entries ih =>
    obtain ⟨row, isMatch⟩ := entry
    rw [forMatches]
    cases isMatch <;> simp [ih]

variable {rows : List (StoredRow ρ)}

/-- Nothing matches. -/
theorem forMatches_of_count {values : List Bool} (hlength : values.length = rows.length)
    (h : values.count true = 0) : forMatches visit (rows.zip values) = (rows, []) := by
  induction rows generalizing values with
  | nil => rfl
  | cons row rows ih =>
    obtain ⟨value, values, rfl⟩ := exists_cons_of_length_eq_add_one hlength
    cases value with
    | true => simp at h
    | false =>
      rw [zip_cons_cons, forMatches, ih (by simpa using hlength) (by simpa using h)]
      rfl

/-- A page goes through the first candidates that are left.  If it stops, no two rows more fit. -/
theorem drainCandidates_spec (limit : Nat) (output : List (OutputRow ρ))
    (entries : List (StoredRow ρ × Bool)) :
    ∃ visited ≤ entries.length, ∃ isDone, change.drainCandidates limit output entries =
        ((forMatches change.visitCandidate (entries.take visited)).1 ++
            (entries.drop visited).map Prod.fst, visited,
          output ++ (forMatches change.visitCandidate (entries.take visited)).2, isDone) ∧
      (isDone = true → visited = entries.length) ∧
      (isDone = false → limit <
        (output ++ (forMatches change.visitCandidate (entries.take visited)).2).length + 2) := by
  induction entries generalizing output with
  | nil => exact ⟨0, le_refl _, true, by simp [drainCandidates, forMatches], fun _ => rfl, by simp⟩
  | cons entry entries ih =>
    obtain ⟨row, isMatch⟩ := entry
    cases isMatch with
    | false =>
      obtain ⟨visited, hle, isDone, hdrain, hall, hstop⟩ := ih output
      refine ⟨visited + 1, by simpa using hle, isDone, ?_, by simpa using hall, ?_⟩
      · rw [drainCandidates, hdrain, take_succ_cons, forMatches]
        rfl
      · rw [take_succ_cons, forMatches]
        exact hstop
    | true =>
      by_cases hfits : limit < output.length + 2
      · refine ⟨0, Nat.zero_le _, false, ?_, by simp, ?_⟩
        · rw [drainCandidates, if_pos hfits]
          simp [forMatches]
        · simpa [forMatches] using hfits
      · obtain ⟨visited, hle, isDone, hdrain, hall, hstop⟩ :=
          ih (output ++ (change.visitCandidate row).2)
        refine ⟨visited + 1, by simpa using hle, isDone, ?_, by simpa using hall, ?_⟩
        · rw [drainCandidates, if_neg hfits, hdrain, take_succ_cons, forMatches]
          simp
        · rw [take_succ_cons, forMatches]
          simpa using hstop

/-! ## The state between two pages -/

variable [DecidableEq ρ] (candidates : CandidateMatches) (state : JoinState ρ)

/-- A retracted row leaves before the candidates are visited. -/
def opened : JoinState ρ :=
  if change.accumulate then state
  else state.setRows change.side (removeRow change.input (state.rows change.side))

/-- The candidates that the change goes through. -/
def entries : List (StoredRow ρ × Bool) :=
  if change.visitsCandidates then (state.rows change.side.other).zip candidates.values else []

/-- The state once `visited` candidates were gone through. -/
def stateAt (visited : Nat) : JoinState ρ :=
  (change.opened state).setRows change.side.other
    ((forMatches change.visitCandidate ((change.entries candidates state).take visited)).1 ++
      (state.rows change.side.other).drop visited)

/-- What `more` candidates emit after `visited` ones. -/
def emitted (visited more : Nat) : List (OutputRow ρ) :=
  (forMatches change.visitCandidate (((change.entries candidates state).drop visited).take more)).2

/-- What a change emits of its own row. -/
def ownRow : List (OutputRow ρ) :=
  if change.emitsOwn candidates then
    [pushPair change.side (some change.input) none change.ownKind change.ordinal] else []

/-- The state once the change is complete, from the state once the candidates are gone through. -/
def closed (middle : JoinState ρ) : JoinState ρ :=
  if change.accumulate then
    (middle.setNextRowId change.side (middle.nextRowId change.side + 1)).setRows change.side
      (middle.rows change.side ++
        [⟨middle.nextRowId change.side, change.input, change.ownAssociations candidates⟩])
  else middle

/-- The change at once: all candidates, then what is left. -/
def transition : JoinState ρ × List (OutputRow ρ) :=
  (change.closed candidates
      (change.stateAt candidates state (change.entries candidates state).length),
    (forMatches change.visitCandidate (change.entries candidates state)).2 ++
      change.ownRow candidates)

variable {change candidates state}

@[simp] theorem rows_opened_other :
    (change.opened state).rows change.side.other = state.rows change.side.other := by
  unfold opened
  split
  · rfl
  · exact rows_setRows_other ..

@[simp] theorem nextRowId_opened : (change.opened state).nextRowId = state.nextRowId := by
  unfold opened
  split <;> rfl

theorem stateAt_zero : change.stateAt candidates state 0 = change.opened state := by
  rw [stateAt, take_zero, drop_zero, forMatches, nil_append, ← rows_opened_other, setRows_self]

@[simp] theorem rows_stateAt_other (visited : Nat) :
    (change.stateAt candidates state visited).rows change.side.other =
      (forMatches change.visitCandidate ((change.entries candidates state).take visited)).1 ++
        (state.rows change.side.other).drop visited := rows_setRows ..

omit [DecidableEq ρ] in
variable (change candidates state) in
theorem length_entries_le :
    (change.entries candidates state).length ≤ (state.rows change.side.other).length := by
  unfold entries
  split
  · rw [length_zip]
    exact min_le_left _ _
  · exact Nat.zero_le _

variable {visited : Nat}

section

variable (hle : visited ≤ (change.entries candidates state).length)
include hle

theorem length_rows_stateAt :
    ((change.stateAt candidates state visited).rows change.side.other).length =
      (state.rows change.side.other).length := by
  have := length_entries_le change candidates state
  rw [rows_stateAt_other, length_append, length_forMatches, length_take, length_drop]
  omega

/-- The rows that are left are as they were. -/
theorem drop_stateAt :
    ((change.stateAt candidates state visited).rows change.side.other).drop visited =
      (state.rows change.side.other).drop visited := by
  have hfront : (forMatches change.visitCandidate
      ((change.entries candidates state).take visited)).1.length = visited := by
    rw [length_forMatches, length_take]
    omega
  rw [rows_stateAt_other]
  exact drop_left' hfront

end

omit [DecidableEq ρ] in
variable (change candidates state) in
/-- What a page does to the rows that are left. -/
theorem drainOther_spec (h : candidates.len = (state.rows change.side.other).length) (limit : Nat)
    (output : List (OutputRow ρ))
    (hle : visited ≤ (change.entries candidates state).length) :
    ∃ more, visited + more ≤ (change.entries candidates state).length ∧ ∃ isDone,
      change.drainOther limit output ((state.rows change.side.other).drop visited)
          (candidates.values.drop visited) =
        ((forMatches change.visitCandidate
          (((change.entries candidates state).drop visited).take more)).1 ++
            (state.rows change.side.other).drop (visited + more), more,
          output ++ change.emitted candidates state visited more, isDone) ∧
      (isDone = true → visited + more = (change.entries candidates state).length) ∧
      (isDone = false →
          limit < (output ++ change.emitted candidates state visited more).length + 2) := by
  unfold drainOther
  by_cases hvisits : change.visitsCandidates = true
  · have hentries : change.entries candidates state =
        (state.rows change.side.other).zip candidates.values := if_pos hvisits
    have hdrop :
      ((state.rows change.side.other).drop visited).zip (candidates.values.drop visited) =
        (change.entries candidates state).drop visited := by
      rw [hentries, zip_eq_zipWith, zip_eq_zipWith, drop_zipWith]
    obtain ⟨more, hmore, isDone, hdrain, hall, hstop⟩ := change.drainCandidates_spec limit output
      ((change.entries candidates state).drop visited)
    rw [length_drop] at hmore hall
    have hrest : (((change.entries candidates state).drop visited).drop more).map Prod.fst =
        (state.rows change.side.other).drop (visited + more) := by
      rw [drop_drop, hentries, map_drop, map_fst_zip (le_of_eq h.symm)]
    refine ⟨more, by omega, isDone, ?_, fun hdone => ?_, hstop⟩
    · rw [if_pos hvisits, hdrop, hdrain, hrest]
      rfl
    · have := hall hdone
      omega
  · have hentries : change.entries candidates state = [] := if_neg hvisits
    rw [hentries, length_nil, Nat.le_zero] at hle
    subst hle
    refine ⟨0, Nat.zero_le _, true, ?_, fun _ => by rw [hentries]; rfl, by simp⟩
    rw [if_neg hvisits, emitted, hentries]
    simp [forMatches]

omit [DecidableEq ρ] in
/-- A page with a row has gone through a candidate. -/
theorem pos_of_emitted {visited more : Nat}
    (h : 0 < (change.emitted candidates state visited more).length) : 0 < more := by
  rcases Nat.eq_zero_or_pos more with rfl | hmore
  · simp [emitted, forMatches] at h
  · exact hmore

omit [DecidableEq ρ] in
theorem emitted_append {visited more : Nat}
    (hle : visited + more ≤ (change.entries candidates state).length) :
    change.emitted candidates state visited more ++ change.emitted candidates state
        (visited + more) ((change.entries candidates state).length - (visited + more)) =
      change.emitted candidates state visited
          ((change.entries candidates state).length - visited) := by
  unfold emitted
  have hlast : (change.entries candidates state).length - visited =
      more + ((change.entries candidates state).length - (visited + more)) := by omega
  rw [hlast, take_add, forMatches_append, drop_drop]

omit [DecidableEq ρ] in
/-- The last candidates. -/
theorem emitted_last {visited more : Nat}
    (hend : visited + more = (change.entries candidates state).length) :
    change.emitted candidates state visited more =
      change.emitted candidates state visited
          ((change.entries candidates state).length - visited) := by
  rw [← hend, Nat.add_sub_cancel_left]

/-- Going on from one state between pages to the next. -/
theorem setRows_stateAt {visited more : Nat}
    (hle : visited + more ≤ (change.entries candidates state).length)
    (hrows : rows = (forMatches change.visitCandidate
        (((change.entries candidates state).drop visited).take more)).1 ++
      (state.rows change.side.other).drop (visited + more)) :
    (change.stateAt candidates state visited).setRows change.side.other
        (((change.stateAt candidates state visited).rows change.side.other).take visited ++ rows) =
      change.stateAt candidates state (visited + more) := by
  have hlength := length_entries_le change candidates state
  have hfront : (forMatches change.visitCandidate
      ((change.entries candidates state).take visited)).1.length = visited := by
    rw [length_forMatches, length_take]
    omega
  rw [rows_stateAt_other, take_left' hfront, stateAt, setRows_setRows, stateAt, hrows,
    ← append_assoc, take_add, forMatches_append]

end Change

variable {change : Change ρ} {candidates : CandidateMatches} {state : JoinState ρ}
    {cursor : ChangeCursor ρ}
  {output : List (OutputRow ρ)} (h : candidates.len = (state.rows change.side.other).length)

namespace ChangeCursor

variable [DecidableEq ρ]

open Change

/-- The first page starts by removing the retracted row. -/
theorem drainPage_start (output : List (OutputRow ρ)) (limit : Nat) (finalPage : Bool) :
    drainPage ⟨change, 0, false, false⟩ state candidates output limit finalPage =
      drainPage ⟨change, 0, true, false⟩ (change.opened state) candidates output
          limit finalPage := by
  unfold drainPage
  dsimp only
  rw [rows_opened_other]
  by_cases haccumulate : change.accumulate = true
  · simp [haccumulate, opened]
  · simp [haccumulate, opened]

variable {visited limit : Nat}

include h in
/-- A page from a state between pages: it stops at a later one, having filled up, or it goes through
all candidates that are left.  A page of the history that is not the last one is drained then. -/
theorem drainPage_spec (finalPage : Bool) (hpaged : finalPage = true ∨ change.joinType = .inner)
    (hle : visited ≤ (change.entries candidates state).length) (hlimit : 2 ≤ limit)
    (output : List (OutputRow ρ)) :
    ∃ more, visited + more ≤ (change.entries candidates state).length ∧
      ((drainPage ⟨change, visited, true,
        false⟩ (change.stateAt candidates state visited) candidates
            output limit finalPage =
          .ok (⟨change, visited + more, true, false⟩,
            change.stateAt candidates state (visited + more),
            output ++ change.emitted candidates state visited more, false) ∧
          limit < (output ++ change.emitted candidates state visited more).length + 2) ∨
        (visited + more = (change.entries candidates state).length ∧
          drainPage ⟨change, visited, true,
            false⟩ (change.stateAt candidates state visited) candidates
              output limit finalPage =
            if finalPage then
              finish ⟨change, visited + more, true, false⟩
                (change.stateAt candidates state (visited + more)) candidates
                (output ++ change.emitted candidates state visited more) limit
            else
              .ok (⟨change, 0, true, false⟩, change.stateAt candidates state (visited + more),
                output ++ change.emitted candidates state visited more, true))) := by
  have hpage : drainPage ⟨change, visited, true, false⟩ (change.stateAt candidates state visited)
      candidates output limit finalPage =
        resume ⟨change, visited, true, false⟩ (change.stateAt candidates state visited)
          candidates output
          limit finalPage := by
    have hkind : ¬ (!finalPage && decide (change.joinType ≠ .inner)) = true := by
      rcases hpaged with hfinal | hinner
      · simp [hfinal]
      · simp [hinner]
    unfold drainPage
    dsimp only
    rw [length_rows_stateAt hle, if_neg hkind, if_neg (by omega), if_neg (by simp),
      if_neg (by simp [h])]
    rfl
  obtain ⟨more, hmore, isDone, hdrain, hall, hstop⟩ :=
    drainOther_spec change candidates state h limit output hle
  have hstate := setRows_stateAt hmore rfl
  rw [hpage, resume]
  rw [drop_stateAt hle, hdrain]
  dsimp only
  rw [hstate]
  refine ⟨more, hmore, ?_⟩
  cases isDone with
  | false => exact .inl ⟨rfl, hstop rfl⟩
  | true =>
    refine .inr ⟨hall rfl, ?_⟩
    cases finalPage <;> rfl

variable {middle : JoinState ρ}

omit [DecidableEq ρ] in
/-- The end of the change, on a page with room for its own row. -/
theorem finish_ok (hroom : cursor.change.emitsOwn candidates = true → output.length < limit)
    (hid : cursor.change.accumulate = true → middle.nextRowId cursor.change.side + 1 < 2 ^ 64) :
    finish cursor middle candidates output limit =
      .ok ({ cursor with finished := true }, cursor.change.closed candidates middle,
        output ++ cursor.change.ownRow candidates, true) := by
  have hown : (if cursor.change.emitsOwn candidates = true then
      output ++ [pushPair cursor.change.side (some cursor.change.input) none cursor.change.ownKind
        cursor.change.ordinal] else output) = output ++ cursor.change.ownRow candidates := by
    unfold ownRow
    split
    · rfl
    · rw [append_nil]
  unfold finish closed
  dsimp only
  have hstay : ¬ (cursor.change.emitsOwn candidates && decide (limit ≤ output.length)) = true := by
    simpa using hroom
  rw [if_neg hstay, hown]
  by_cases haccumulate : cursor.change.accumulate = true
  · rw [if_pos haccumulate, if_pos haccumulate, if_pos (hid haccumulate), rows_setNextRowId]
  · rw [if_neg haccumulate, if_neg haccumulate]

section

variable (hid : change.accumulate = true → state.nextRowId change.side + 1 < 2 ^ 64)
include h hid

/-- **The pages of a change.**  Enough pages complete the change, and together they are what the
candidates and the change itself emit.  The induction is on the pages: one that does not complete
the change has at least one row, hence at least one candidate. -/
theorem drainPages_ok (limits : List Nat) (hlimits : ∀ limit ∈ limits, 2 ≤ limit)
    (hle : visited ≤ (change.entries candidates state).length)
    (henough : (change.entries candidates state).length - visited + 2 ≤ limits.length) :
    drainPages ⟨change, visited, true, false⟩ (change.stateAt candidates state visited)
      candidates limits =
      .ok (change.closed candidates
          (change.stateAt candidates state (change.entries candidates state).length),
        change.emitted candidates state visited
          ((change.entries candidates state).length - visited) ++
          change.ownRow candidates, true) := by
  induction limits generalizing visited with
  | nil => simp at henough
  | cons limit limits ih =>
    obtain ⟨hlimit, hrest⟩ := forall_mem_cons.mp hlimits
    rw [length_cons] at henough
    have hnext : ∀ at_, (change.stateAt candidates state at_).nextRowId =
        state.nextRowId := fun _ =>
      nextRowId_opened
    obtain ⟨more, hmore, ⟨hpage, hfull⟩ | ⟨hend, hpage⟩⟩ :=
      drainPage_spec h true (.inl rfl) hle hlimit []
    · rw [nil_append] at hpage hfull
      have := pos_of_emitted
        (show 0 < (change.emitted candidates state visited more).length by omega)
      rw [drainPages, hpage, ok_bind]
      dsimp only
      rw [if_neg (by simp), ih hrest hmore (by omega), ok_bind]
      rw [← append_assoc, emitted_append hmore]
    · rw [nil_append, if_pos rfl] at hpage
      have hidAt : change.accumulate = true →
          (change.stateAt candidates state (visited + more)).nextRowId change.side + 1 <
              2 ^ 64 := by
        rw [hnext]
        exact hid
      rw [drainPages, hpage]
      by_cases hroom : change.emitsOwn candidates = true →
          (change.emitted candidates state visited more).length < limit
      · rw [finish_ok hroom hidAt, ok_bind]
        dsimp only
        rw [if_pos rfl, emitted_last hend, hend]
      · obtain ⟨hown, hfull⟩ := Classical.not_imp.mp hroom
        have := pos_of_emitted
          (show 0 < (change.emitted candidates state visited more).length by omega)
        rw [finish, if_pos (by simp [hown, not_lt.mp hfull]), ok_bind]
        dsimp only
        rw [if_neg (by simp), ih hrest hmore (by omega), ok_bind]
        dsimp only
        rw [← append_assoc, emitted_append hmore]

/-- Enough pages carry a change to its end. -/
theorem drainPages_start {limits : List Nat} (hlimits : ∀ limit ∈ limits, 2 ≤ limit)
    (henough : (change.entries candidates state).length + 2 ≤ limits.length) :
    drainPages { change := change } state candidates limits =
      .ok ((change.transition candidates state).1,
          (change.transition candidates state).2, true) := by
  have hfirst : drainPages { change := change } state candidates limits =
      drainPages ⟨change, 0, true, false⟩ (change.stateAt candidates state 0)
          candidates limits := by
    cases limits with
    | nil => simp at henough
    | cons limit limits => rw [drainPages, drainPages, drainPage_start, stateAt_zero]
  rw [hfirst, drainPages_ok h hid limits hlimits (Nat.zero_le _) henough, emitted, drop_zero,
    Nat.sub_zero, take_length]
  rfl

end

end ChangeCursor

/-! ## The history of an inner join -/

section

variable [DecidableEq ρ] (hinner : change.joinType = .inner)

open Change

/-- The rows that the candidates emit in an inner join, which changes none of them. -/
def pairs (change : Change ρ) (entries : List (StoredRow ρ × Bool)) : List (OutputRow ρ) :=
  (entries.filter Prod.snd).map fun entry =>
    pushPair change.side (some change.input) (some entry.1.row) change.kind change.ordinal

include hinner

omit [DecidableEq ρ] in
theorem forMatches_inner (entries : List (StoredRow ρ × Bool)) :
    forMatches change.visitCandidate entries = (entries.map Prod.fst, pairs change entries) := by
  have hvisit (row : StoredRow ρ) : change.visitCandidate row = (row,
      [pushPair change.side (some change.input) (some row.row) change.kind change.ordinal]) := by
    simp [visitCandidate, isSemi, otherOuter, inputOuter, isOuter, hinner]
  induction entries with
  | nil => rfl
  | cons entry entries ih =>
    obtain ⟨row, isMatch⟩ := entry
    rw [forMatches, ih]
    cases isMatch <;> simp [pairs, hvisit]

omit [DecidableEq ρ] in
theorem entries_inner : change.entries candidates state =
    (state.rows change.side.other).zip candidates.values := by
  simp [entries, visitsCandidates, isSemi, hinner]

include h in
theorem stateAt_inner (visited : Nat) : change.stateAt candidates state visited =
    change.opened state := by
  rw [stateAt, forMatches_inner hinner, entries_inner hinner, map_take,
    map_fst_zip (le_of_eq h.symm),
    take_append_drop, ← rows_opened_other, setRows_self]

include h in
/-- **A page of the history.**  Enough output pages drain it, and together they are its pairs. -/
theorem ChangeCursor.drainHistoryPage_ok (limits : List Nat) (hlimits : ∀ limit ∈ limits, 2 ≤ limit)
    {visited : Nat} (hle : visited ≤ (change.entries candidates state).length)
    (henough : (change.entries candidates state).length - visited + 2 ≤ limits.length) :
    drainHistoryPage ⟨change, visited, true, false⟩ (change.opened state) candidates limits =
      .ok (⟨change, 0, true, false⟩, change.opened state,
        change.emitted candidates state visited
          ((change.entries candidates state).length - visited),
        true) := by
  induction limits generalizing visited with
  | nil => simp at henough
  | cons limit limits ih =>
    obtain ⟨hlimit, hrest⟩ := forall_mem_cons.mp hlimits
    rw [length_cons] at henough
    obtain ⟨more, hmore, ⟨hpage, hfull⟩ | ⟨hend, hpage⟩⟩ :=
      drainPage_spec h false (.inr hinner) hle hlimit []
    · rw [nil_append, stateAt_inner h hinner, stateAt_inner h hinner] at hpage
      rw [nil_append] at hfull
      have := pos_of_emitted
        (show 0 < (change.emitted candidates state visited more).length by omega)
      rw [drainHistoryPage, hpage, ok_bind]
      dsimp only
      rw [if_neg (by simp), ih hrest hmore (by omega), ok_bind]
      dsimp only
      rw [emitted_append hmore]
    · rw [nil_append, if_neg (by simp), stateAt_inner h hinner, stateAt_inner h hinner] at hpage
      rw [drainHistoryPage, hpage, ok_bind]
      dsimp only
      rw [if_pos rfl, emitted_last hend]

end

/-! ## The transition at once -/

namespace Change

variable [DecidableEq ρ]

include h in
/-- The state once all candidates were gone through. -/
theorem stateAt_length (hvisits : change.visitsCandidates = true) :
    change.stateAt candidates state (change.entries candidates state).length =
      (change.opened state).setRows change.side.other (forMatches change.visitCandidate
        ((state.rows change.side.other).zip candidates.values)).1 := by
  have hentries : change.entries candidates state =
      (state.rows change.side.other).zip candidates.values := if_pos hvisits
  have hlength : (change.entries candidates state).length =
      (state.rows change.side.other).length := by
    rw [hentries, length_zip]
    exact min_eq_left (le_of_eq h.symm)
  rw [stateAt, take_length, hlength, drop_length, append_nil, hentries]

theorem stateAt_left (hvisits : change.visitsCandidates = false) :
    change.stateAt candidates state (change.entries candidates state).length =
      change.opened state := by
  have hentries : change.entries candidates state = [] := if_neg (by simp [hvisits])
  rw [hentries]
  exact stateAt_zero

/-- The state with the identity of an added row given away. -/
def numbered (change : Change ρ) (state : JoinState ρ) : JoinState ρ :=
  if change.accumulate then state.setNextRowId change.side (state.nextRowId change.side + 1)
  else state

/-- A left row of a semi or anti join emits itself. -/
theorem processSemiAnti_left (hsemi : isSemi change.joinType = true) (hside : change.side = .left) :
    change.processSemiAnti (state.nextRowId change.side) candidates (change.numbered state) =
      (change.closed candidates (change.opened state), change.ownRow candidates) := by
  obtain ⟨joinType, side, kind, accumulate, input, ordinal⟩ := change
  cases hside
  -- the reference spells out the two cases in which presence and join type agree
  have hown : (if (isAnti ⟨joinType, .left, kind, accumulate, input, ordinal⟩ &&
    candidates.count = 0) ||
      (!isAnti ⟨joinType, .left, kind, accumulate, input, ordinal⟩ && 0 < candidates.count) then
        [⟨some input, none, kind, ordinal⟩] else []) =
      ownRow ⟨joinType, .left, kind, accumulate, input, ordinal⟩ candidates := by
    by_cases hcount : candidates.count = 0
    · simp [ownRow, emitsOwn, ownKind, pushPair, hsemi, hcount]
    · simp [ownRow, emitsOwn, ownKind, pushPair, hsemi, hcount, Nat.pos_of_ne_zero hcount]
  unfold processSemiAnti
  dsimp only at hown ⊢
  rw [hown]
  cases accumulate with
  | false => rfl
  | true => simp [closed, opened, numbered, ownAssociations, hsemi]

section

include h

/-- A right row of a semi or anti join emits the left rows it turns. -/
theorem processSemiAnti_right (hsemi : isSemi change.joinType = true)
    (hside : change.side = .right) :
    change.processSemiAnti (state.nextRowId change.side) candidates (change.numbered state) =
      (change.closed candidates
          (change.stateAt candidates state (change.entries candidates state).length),
        (forMatches change.visitCandidate (change.entries candidates state)).2) := by
  obtain ⟨joinType, side, kind, accumulate, input, ordinal⟩ := change
  cases hside
  have hright : isOuter joinType .right = false := by
    cases joinType <;> first | rfl | cases hsemi
  rw [stateAt_length h (by simp [visitsCandidates]), entries, if_pos (by simp [visitsCandidates])]
  unfold processSemiAnti
  cases accumulate with
  | false =>
    have hvisit : visitCandidate ⟨joinType, .right, kind, false, input, ordinal⟩ = fun left =>
        ({ left with associations := left.associations - 1 },
          if left.associations = 1 then
            [⟨some left.row, none, if isAnti ⟨joinType, .right, kind, false, input, ordinal⟩ then
              .insert else kind, ordinal⟩] else []) := by
      funext left
      simp [visitCandidate, hsemi, pushPair]
    rw [hvisit]
    rfl
  | true =>
    have hvisit : visitCandidate ⟨joinType, .right, kind, true, input, ordinal⟩ = fun left =>
        ({ left with associations := left.associations + 1 },
          if left.associations = 0 then
            [⟨some left.row, none, if isAnti ⟨joinType, .right, kind, true, input, ordinal⟩ then
              .delete else kind, ordinal⟩] else []) := by
      funext left
      simp [visitCandidate, hsemi, pushPair]
    have hown : ownAssociations ⟨joinType, .right, kind, true, input, ordinal⟩ candidates = 0 := by
      simp [ownAssociations, inputOuter, hright]
    rw [hvisit, closed, hown]
    exact Prod.ext (setRows_comm (state.setNextRowId _ _) Side.right _ _).symm rfl

omit h [DecidableEq ρ] in
/-- What the cursor and the reference do to a candidate, each in its own words. -/
theorem visitCandidate_join (hsemi : isSemi change.joinType = false) :
    change.visitCandidate =
      if change.accumulate then change.joinAccumulate else change.joinRetract := by
  funext row
  unfold visitCandidate joinAccumulate joinRetract
  rw [if_neg (by simp [hsemi])]
  cases change.accumulate <;> cases change.otherOuter <;> simp

/-- The other joins carry out the transition. -/
theorem processJoin_eq (hsemi : isSemi change.joinType = false) :
    change.processJoin (state.nextRowId change.side) candidates (change.numbered state) =
      change.transition candidates state := by
  have hvisits : change.visitsCandidates = true := by simp [visitsCandidates, hsemi]
  have hvisit := visitCandidate_join hsemi
  rw [transition, stateAt_length h hvisits, entries, if_pos hvisits]
  unfold processJoin
  dsimp only
  have hrow : change.ownRow candidates = if candidates.count = 0 then if change.inputOuter then
      [pushPair change.side (some change.input) none
        (if change.accumulate then .insert else .delete)
        change.ordinal] else [] else [] := by
    by_cases hcount : candidates.count = 0 <;> simp [ownRow, emitsOwn, ownKind, hsemi, hcount]
  by_cases haccumulate : change.accumulate = true
  · rw [if_pos haccumulate] at hvisit hrow
    have hown : change.ownAssociations candidates =
        if change.inputOuter then Int32.ofNat candidates.count else 0 := by
      simp [ownAssociations, hsemi]
    rw [hvisit, numbered, if_pos haccumulate, if_pos haccumulate, closed,
      if_pos haccumulate, hown, hrow]
    by_cases hcount : candidates.count = 0
    · rw [if_pos hcount, if_pos hcount, forMatches_of_count _ h hcount, opened, if_pos haccumulate]
      rfl
    · rw [if_neg hcount, if_neg hcount, opened, if_pos haccumulate, append_nil]
      rfl
  · rw [if_neg haccumulate] at hvisit hrow
    rw [hvisit, numbered, if_neg haccumulate, if_neg haccumulate, closed, if_neg haccumulate, hrow,
      opened, if_neg haccumulate, rows_setRows_other]
    by_cases hcount : candidates.count = 0
    · rw [if_pos hcount, if_pos hcount, forMatches_of_count _ h hcount]
      rfl
    · rw [if_neg hcount, if_neg hcount, append_nil]

/-- The reference, in the terms of the cursor, while there are identities. -/
theorem referenceProcessChange_eq (overflowChecks : Bool)
    (hid : change.accumulate = true → state.nextRowId change.side + 1 < 2 ^ 64) :
    change.referenceProcessChange overflowChecks candidates state =
      .ok (change.transition candidates state) := by
  have hnumbered : change.takeIdentity overflowChecks state = .ok (change.numbered state) := by
    unfold takeIdentity numbered
    split_ifs with haccumulate
    · rw [nextIdentity, if_pos (hid haccumulate)]
      rfl
    · rfl
  unfold referenceProcessChange
  dsimp only
  rw [hnumbered]
  refine congrArg Except.ok ?_
  by_cases hsemi : isSemi change.joinType = true
  · rw [if_pos hsemi, transition]
    by_cases hside : change.side = .left
    · have hvisits : change.visitsCandidates = false := by simp [visitsCandidates, hsemi, hside]
      rw [processSemiAnti_left hsemi hside, stateAt_left hvisits, entries,
        if_neg (by simp [hvisits]), forMatches, nil_append]
    · have hown : change.ownRow candidates = [] := by simp [ownRow, emitsOwn, hsemi, hside]
      rw [processSemiAnti_right h hsemi (by cases hside' : change.side <;> simp_all),
        hown, append_nil]
  · rw [if_neg hsemi]
    exact processJoin_eq h (by simpa using hsemi)

end

end Change

/-! ## The two agree -/

section

variable [DecidableEq ρ]

/-- Once the change is complete, further limits are not used. -/
theorem ChangeCursor.drainPages_append {state result : JoinState ρ} {limits : List Nat}
    (h : cursor.drainPages state candidates limits = .ok (result, output, true))
    (more : List Nat) :
    cursor.drainPages state candidates (limits ++ more) = .ok (result, output, true) := by
  induction limits generalizing cursor state output with
  | nil => simp [drainPages] at h
  | cons limit limits ih =>
    rw [drainPages] at h
    obtain ⟨⟨next, middle, page, isDone⟩, hpage, h⟩ := bind_eq_ok.mp h
    rw [cons_append, drainPages, hpage, ok_bind]
    dsimp only at h ⊢
    cases isDone with
    | true => exact h
    | false =>
      rw [if_neg (by simp)] at h ⊢
      obtain ⟨⟨last, pages, isDone⟩, hpages, h⟩ := bind_eq_ok.mp h
      cases h
      rw [ih hpages]
      rfl

section History

variable {last : HistoryPage ρ} {rows : List (StoredRow ρ)}

theorem Change.opened_setRows_other :
    (change.opened state).setRows change.side.other rows =
      change.opened (state.setRows change.side.other rows) := by
  unfold Change.opened
  split
  · rfl
  · rw [rows_setRows_of_other, setRows_comm]

/-- A page of the history whose mask fits and that has enough output pages. -/
def ChangeCursor.HistoryPage.Fits (page : HistoryPage ρ) : Prop :=
  page.candidates.len = page.rows.length ∧ (∀ limit ∈ page.limits, 2 ≤ limit) ∧
    page.rows.length + 2 ≤ page.limits.length

omit [DecidableEq ρ] in
/-- The masks of the pages are the mask of the history. -/
theorem ChangeCursor.zip_pages (pages : List (HistoryPage ρ)) (hpages : ∀ page ∈ pages, page.Fits) :
    (pages.flatMap fun page => page.candidates.values).length =
        (pages.flatMap HistoryPage.rows).length ∧
      (pages.flatMap HistoryPage.rows).zip (pages.flatMap fun page => page.candidates.values) =
        pages.flatMap fun page => page.rows.zip page.candidates.values := by
  induction pages with
  | nil => exact ⟨rfl, rfl⟩
  | cons page pages ih =>
    obtain ⟨⟨hpage, -⟩, hrest⟩ := forall_mem_cons.mp hpages
    have hmask : page.candidates.values.length = page.rows.length := hpage
    obtain ⟨hlength, hzip⟩ := ih hrest
    simp only [flatMap_cons, length_append, zip_append hmask.symm, hlength, hmask, hzip, and_self]

variable (hinner : change.joinType = .inner)
include hinner

omit [DecidableEq ρ] in
/-- An inner join stores a row without partners, whatever the mask is. -/
theorem Change.closed_inner (candidates candidates' : CandidateMatches) :
    (change.closed candidates state).setRows change.side.other rows =
      change.closed candidates' (state.setRows change.side.other rows) := by
  have hown (candidates : CandidateMatches) : change.ownAssociations candidates = 0 := by
    simp [Change.ownAssociations, Change.inputOuter, isOuter, isSemi, hinner]
  unfold Change.closed
  rw [hown, hown]
  split
  · rw [← setRows_comm, rows_setRows_of_other, nextRowId_setRows]
    rfl
  · rfl

include h in
theorem Change.transition_inner : change.transition candidates state =
    (change.closed candidates (change.opened state),
      pairs change ((state.rows change.side.other).zip candidates.values)) := by
  have hown : change.ownRow candidates = [] := by
    simp [Change.ownRow, Change.emitsOwn, Change.inputOuter, isOuter, isSemi, hinner]
  rw [Change.transition, stateAt_inner h hinner, entries_inner hinner,
    forMatches_inner hinner, hown,
    append_nil]

/-- A page of the history from a cursor that has started. -/
theorem ChangeCursor.HistoryPage.Fits.drain {page : HistoryPage ρ} (hpage : page.Fits) :
    drainHistoryPage ⟨change, 0, true,
      false⟩ ((change.opened state).setRows change.side.other page.rows)
        page.candidates page.limits =
      .ok (⟨change, 0, true, false⟩, change.opened (state.setRows change.side.other page.rows),
        pairs change (page.rows.zip page.candidates.values), true) := by
  obtain ⟨hmask, hlimits, henough⟩ := hpage
  have hlen : page.candidates.len =
      ((state.setRows change.side.other page.rows).rows change.side.other).length := by
    rw [rows_setRows, hmask]
  have hentries := Change.length_entries_le change page.candidates
    (state.setRows change.side.other page.rows)
  rw [rows_setRows] at hentries
  rw [Change.opened_setRows_other,
    drainHistoryPage_ok hlen hinner page.limits hlimits (Nat.zero_le _)
    (by omega), Change.emitted, drop_zero, Nat.sub_zero, take_length, forMatches_inner hinner,
    entries_inner hinner, rows_setRows]

/-- The history from a cursor that has started. -/
theorem ChangeCursor.drainHistory_ok
    (hid : change.accumulate = true → state.nextRowId change.side + 1 < 2 ^ 64)
    (hlast : last.Fits) (history : List (HistoryPage ρ)) (hhistory : ∀ page ∈ history, page.Fits) :
    drainHistory ⟨change, 0, true, false⟩ (change.opened state) last history =
      .ok (change.closed last.candidates
        (change.opened (state.setRows change.side.other last.rows)),
        pairs change ((history ++ [last]).flatMap fun page => page.rows.zip page.candidates.values),
        true) := by
  induction history generalizing state with
  | nil =>
    obtain ⟨hmask, hlimits, henough⟩ := hlast
    have hlen : last.candidates.len =
        ((state.setRows change.side.other last.rows).rows change.side.other).length := by
      rw [rows_setRows, hmask]
    have hentries := Change.length_entries_le change last.candidates
      (state.setRows change.side.other last.rows)
    rw [rows_setRows] at hentries
    have hown : change.ownRow last.candidates = [] := by
      simp [Change.ownRow, Change.emitsOwn, Change.inputOuter, isOuter, isSemi, hinner]
    have hpages := drainPages_ok hlen hid last.limits hlimits (Nat.zero_le _) (by omega)
    rw [stateAt_inner hlen hinner, stateAt_inner hlen hinner, Change.emitted,
      drop_zero, Nat.sub_zero,
      take_length, forMatches_inner hinner, entries_inner hinner, rows_setRows, hown,
        append_nil] at hpages
    rw [drainHistory, Change.opened_setRows_other, hpages]
    simp
  | cons page pages ih =>
    obtain ⟨hpage, hrest⟩ := forall_mem_cons.mp hhistory
    rw [drainHistory, hpage.drain hinner, ok_bind]
    dsimp only
    have hpages := @ih (state.setRows change.side.other page.rows) hid hrest
    rw [setRows_setRows] at hpages
    rw [if_pos rfl, hpages]
    simp [pairs, ok_bind]

/-- **A history in pages.**  A change of an inner join that reads the other side's history page by
page, in any pages and with any limits, is the change of the reference on the whole history; only
the last page is left of it. -/
theorem drainHistory_eq_referenceProcessChange
    (hid : change.accumulate = true → state.nextRowId change.side + 1 < 2 ^ 64) (hlast : last.Fits)
    (history : List (HistoryPage ρ)) (hhistory : ∀ page ∈ history,
      page.Fits) (overflowChecks : Bool) :
    ∃ result output, drainHistory { change } state last history = .ok (result, output, true) ∧
      change.referenceProcessChange overflowChecks
          ⟨(history ++ [last]).flatMap fun page => page.candidates.values⟩
          (state.setRows change.side.other ((history ++ [last]).flatMap HistoryPage.rows)) =
        .ok (result.setRows change.side.other ((history ++ [last]).flatMap HistoryPage.rows),
            output) := by
  -- the first page removes the retracted row
  have hstart : drainHistory { change } state last history =
      drainHistory ⟨change, 0, true, false⟩ (change.opened state) last history := by
    cases history with
    | nil =>
      obtain ⟨limit, limits, hlimits⟩ : ∃ limit limits, last.limits = limit :: limits :=
        exists_cons_of_ne_nil (ne_nil_of_length_pos (by have := hlast.2.2; omega))
      rw [drainHistory, drainHistory, hlimits, drainPages, drainPages, drainPage_start,
        Change.opened_setRows_other]
    | cons page pages =>
      obtain ⟨limit, limits, hlimits⟩ : ∃ limit limits, page.limits = limit :: limits :=
        exists_cons_of_ne_nil (ne_nil_of_length_pos (by
          have := (hhistory page mem_cons_self).2.2
          omega))
      rw [drainHistory, drainHistory, hlimits, drainHistoryPage, drainHistoryPage, drainPage_start,
        Change.opened_setRows_other]
  have hpages : ∀ page ∈ history ++ [last], page.Fits := by
    intro page hpage
    rcases mem_append.mp hpage with hpage | hpage
    · exact hhistory page hpage
    · exact mem_singleton.mp hpage ▸ hlast
  obtain ⟨hlength, hzip⟩ := ChangeCursor.zip_pages (history ++ [last]) hpages
  have hlen : (CandidateMatches.mk ((history ++ [last]).flatMap fun page =>
    page.candidates.values)).len =
      ((state.setRows change.side.other ((history ++ [last]).flatMap HistoryPage.rows)).rows
        change.side.other).length := by
    rw [rows_setRows]
    exact hlength
  refine ⟨_, _, hstart.trans (drainHistory_ok hinner hid hlast history hhistory), ?_⟩
  rw [Change.referenceProcessChange_eq hlen overflowChecks hid, Change.transition_inner hlen hinner,
    rows_setRows, hzip, Change.closed_inner hinner last.candidates, Change.opened_setRows_other,
    setRows_setRows]

end History

/-- **The cursor is the transition.**  A change that the cursor completes, with any limits of at
least two rows, has the result and the output of the reference, and it is complete after at most two
pages more than there are stored rows. -/
theorem drainPages_eq_referenceProcessChange (change : Change ρ) (candidates : CandidateMatches)
    (state : JoinState ρ) (hcandidates : candidates.len = (state.rows change.side.other).length)
    (hid : change.accumulate = true → state.nextRowId change.side + 1 < 2 ^ 64)
    (limits : List Nat) (hlimits : ∀ limit ∈ limits, 2 ≤ limit) (overflowChecks : Bool) :
    (∀ result output, drainPages { change := change } state candidates limits =
        .ok (result, output, true) →
      change.referenceProcessChange overflowChecks candidates state = .ok (result, output)) ∧
    ((state.rows change.side.other).length + 2 ≤ limits.length →
      ∃ result output, drainPages { change := change } state candidates limits =
        .ok (result, output, true)) := by
  have hentries := Change.length_entries_le change candidates state
  refine ⟨fun result output hdone => ?_, fun henough => ⟨_, _, drainPages_start
    hcandidates hid hlimits (by omega)⟩⟩
  have hmore := drainPages_append hdone
    (List.replicate ((state.rows change.side.other).length + 2) 2)
  rw [drainPages_start hcandidates hid ?_ ?_] at hmore
  · rw [Change.referenceProcessChange_eq hcandidates overflowChecks hid]
    cases hmore
    rfl
  · intro limit hlimit
    rcases mem_append.mp hlimit with hlimit | hlimit
    · exact hlimits limit hlimit
    · exact le_of_eq (eq_of_mem_replicate hlimit).symm
  · rw [length_append, length_replicate]
    omega

end

/-- A left row that arrives at one stored right row of a full join. -/
def padded : JoinState Nat :=
  { nextRowId := fun _ => 1
    rows := fun side => if side = .right then [⟨0, 7, 0⟩] else [] }

theorem drainPages_eq_referenceProcessChange_padded : ∃ result output,
      drainPages { change := ⟨.full, .left, .insert, true, 5, 0⟩ } padded ⟨[true]⟩
        [2, 2, 2] = .ok (result, output, true) ∧
      Change.referenceProcessChange ⟨.full, .left, .insert, true, 5, 0⟩ true ⟨[true]⟩ padded =
        .ok (result, output) := by
  have hlimits : ∀ limit ∈ [2, 2, 2], 2 ≤ limit := by decide
  have hcursor := drainPages_eq_referenceProcessChange ⟨.full, .left, .insert, true, 5, 0⟩ ⟨[true]⟩
    padded rfl (fun _ => by decide) [2, 2, 2] hlimits true
  obtain ⟨result, output, hdone⟩ := hcursor.2 (by decide)
  exact ⟨result, output, hdone, hcursor.1 result output hdone⟩

/-- A side that has given all identities but the last. -/
def exhausted : JoinState Nat :=
  { nextRowId := fun _ => 2 ^ 64 - 1
    rows := fun _ => [] }

/-- The cursor does not complete there, whatever the limits are: the identity of the row would not
be followed by another one. -/
theorem drainPages_exhausted {limit : Nat} (limits : List Nat) (hlimit : 2 ≤ limit) :
    drainPages { change := ⟨.left, .left, .insert, true, 5, 0⟩ } exhausted ⟨[]⟩ (limit :: limits) =
      .error (.execution "regular join row identity exhausted") := by
  have hroom : ¬ limit ≤ 0 := by omega
  have hsmall : ¬ limit < 2 := by omega
  simp [drainPages, drainPage, resume, finish, exhausted, Change.drainOther, Change.drainCandidates,
    Change.visitsCandidates, Change.emitsOwn, CandidateMatches.count, CandidateMatches.len, isSemi,
    Change.inputOuter, isOuter, JoinState.setRows, hroom, hsmall]

/-- The first page of two rows fails. -/
theorem exhausted_identity :
    drainPages { change := ⟨.left, .left, .insert, true, 5, 0⟩ } exhausted ⟨[]⟩ [2, 2] =
      .error (.execution "regular join row identity exhausted") :=
  drainPages_exhausted [2] (Nat.le_refl 2)

end StreamFusion.RegularJoin
