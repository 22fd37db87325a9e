import StreamFusion.RegularJoin.Batches

/-!
# The association counters of the regular join

A row of an outer side, and a left row of a semi or anti join, counts its partners on the other
side; what is emitted for it depends on the counter alone.  In every state that changes of the two
sides lead to, the counters are right up to the width of a Java int.  A retraction must find its
row, because the partners lose one in any case.
-/

namespace StreamFusion.RegularJoin

open List JoinState Change

variable {ρ : Type}

/-- Do the rows of the side count their partners? -/
def counting (joinType : RegularJoinType) (side : Side) : Bool :=
  isOuter joinType side || (isSemi joinType && side = .left)

/-- A side that counts is gone through, and its counters change by one. -/
theorem visits_of_counting {change : Change ρ}
    (h : counting change.joinType change.side.other = true) :
    change.visitsCandidates = true ∧ ∀ candidate, (change.visitCandidate candidate).1.associations =
      if change.accumulate then candidate.associations + 1 else candidate.associations - 1 := by
  obtain ⟨joinType, side, kind, accumulate, input, ordinal⟩ := change
  cases joinType <;> cases side <;> cases accumulate <;> simp_all [counting, isSemi,
    isOuter, Side.other,
    visitsCandidates, visitCandidate, otherOuter]

theorem forMatches_map (visit : StoredRow ρ → StoredRow ρ × List (OutputRow ρ))
    (isMatch : StoredRow ρ → Bool) (rows : List (StoredRow ρ)) :
    (forMatches visit (rows.zip (rows.map isMatch))).1 =
      rows.map fun row => if isMatch row then (visit row).1 else row := by
  induction rows with
  | nil => rfl
  | cons row rows ih =>
    rw [map_cons, zip_cons_cons, forMatches, map_cons, ← ih]
    cases isMatch row <;> rfl

section

variable (joins : Side → ρ → ρ → Bool) (change : Change ρ) (state : JoinState ρ)

/-- The number of rows of the other side that a row joins. -/
def partners (side : Side) (row : ρ) : Nat :=
  ((state.rows side.other).map StoredRow.row).countP (joins side row)

/-- Every stored row of a counting side has the number of its partners. -/
def Counted (joinType : RegularJoinType) : Prop :=
  ∀ side, counting joinType side = true → ∀ row ∈ state.rows side,
    row.associations = Int32.ofNat (partners joins state side row.row)

/-- Which rows of the other side the input row joins. -/
def matching : CandidateMatches :=
  ⟨(state.rows change.side.other).map fun candidate => joins change.side change.input candidate.row⟩

/-- The state after a change. -/
def step [DecidableEq ρ] : JoinState ρ :=
  (change.transition (matching joins change state) state).1

end

variable [DecidableEq ρ] {joins : Side → ρ → ρ → Bool} {change : Change ρ} {state : JoinState ρ}

/-- The states that changes of the two sides lead to, page by page. -/
inductive Reachable (joinType : RegularJoinType) (joins : Side → ρ → ρ → Bool) : JoinState ρ → Prop
  | empty : Reachable joinType joins ⟨fun _ => 0, fun _ => []⟩
  | drained {change : Change ρ} {state after : JoinState ρ} {limits : List Nat}
    {output : List (OutputRow ρ)} (htype : change.joinType = joinType)
    (hid : state.nextRowId change.side + 1 < 2 ^ 64)
    (hstored : change.accumulate = false →
      change.input ∈ (state.rows change.side).map StoredRow.row)
    (hlimits : ∀ limit ∈ limits, 2 ≤ limit)
    (henough : (state.rows change.side.other).length + 2 ≤ limits.length)
    (hpages : ChangeCursor.drainPages { change } state (matching joins change state) limits =
      .ok (after, output, true)) : Reachable joinType joins state → Reachable joinType joins after

omit [DecidableEq ρ] in
theorem len_matching : (matching joins change state).len = (state.rows change.side.other).length :=
  length_map ..

theorem rows_step_other (hvisits : change.visitsCandidates = true) :
    (step joins change state).rows change.side.other =
        (state.rows change.side.other).map fun candidate =>
      if joins change.side change.input candidate.row then (change.visitCandidate candidate).1
      else candidate := by
  rw [step, transition, rows_closed_other, stateAt_length len_matching hvisits,
    rows_setRows, matching, forMatches_map]

section

variable (hsymm : ∀ side row other, joins side.other other row = joins side row other)
  (hstored : change.accumulate = false → change.input ∈ (state.rows change.side).map StoredRow.row)
include hsymm hstored

/-- A change gives or takes one partner of the rows of the other side that it joins. -/
theorem partners_step (row : ρ) : let joined := if joins change.side change.input row then 1 else 0
    let before := partners joins state change.side.other row
    let after := partners joins (step joins change state) change.side.other row
    if change.accumulate then after = before + joined else before = after + joined := by
  have hback : change.side.other.other = change.side := by cases change.side <;> rfl
  have hsame : (change.input == ·) ∘ StoredRow.row =
      fun candidate => decide (candidate.row = change.input) :=
    funext fun _ => decide_eq_decide.mpr eq_comm
  dsimp only
  rw [partners, partners, hback, step, rows_transition_own]
  cases hadds : change.accumulate with
  | true => simp [countP_append, countP_cons, hsymm]
  | false =>
    rw [(perm_cons_erase (hstored hadds)).countP_eq, erase_eq_eraseP, eraseP_map, hsame]
    simp [removeRow, countP_cons, hsymm]

/-- A change keeps the numbers of partners right. -/
theorem Counted.step (h : Counted joins state change.joinType) :
    Counted joins (step joins change state) change.joinType := by
  intro side hcounting row hrow
  obtain rfl | rfl : side = change.side ∨ side = change.side.other := by
    cases side <;> cases change.side <;> simp [Side.other]
  · -- the other side has the rows that it had
    rw [partners, RegularJoin.step, map_row_transition len_matching]
    rw [RegularJoin.step, rows_transition_own] at hrow
    split at hrow
    · rcases mem_append.mp hrow with hold | hnew
      · exact h _ hcounting row hold
      · obtain rfl := mem_singleton.mp hnew
        refine (if_pos hcounting).trans (congrArg Int32.ofNat ?_)
        simp [CandidateMatches.count, matching, count, countP_map, Function.comp_def]
    · exact h _ hcounting row (mem_of_mem_eraseP hrow)
  · obtain ⟨hvisits, hassociations⟩ := visits_of_counting hcounting
    rw [rows_step_other hvisits] at hrow
    obtain ⟨candidate, hcandidate, rfl⟩ := mem_map.mp hrow
    have hbefore := h _ hcounting candidate hcandidate
    have hpartners := partners_step hsymm hstored candidate.row
    split_ifs with hjoins
    · rw [if_pos hjoins] at hpartners
      rw [hassociations, row_visitCandidate, hbefore]
      cases hadds : change.accumulate <;> rw [hadds] at hpartners <;> dsimp only at hpartners
      · rw [hpartners, Int32.ofNat_add]
        exact Int32.add_sub_cancel _ _
      · rw [hpartners, Int32.ofNat_add]
        rfl
    · rw [if_neg hjoins] at hpartners
      rw [hbefore]
      split at hpartners <;> rw [hpartners] <;> rfl

end

/-- **The counters are the numbers of partners**, in every state that is reached. -/
theorem counters_are_partners (joinType : RegularJoinType) (joins : Side → ρ → ρ → Bool)
    (hsymm : ∀ side row other, joins side.other other row = joins side row other)
      (state : JoinState ρ)
    (h : Reachable joinType joins state) : Counted joins state joinType := by
  induction h with
  | empty => exact fun _ _ _ hrow => nomatch hrow
  | @drained change state after limits output htype hid hstored hlimits henough hpages _ ih =>
    have hentries := length_entries_le change (matching joins change state) state
    rw [ChangeCursor.drainPages_start len_matching (fun _ => hid) hlimits (by omega)] at hpages
    have hafter : step joins change state = after := congrArg Prod.fst (Except.ok.inj hpages)
    subst htype
    exact hafter ▸ ih.step hsymm hstored

/-- A left row finds a partner. -/
theorem counters_are_partners_two_rows : ∃ state : JoinState Nat, state.rows .left = [⟨0, 5, 1⟩] ∧
    Counted (fun _ row other => row == other) state .left := by
  have hleft := @Reachable.drained Nat _ .left (fun _ row other => row == other)
    ⟨.left, .left, .insert, true, 5, 0⟩ _ _ [2, 2] _ rfl (by decide) nofun (by decide)
      (by decide) rfl .empty
  exact ⟨_, rfl, counters_are_partners .left _ (fun _ _ _ => BEq.comm) _ (@Reachable.drained _ _ _ _
    ⟨.left, .right, .insert, true, 5, 0⟩ _ _ [2, 2, 2] _ rfl (by decide) nofun
      (by decide) (by decide)
    rfl hleft)⟩

end StreamFusion.RegularJoin
