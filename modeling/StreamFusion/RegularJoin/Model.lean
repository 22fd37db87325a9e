import StreamFusion.Lib.Changelog
import StreamFusion.Lib.Outcome
import StreamFusion.State.Backend

/-!
# Changes of the regular join

A change of one side of the join of `planner/operators/regular_join.rs` meets the stored rows of the
other side that it matches.  What it does to them is written twice in the source: as a transition
that goes through all of them at once (`transitions.rs`), and as a cursor that can stop after any of
them, because the rows of one output page are limited (`change_cursor.rs`).

A candidate that matches may emit two rows, the retraction of a null-padded row and the joined row,
which must not be torn apart; so the cursor goes on only if two more rows fit.

The mask of the candidates that match is given.  Memory accounting is left out.
-/

namespace StreamFusion.RegularJoin

open State
open Changelog (Kind)

/-- The join types. -/
inductive RegularJoinType where
  | inner
  | left
  | right
  | full
  | semi
  | anti
  deriving DecidableEq, Repr

/-- The sides of the join. -/
inductive Side where
  | left
  | right
  deriving DecidableEq, Repr

/-- The other side. -/
def Side.other : Side → Side
  | left => right
  | right => left

@[simp] theorem Side.other_ne (side : Side) : side.other ≠ side := by
  cases side <;> exact Side.noConfusion

/-- A stored row, with its number and the number of its partners. -/
structure StoredRow (ρ : Type) where
  id : Nat
  row : ρ
  /-- A Java int in the original, with its wrapping arithmetic. -/
  associations : Int32
  deriving DecidableEq

/-- The state of a key: the next number and the rows of each side. -/
structure JoinState (ρ : Type) where
  nextRowId : Side → Nat
  rows : Side → List (StoredRow ρ)

/-- An output row; a missing side is padded with nulls. -/
structure OutputRow (ρ : Type) where
  left : Option ρ
  right : Option ρ
  kind : Kind
  inputOrdinal : Int
  deriving DecidableEq, Repr

/-- For every stored row of the other side, whether the change matches it. -/
structure CandidateMatches where
  values : List Bool

/-- The number of candidates. -/
def CandidateMatches.len (candidates : CandidateMatches) : Nat := candidates.values.length

/-- The number of those that match. -/
def CandidateMatches.count (candidates : CandidateMatches) : Nat := candidates.values.count true

/-- Are the rows of the side emitted without a partner? -/
def isOuter (joinType : RegularJoinType) (side : Side) : Bool :=
  joinType = .full || (side = .left && joinType = .left) || (side = .right && joinType = .right)

/-- Are only left rows emitted? -/
def isSemi (joinType : RegularJoinType) : Bool := joinType = .semi || joinType = .anti

variable {ρ : Type}

section

/-- An output row, seen from the side of the input. -/
def pushPair (inputSide : Side) (input other : Option ρ) (kind : Kind)
    (ordinal : Int) : OutputRow ρ :=
  match inputSide with
  | .left => ⟨input, other, kind, ordinal⟩
  | .right => ⟨other, input, kind, ordinal⟩

/-- The rows and the next identity of one side are replaced. -/
def JoinState.setRows (state : JoinState ρ) (side : Side)
    (rows : List (StoredRow ρ)) : JoinState ρ :=
  { state with rows := Function.update state.rows side rows }

/-- Sets the next number of a side. -/
def JoinState.setNextRowId (state : JoinState ρ) (side : Side) (id : Nat) : JoinState ρ :=
  { state with nextRowId := Function.update state.nextRowId side id }

/-- The first stored row that equals the retracted one leaves. -/
def removeRow [DecidableEq ρ] (row : ρ) (rows : List (StoredRow ρ)) : List (StoredRow ρ) :=
  rows.eraseP fun candidate => candidate.row = row

end

/-! ## The transition at once -/

/-- A change of one side. -/
structure Change (ρ : Type) where
  joinType : RegularJoinType
  side : Side
  kind : Kind
  accumulate : Bool
  input : ρ
  ordinal : Int

namespace Change

variable (change : Change ρ)

/-- Every candidate that matches is changed and emits rows, in order. -/
def forMatches (visit : StoredRow ρ → StoredRow ρ × List (OutputRow ρ)) :
    List (StoredRow ρ × Bool) → List (StoredRow ρ) × List (OutputRow ρ)
  | [] => ([], [])
  | (row, isMatch) :: rest =>
    let (rows, output) := forMatches visit rest
    if isMatch then ((visit row).1 :: rows, (visit row).2 ++ output) else (row :: rows, output)

/-- Is the side of the input an outer one? -/
def inputOuter : Bool := isOuter change.joinType change.side

/-- Is the other side an outer one? -/
def otherOuter : Bool := isOuter change.joinType change.side.other

/-- Are rows emitted for having no partner? -/
def isAnti : Bool := change.joinType = .anti

/-- What an accumulated row does to a candidate of an inner or outer join. -/
def joinAccumulate (candidate : StoredRow ρ) : StoredRow ρ × List (OutputRow ρ) :=
  let pair := pushPair change.side (some change.input) (some candidate.row)
    (if change.inputOuter || change.otherOuter then .insert else change.kind) change.ordinal
  if change.otherOuter then
    ({ candidate with associations := candidate.associations + 1 },
      (if candidate.associations = 0 then
        [pushPair change.side.other (some candidate.row) none .delete change.ordinal] else []) ++
          [pair])
  else
    (candidate, [pair])

/-- What a retracted row does to a candidate of an inner or outer join. -/
def joinRetract (candidate : StoredRow ρ) : StoredRow ρ × List (OutputRow ρ) :=
  let pair := pushPair change.side (some change.input) (some candidate.row)
    (if change.inputOuter then .delete else change.kind) change.ordinal
  if change.otherOuter then
    ({ candidate with associations := candidate.associations - 1 },
      pair :: if candidate.associations = 1 then
        [pushPair change.side.other (some candidate.row) none .insert change.ordinal] else [])
  else
    (candidate, [pair])

variable [DecidableEq ρ]

/-- The transition of a semi or anti join. -/
def processSemiAnti (insertedId : Nat) (candidates : CandidateMatches) (state : JoinState ρ) :
    JoinState ρ × List (OutputRow ρ) :=
  match change.side with
  | .left =>
    let count := candidates.count
    let output : List (OutputRow ρ) :=
      if (change.isAnti && count = 0) || (!change.isAnti && 0 < count) then
        [⟨some change.input, none, change.kind, change.ordinal⟩] else []
    if change.accumulate then
      (state.setRows .left (state.rows .left ++ [⟨insertedId, change.input, Int32.ofNat count⟩]),
        output)
    else
      (state.setRows .left (removeRow change.input (state.rows .left)), output)
  | .right =>
    if change.accumulate then
      let state := state.setRows .right (state.rows .right ++ [⟨insertedId, change.input, 0⟩])
      let (left, output) := forMatches (fun left =>
        ({ left with associations := left.associations + 1 },
          if left.associations = 0 then
            [⟨some left.row, none, if change.isAnti then .delete else change.kind, change.ordinal⟩]
          else [])) ((state.rows .left).zip candidates.values)
      (state.setRows .left left, output)
    else
      let state := state.setRows .right (removeRow change.input (state.rows .right))
      let (left, output) := forMatches (fun left =>
        ({ left with associations := left.associations - 1 },
          if left.associations = 1 then
            [⟨some left.row, none, if change.isAnti then .insert else change.kind, change.ordinal⟩]
          else [])) ((state.rows .left).zip candidates.values)
      (state.setRows .left left, output)

/-- The transition of an inner or outer join. -/
def processJoin (insertedId : Nat) (candidates : CandidateMatches) (state : JoinState ρ) :
    JoinState ρ × List (OutputRow ρ) :=
  let other := change.side.other
  let count := candidates.count
  if change.accumulate then
    let (rows, output) := if count = 0 then
        (state.rows other, if change.inputOuter then
          [pushPair change.side (some change.input) none .insert change.ordinal] else [])
      else forMatches change.joinAccumulate ((state.rows other).zip candidates.values)
    let state := state.setRows other rows
    (state.setRows change.side (state.rows change.side ++
      [⟨insertedId, change.input, if change.inputOuter then Int32.ofNat count else 0⟩]), output)
  else
    let state := state.setRows change.side (removeRow change.input (state.rows change.side))
    let (rows, output) := if count = 0 then
        (state.rows other, if change.inputOuter then
          [pushPair change.side (some change.input) none .delete change.ordinal] else [])
      else forMatches change.joinRetract ((state.rows other).zip candidates.values)
    (state.setRows other rows, output)

/-- `next_row_id[side] += 1` in 64 bits: at the end of the range a build with overflow checks
panics, and one without them wraps around. -/
def nextIdentity (overflowChecks : Bool) (id : Nat) : Except StateError Nat :=
  if id + 1 < 2 ^ 64 then .ok (id + 1)
  else if overflowChecks then .error (.panic "attempt to add with overflow")
  else .ok 0

/-- An added row takes an identity. -/
def takeIdentity (overflowChecks : Bool) (state : JoinState ρ) : Except StateError (JoinState ρ) :=
  if change.accumulate then
    (nextIdentity overflowChecks (state.nextRowId change.side)).map (state.setNextRowId change.side)
  else .ok state

/-- The transition of any join, a test oracle of the source.  Its assertion that the mask has one
value for each candidate is left out. -/
def referenceProcessChange (overflowChecks : Bool) (candidates : CandidateMatches)
    (state : JoinState ρ) : Except StateError (JoinState ρ × List (OutputRow ρ)) := do
  let insertedId := state.nextRowId change.side
  let state ← change.takeIdentity overflowChecks state
  return if isSemi change.joinType then change.processSemiAnti insertedId candidates state
    else change.processJoin insertedId candidates state

end Change

/-! ## The cursor -/

/-- A change that is carried out in pages. -/
structure ChangeCursor (ρ : Type) where
  change : Change ρ
  candidate : Nat := 0
  initialized : Bool := false
  finished : Bool := false

namespace Change

variable (change : Change ρ)

/-- What the change does to a candidate that matches. -/
def visitCandidate (row : StoredRow ρ) : StoredRow ρ × List (OutputRow ρ) :=
  if isSemi change.joinType then
    ({ row with associations :=
        if change.accumulate then row.associations + 1 else row.associations - 1 },
      if row.associations = (if change.accumulate then 0 else 1) then
        [pushPair .left (some row.row) none (if change.isAnti then
          (if change.accumulate then .delete else .insert) else change.kind) change.ordinal]
      else [])
  else if change.accumulate then
    (if change.otherOuter then { row with associations := row.associations + 1 } else row,
      (if change.otherOuter && row.associations = 0 then
        [pushPair change.side.other (some row.row) none .delete change.ordinal] else []) ++
      [pushPair change.side (some change.input) (some row.row)
        (if change.inputOuter || change.otherOuter then .insert else change.kind) change.ordinal])
  else
    (if change.otherOuter then { row with associations := row.associations - 1 } else row,
      [pushPair change.side (some change.input) (some row.row)
        (if change.inputOuter then .delete else change.kind) change.ordinal] ++
      if change.otherOuter && row.associations = 1 then
        [pushPair change.side.other (some row.row) none .insert change.ordinal] else [])

/-- A change of the left side of a semi or anti join leaves the right side alone. -/
def visitsCandidates : Bool := !(isSemi change.joinType && change.side = .left)

/-- The candidates from the cursor on, as far as their rows fit into the page: the candidates after
that, how many were gone through, the page, and whether all of them were. -/
def drainCandidates (limit : Nat) : List (OutputRow ρ) → List (StoredRow ρ × Bool) →
    List (StoredRow ρ) × Nat × List (OutputRow ρ) × Bool
  | output, [] => ([], 0, output, true)
  | output, (row, false) :: rest =>
    let (rows, visited, page, isDone) := drainCandidates limit output rest
    (row :: rows, visited + 1, page, isDone)
  | output, (row, true) :: rest =>
    if limit < output.length + 2 then
      (row :: rest.map Prod.fst, 0, output, false)
    else
      let (rows, visited, page, isDone) :=
        drainCandidates limit (output ++ (change.visitCandidate row).2) rest
      ((change.visitCandidate row).1 :: rows, visited + 1, page, isDone)

/-- The rows of the other side that are left, with their part of the mask. -/
def drainOther (limit : Nat) (output : List (OutputRow ρ)) (other : List (StoredRow ρ))
    (values : List Bool) : List (StoredRow ρ) × Nat × List (OutputRow ρ) × Bool :=
  if change.visitsCandidates then change.drainCandidates limit output (other.zip values)
  else (other, 0, output, true)

/-- Does the change emit its own row without a partner? -/
def emitsOwn (candidates : CandidateMatches) : Bool :=
  if isSemi change.joinType && change.side =
    .left then decide (candidates.count = 0) == change.isAnti
  else !isSemi change.joinType && change.inputOuter && candidates.count = 0

/-- The kind of the change's own row. -/
def ownKind : Kind :=
  if isSemi change.joinType then change.kind else if change.accumulate then .insert else .delete

/-- The number of partners that the change's own row is stored with. -/
def ownAssociations (candidates : CandidateMatches) : Int32 :=
  if change.inputOuter || (isSemi change.joinType && change.side = .left) then
    Int32.ofNat candidates.count else 0

end Change

namespace ChangeCursor

variable [DecidableEq ρ]

/-- What is left of the change once all candidates are gone through. -/
def finish (cursor : ChangeCursor ρ) (state : JoinState ρ) (candidates : CandidateMatches)
    (output : List (OutputRow ρ)) (limit : Nat) :
    Except StateError (ChangeCursor ρ × JoinState ρ × List (OutputRow ρ) × Bool) :=
  let change := cursor.change
  if change.emitsOwn candidates && limit ≤ output.length then
    .ok (cursor, state, output, false)
  else
    let output := if change.emitsOwn candidates then
        output ++ [pushPair change.side (some change.input) none change.ownKind change.ordinal]
      else output
    if change.accumulate then
      let id := state.nextRowId change.side
      if id + 1 < 2 ^ 64 then
        let state := state.setNextRowId change.side (id + 1)
        .ok ({ cursor with finished := true }, state.setRows change.side (state.rows change.side ++
          [⟨id, change.input, change.ownAssociations candidates⟩]), output, true)
      else
        .error (.execution "regular join row identity exhausted")
    else
      .ok ({ cursor with finished := true }, state, output, true)

/-- Carries on with a change until the page is full. -/
def resume (cursor : ChangeCursor ρ) (state : JoinState ρ) (candidates : CandidateMatches)
    (output : List (OutputRow ρ)) (limit : Nat) (finalPage : Bool) :
    Except StateError (ChangeCursor ρ × JoinState ρ × List (OutputRow ρ) × Bool) :=
  let change := cursor.change
  let other := state.rows change.side.other
  let (rows, visited, page, isDone) :=
    change.drainOther limit output (other.drop cursor.candidate)
      (candidates.values.drop cursor.candidate)
  let state := state.setRows change.side.other (other.take cursor.candidate ++ rows)
  let cursor := { cursor with candidate := cursor.candidate + visited }
  if !isDone then
    .ok (cursor, state, page, false)
  else if !finalPage then
    .ok ({ cursor with candidate := 0 }, state, page, true)
  else
    cursor.finish state candidates page limit

/-- One page of the change: `output` is what the page has already, and `limit` is the number of rows
it can have.  A page of the stored rows that is not the last one is for inner joins only. -/
def drainPage (cursor : ChangeCursor ρ) (state : JoinState ρ) (candidates : CandidateMatches)
    (output : List (OutputRow ρ)) (limit : Nat) (finalPage : Bool) :
    Except StateError (ChangeCursor ρ × JoinState ρ × List (OutputRow ρ) × Bool) :=
  let change := cursor.change
  if !finalPage && change.joinType ≠ .inner then
    .error (.internal "paged history requires an inner join")
  else if limit < 2 then
    .error (.internal "regular join output limit must be at least two")
  else if cursor.finished then
    .ok (cursor, state, output, true)
  else if candidates.len ≠ (state.rows change.side.other).length then
    .error (.internal "regular join candidates changed during a transition")
  else
    let state := if !cursor.initialized && !change.accumulate then
        state.setRows change.side (removeRow change.input (state.rows change.side)) else state
    resume { cursor with initialized := true } state candidates output limit finalPage

/-- Pages of the change, each with its own limit, until it is complete. -/
def drainPages (cursor : ChangeCursor ρ) (state : JoinState ρ) (candidates : CandidateMatches) :
    List Nat → Except StateError (JoinState ρ × List (OutputRow ρ) × Bool)
  | [] => .ok (state, [], false)
  | limit :: limits => do
    let (cursor, state, page, isDone) ← cursor.drainPage state candidates [] limit true
    if isDone then
      .ok (state, page, true)
    else
      let (state, pages, isDone) ← drainPages cursor state candidates limits
      .ok (state, page ++ pages, isDone)

/-- A page of the other side's history, with its mask and the limits of its output pages. -/
structure HistoryPage (ρ : Type) where
  rows : List (StoredRow ρ)
  candidates : CandidateMatches
  limits : List Nat

/-- Output pages of a page of the history that is not the last one, until it is drained. -/
def drainHistoryPage (cursor : ChangeCursor ρ) (state : JoinState ρ)
    (candidates : CandidateMatches) :
    List Nat → Except StateError (ChangeCursor ρ × JoinState ρ × List (OutputRow ρ) × Bool)
  | [] => .ok (cursor, state, [], false)
  | limit :: limits => do
    let (cursor, state, page, isDone) ← cursor.drainPage state candidates [] limit false
    if isDone then
      .ok (cursor, state, page, true)
    else
      let (cursor, state, pages, isDone) ← drainHistoryPage cursor state candidates limits
      .ok (cursor, state, page ++ pages, isDone)

/-- A change of an inner join whose history is read page by page; each page takes the place of the
one before it. -/
def drainHistory (cursor : ChangeCursor ρ) (state : JoinState ρ) (last : HistoryPage ρ) :
    List (HistoryPage ρ) → Except StateError (JoinState ρ × List (OutputRow ρ) × Bool)
  | [] => cursor.drainPages (state.setRows cursor.change.side.other last.rows)
            last.candidates last.limits
  | page :: pages => do
    let (cursor, state, output, isDone) ← cursor.drainHistoryPage
      (state.setRows cursor.change.side.other page.rows) page.candidates page.limits
    if isDone then
      let (state, outputs, isDone) ← drainHistory cursor state last pages
      .ok (state, output ++ outputs, isDone)
    else
      .ok (state, output, false)

end ChangeCursor

end StreamFusion.RegularJoin
