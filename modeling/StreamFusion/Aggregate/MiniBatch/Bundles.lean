import StreamFusion.Aggregate.MiniBatch.Model

/-!
# Bundles

What a mini-batch aggregate is for: the rows are cut into bundles of the trigger size, the rows of a
bundle are applied to the groups as they were before, and every group of the bundle emits its net
change.  There are no batches here, no pending groups, no working set and no encoded states.

`feed` is the same row by row, for a bundle that is still open; `feed_bundles` says so.
-/

namespace StreamFusion.Aggregate

open Wire State Grouped Changelog

/-! ## Cutting rows into bundles -/

/-- The bundles of a sequence of rows, if the current one already has the rows `tail`. -/
def bundlesFrom {α : Type} (size : Nat) : List α → List α → List (List α)
  | tail, [] => if tail.isEmpty then [] else [tail]
  | tail, row :: rows =>
    if (tail ++ [row]).length = size then (tail ++ [row]) :: bundlesFrom size [] rows
    else bundlesFrom size (tail ++ [row]) rows

/-- Consecutive bundles of `size` rows; the last one may be shorter. -/
def bundles {α : Type} (size : Nat) (rows : List α) : List (List α) := bundlesFrom size [] rows

/-! ## Groups -/

/-- The groups, by their keys. -/
abbrev Groups := StateKey → Option AccumulatorState

namespace GroupAggregate

variable (operator : GroupAggregate)

/-- A group after a row.  A retraction of a group that is not there is skipped. -/
def rowAfter (state : Option AccumulatorState) (row : InputRow) : Option AccumulatorState :=
  if operator.calls.isEmpty then
    match applyCountChange (state.map fun state => state.rowCount) (operator.adds row) with
    | .ignored => state
    | .present count _ => some ⟨count, []⟩
    | .removed => some ⟨0, []⟩
  else if operator.adds row || state.isSome then
    some ((state.getD (.new operator.calls)).next operator.calls row (operator.adds row))
  else
    state

/-- A group after some rows of a bundle; the row count may pass through zero. -/
def groupAfter (state : Option AccumulatorState) (rows : List InputRow) : Option AccumulatorState :=
  rows.foldl operator.rowAfter state

/-- The groups after a bundle.  A group without rows is gone. -/
def bundleGroups (groups : Groups) (bundle : List InputRow) : Groups := fun key =>
  (operator.groupAfter (groups key) (rowsOf InputRow.key key bundle)).filter fun state =>
    state.rowCount ≠ 0

/-- The values of a group, which is there only if it has rows. -/
def valuesOf (state : Option AccumulatorState) : Option Values :=
  (state.filter fun state => state.rowCount ≠ 0).map fun state => state.values operator.calls

/-- The change from the values before to the values after. -/
def netChange (key : StateKey) : Option Values → Option Values → List OutputEvent
  | none, none => []
  | none, some values => [⟨.insert, (key, values)⟩]
  | some previous, none => [⟨.delete, (key, previous)⟩]
  | some previous, some values =>
    if previous = values then []
    else
      (if operator.generateUpdateBefore then [⟨.updateBefore, (key, previous)⟩] else []) ++
        [⟨.updateAfter, (key, values)⟩]

variable (hash : Bytes → UInt32)

/-- One net change for every group of the bundle. -/
def bundleEvents (groups : Groups) (bundle : List InputRow) : List OutputEvent :=
  (sortFlinkHashmapKeys hash (keysOf InputRow.key bundle)).flatMap fun key =>
    operator.netChange key (operator.valuesOf (groups key))
      (operator.valuesOf (operator.bundleGroups groups bundle key))

/-- The net changes of one bundle after the other. -/
def bundlesEvents (groups : Groups) : List (List InputRow) → List OutputEvent
  | [] => []
  | bundle :: rest =>
    operator.bundleEvents hash groups bundle ++
      bundlesEvents (operator.bundleGroups groups bundle) rest

/-- The states that the bundles leave survive being stored. -/
def SettledBundles (groups : Groups) : List (List InputRow) → Prop
  | [] => True
  | bundle :: rest =>
    (∀ key state, operator.bundleGroups groups bundle key = some state →
      state.Settled operator.calls) ∧
    SettledBundles (operator.bundleGroups groups bundle) rest

/-! ## Row by row -/

variable (size : Nat)

/-- The groups, the rows of the open bundle and what has been emitted. -/
def feed (groups : Groups) (tail : List InputRow) : List InputRow →
    (Groups × List InputRow) × List OutputEvent
  | [] => ((groups, tail), [])
  | row :: rows =>
    if (tail ++ [row]).length = size then
      let rest := feed (operator.bundleGroups groups (tail ++ [row])) [] rows
      (rest.1, operator.bundleEvents hash groups (tail ++ [row]) ++ rest.2)
    else
      feed groups (tail ++ [row]) rows

/-- The states of every full bundle survive being stored. -/
def SettledFeed (groups : Groups) (tail : List InputRow) : List InputRow → Prop
  | [] => True
  | row :: rows =>
    if (tail ++ [row]).length = size then
      (∀ key state, operator.bundleGroups groups (tail ++ [row]) key = some state →
        state.Settled operator.calls) ∧
      SettledFeed (operator.bundleGroups groups (tail ++ [row])) [] rows
    else
      SettledFeed groups (tail ++ [row]) rows

variable {operator hash size}

/-- Rows can be fed in two parts. -/
theorem feed_append (groups : Groups) (tail rows rows' : List InputRow) :
    operator.feed hash size groups tail (rows ++ rows') =
      ((operator.feed hash size (operator.feed hash size groups tail rows).1.1
          (operator.feed hash size groups tail rows).1.2 rows').1,
        (operator.feed hash size groups tail rows).2 ++
          (operator.feed hash size (operator.feed hash size groups tail rows).1.1
            (operator.feed hash size groups tail rows).1.2 rows').2) := by
  induction rows generalizing groups tail with
  | nil => simp [feed]
  | cons row rows ih =>
    rw [List.cons_append, feed, feed]
    split
    · rw [ih, List.append_assoc]
    · exact ih groups (tail ++ [row])

variable {groups : Groups} {tail rows : List InputRow}

theorem settledFeed_append (hash : Bytes → UInt32) {rows' : List InputRow} :
    operator.SettledFeed size groups tail (rows ++ rows') ↔
      operator.SettledFeed size groups tail rows ∧
        operator.SettledFeed size (operator.feed hash size groups tail rows).1.1
          (operator.feed hash size groups tail rows).1.2 rows' := by
  induction rows generalizing groups tail with
  | nil => simp [feed, SettledFeed]
  | cons row rows ih =>
    rw [List.cons_append, SettledFeed, SettledFeed, feed]
    split
    · rw [ih, and_assoc]
    · exact ih

variable {chunk : List InputRow}

/-- Rows that do not go beyond the open bundle. -/
theorem chunk_eq_nil {row : InputRow} (hfull : (tail ++ [row]).length = size)
    (hchunk : tail.length + (row :: chunk).length ≤ size) : chunk = [] := by
  simp at hfull hchunk
  exact List.eq_nil_of_length_eq_zero (by omega)

section

variable (htail : tail.length < size) (hchunk : tail.length + chunk.length ≤ size)
include htail hchunk

/-- A chunk that fits in the bundle is flushed if it fills it. -/
theorem feed_chunk :
    operator.feed hash size groups tail chunk =
      if (tail ++ chunk).length = size then
        ((operator.bundleGroups groups (tail ++ chunk), []),
          operator.bundleEvents hash groups (tail ++ chunk))
      else ((groups, tail ++ chunk), []) := by
  induction chunk generalizing tail with
  | nil =>
    rw [List.append_nil, if_neg (by omega)]
    rfl
  | cons row chunk ih =>
    rw [feed]
    have happend : tail ++ row :: chunk = (tail ++ [row]) ++ chunk := by simp
    by_cases hfull : (tail ++ [row]).length = size
    · obtain rfl := chunk_eq_nil hfull hchunk
      rw [if_pos hfull, if_pos hfull]
      simp [feed]
    · rw [if_neg hfull, happend]
      simp at hfull hchunk
      exact ih (by simp; omega) (by simp; omega)

theorem settledFeed_chunk
    (h : operator.SettledFeed size groups tail chunk) (hfull : (tail ++ chunk).length = size) :
    ∀ key state, operator.bundleGroups groups (tail ++ chunk) key = some state →
      state.Settled operator.calls := by
  induction chunk generalizing tail with
  | nil =>
    simp at hfull
    omega
  | cons row chunk ih =>
    rw [SettledFeed] at h
    have happend : tail ++ row :: chunk = (tail ++ [row]) ++ chunk := by simp
    by_cases hrow : (tail ++ [row]).length = size
    · obtain rfl := chunk_eq_nil hrow hchunk
      rw [if_pos hrow] at h
      exact h.1
    · rw [if_neg hrow] at h
      rw [happend] at hfull ⊢
      simp at hrow hchunk
      exact ih (by simp; omega) (by simp; omega) h hfull

end

/-- The open bundle stays open. -/
theorem length_feed (htail : tail.length < size) :
    (operator.feed hash size groups tail rows).1.2.length < size := by
  induction rows generalizing groups tail with
  | nil => exact htail
  | cons row rows ih =>
    rw [feed]
    split
    next hfull =>
      simp at hfull
      exact ih (by simp; omega)
    next hopen =>
      simp at hopen
      exact ih (by simp; omega)

/-- **Row by row.**  Feeding the rows and closing the last bundle is the same as cutting them. -/
theorem feed_bundles (groups : Groups) (tail rows : List InputRow) :
    (operator.feed hash size groups tail rows).2 ++
        operator.bundlesEvents hash (operator.feed hash size groups tail rows).1.1
          (bundlesFrom size (operator.feed hash size groups tail rows).1.2 []) =
      operator.bundlesEvents hash groups (bundlesFrom size tail rows) := by
  induction rows generalizing groups tail with
  | nil => simp [feed]
  | cons row rows ih =>
    have hcut : bundlesFrom size tail (row :: rows) =
        if (tail ++ [row]).length = size then (tail ++ [row]) :: bundlesFrom size [] rows
        else bundlesFrom size (tail ++ [row]) rows := rfl
    rw [feed, hcut]
    split
    · rw [List.append_assoc, ih, bundlesEvents]
    · exact ih groups (tail ++ [row])

/-- If the whole bundles settle, so does every flush on the way. -/
theorem settledFeed_of_bundles (h : operator.SettledBundles groups (bundlesFrom size tail rows)) :
    operator.SettledFeed size groups tail rows := by
  induction rows generalizing groups tail with
  | nil => exact trivial
  | cons row rows ih =>
    rw [bundlesFrom] at h
    rw [SettledFeed]
    split
    next hfull =>
      rw [if_pos hfull] at h
      exact ⟨h.1, ih h.2⟩
    next hopen =>
      rw [if_neg hopen] at h
      exact ih h

end GroupAggregate

end StreamFusion.Aggregate
