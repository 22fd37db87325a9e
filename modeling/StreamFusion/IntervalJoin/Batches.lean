import StreamFusion.IntervalJoin.Model
import StreamFusion.Lib.TimeFields
import StreamFusion.State.Copies

/-!
# Batches of the interval join

The state of a key is stored as bytes (`interval_join/state_codec.rs`): the two cleanup timers, and
the rows of each side, time by time.  A missing timer is written as the smallest time, so that a
timer at that very time is forgotten, and counts and lengths are cut to 32 bits.

A batch loads the states of its keys, works on these copies and writes them back, and an empty state
is removed from the store.  On the states that the format can hold nobody sees how the rows were cut
into batches (`batch_cuts`).
-/

namespace StreamFusion.IntervalJoin

open State Wire Wire.Reader Keyed OutputRow Function Operator List Timeline

/-! ## The state of a key -/

/-- The value of a side. -/
def Side.pick {α : Type} (left right : α) : Side → α
  | .left => left
  | .right => right

theorem Side.pick_eq {α : Type} (f : Side → α) : Side.pick (f .left) (f .right) = f := by
  funext side
  cases side <;> rfl

/-- What a stored state starts with. -/
def stateMagic : Bytes := [83, 70, 73, 74]

/-- The version that is written. -/
def stateVersion : UInt8 := 1

/-- A stored row. -/
def encodeRow (stored : StoredRow Bytes) : Bytes :=
  leBytes 4 stored.associations.toUInt32.toNat ++ blobBytes stored.row

/-- The rows of one time. -/
def encodeGroup (group : Int × List (StoredRow Bytes)) : Bytes :=
  timeBytes group.1 ++ (leBytes 4 group.2.length ++ group.2.flatMap encodeRow)

/-- The rows of a side. -/
def encodeTimestamps (rows : Timeline (StoredRow Bytes)) : Bytes :=
  leBytes 4 rows.groups.length ++ rows.groups.flatMap encodeGroup

/-- The stored form of a state. -/
def encodeState (state : IntervalState Bytes) : Bytes :=
  stateMagic ++ stateVersion :: (optionTimeBytes (state.cleanupTimers .left) ++
    (optionTimeBytes (state.cleanupTimers .right) ++
      (encodeTimestamps (state.sideRows .left) ++ encodeTimestamps (state.sideRows .right))))

/-- The error of a reader that runs out of bytes. -/
def truncated : StateError := .execution "truncated native interval join state"

/-- Reads a stored row. -/
def readRow : Reader StateError (StoredRow Bytes) := do
  let associations ← leNat truncated 4
  let row ← blob truncated
  return ⟨row, (UInt32.ofNat associations).toInt32⟩

/-- Reads the rows of one time. -/
def readGroup : Reader StateError (Int × List (StoredRow Bytes)) := do
  let timestamp ← time truncated
  let rowCount ← leNat truncated 4
  return (timestamp, ← times readRow rowCount)

/-- The groups that were read before are in `groups`, the last one first. -/
def decodeGroups (groups : List (Int × List (StoredRow Bytes))) :
    Nat → Reader StateError (List (Int × List (StoredRow Bytes)))
  | 0 => return groups.reverse
  | count + 1 => do
    let group ← readGroup
    if group.1 ∈ groups.map Prod.fst then
      fail (.execution "interval join state contains a duplicate timestamp")
    else
      decodeGroups (group :: groups) count

/-- Reads the rows of a side. -/
def decodeTimestamps : Reader StateError (Timeline (StoredRow Bytes)) := do
  let count ← leNat truncated 4
  return Timeline.ofGroups (← decodeGroups [] count)

/-- Reads a state behind its header. -/
def readState : Reader StateError (IntervalState Bytes) := do
  let leftTimer ← optionTime truncated
  let rightTimer ← optionTime truncated
  let left ← decodeTimestamps
  let right ← decodeTimestamps
  return ⟨Side.pick left right, Side.pick leftTimer rightTimer⟩

/-- Reads a state from all bytes. -/
def decodeState (bytes : Bytes) : Except StateError (IntervalState Bytes) :=
  if bytes.length < 29 ∨ bytes.take 4 ≠ stateMagic ∨ bytes[4]? ≠ some stateVersion then
    .error (.execution "invalid native interval join state")
  else do
    let (state, rest) ← readState (bytes.drop 5)
    if rest = [] then .ok state
    else .error (.execution "interval join state has trailing bytes")

/-- Has the key neither rows nor timers? -/
def stateIsEmpty (state : IntervalState Bytes) : Bool :=
  (state.sideRows .left).entries.isEmpty && (state.sideRows .right).entries.isEmpty &&
    (state.cleanupTimers .left).isNone && (state.cleanupTimers .right).isNone

/-- What the format can hold, also after `room` more rows. -/
structure Storable (room : Nat) (state : IntervalState Bytes) : Prop where
  length_lt : ∀ side, (state.sideRows side).entries.length + room < 2 ^ 32
  rows : ∀ side, ∀ e ∈ (state.sideRows side).entries, I64.InRange e.1 ∧ e.2.row.length < 2 ^ 32
  timers : ∀ side, ∀ time ∈ state.cleanupTimers side, I64.InRange time ∧ time ≠ I64.min

theorem parses_readRow {stored : StoredRow Bytes} (h : stored.row.length < 2 ^ 32) :
    Parses readRow (encodeRow stored) stored := by
  have hlt : stored.associations.toUInt32.toNat < 256 ^ 4 := stored.associations.toUInt32.toNat_lt
  refine (parses_leNat truncated hlt).bind ((parses_blob truncated h).bind_pure ?_)
  rw [UInt32.ofNat_toNat]
  exact parses_pure _

theorem parses_readGroup {group : Int × List (StoredRow Bytes)} (htime : I64.InRange group.1)
    (hlength : group.2.length < 2 ^ 32) (hrows : ∀ stored ∈ group.2, stored.row.length < 2 ^ 32) :
    Parses readGroup (encodeGroup group) group :=
  (parses_time truncated htime).bind ((parses_leNat truncated (by simpa using hlength)).bind
    ((parses_times fun stored hstored => parses_readRow (hrows stored hstored)).bind_pure
      (parses_pure _)))

/-- The groups are read in the order in which they were written, and their times are all
different. -/
theorem parses_decodeGroups (before groups : List (Int × List (StoredRow Bytes)))
    (hgroups : ∀ group ∈ groups, Parses readGroup (encodeGroup group) group)
    (hnodup : ((before.reverse ++ groups).map Prod.fst).Nodup) :
    Parses (decodeGroups before groups.length) (groups.flatMap encodeGroup)
        (before.reverse ++ groups) := by
  induction groups generalizing before with
  | nil =>
    rw [append_nil]
    exact parses_pure _
  | cons group groups ih =>
    obtain ⟨hgroup, hrest⟩ := forall_mem_cons.mp hgroups
    have hnew : group.1 ∉ before.map Prod.fst := by
      intro hmem
      rw [map_append, map_cons] at hnodup
      refine (nodup_append.mp hnodup).2.2 group.1 ?_ group.1 mem_cons_self rfl
      rw [map_reverse]
      exact mem_reverse.mpr hmem
    have hthen := ih (group :: before) hrest (by
      rw [reverse_cons, append_assoc]
      exact hnodup)
    rw [reverse_cons, append_assoc] at hthen
    rw [flatMap_cons, length_cons]
    refine hgroup.bind ?_
    rw [if_neg hnew]
    exact hthen

variable {rows : Timeline (StoredRow Bytes)}

theorem parses_decodeTimestamps (hlength : rows.entries.length < 2 ^ 32)
    (hrows : ∀ e ∈ rows.entries, I64.InRange e.1 ∧ e.2.row.length < 2 ^ 32) :
    Parses decodeTimestamps (encodeTimestamps rows) rows := by
  have hcount : rows.groups.length < 256 ^ 4 :=
    lt_of_le_of_lt (length_groupEntries_le rows.entries) hlength
  have hgroups : ∀ group ∈ rows.groups, Parses readGroup (encodeGroup group) group := by
    intro group hgroup
    have hsublist := groupOf_sublist hgroup
    have hentry : ∀ stored ∈ group.2, (group.1, stored) ∈ rows.entries := fun stored hstored =>
      hsublist.subset (mem_map_of_mem hstored)
    obtain ⟨stored, hstored⟩ := exists_mem_of_mem_groupEntries hgroup
    refine parses_readGroup (hrows _ (hentry stored hstored)).1 ?_ fun stored hstored =>
      (hrows _ (hentry stored hstored)).2
    have hle := hsublist.length_le
    rw [groupOf, length_map] at hle
    omega
  refine (parses_leNat truncated hcount).bind
    ((parses_decodeGroups [] rows.groups hgroups (nodup_groups rows)).bind_pure ?_)
  rw [reverse_nil, nil_append, ofGroups_groups]
  exact parses_pure _

variable {state : IntervalState Bytes} {room : Nat}

theorem parses_readState (h : Storable room state) :
    Parses readState ((encodeState state).drop 5) state := by
  have hlength : ∀ side, (state.sideRows side).entries.length < 2 ^ 32 := fun side => by
    have := h.length_lt side
    omega
  refine (parses_optionTime truncated (h.timers .left)).bind
    ((parses_optionTime truncated (h.timers .right)).bind
      ((parses_decodeTimestamps (hlength .left) (h.rows .left)).bind
        ((parses_decodeTimestamps (hlength .right) (h.rows .right)).bind_pure ?_)))
  rw [Side.pick_eq, Side.pick_eq]
  exact parses_pure state

/-- A stored state is read back. -/
theorem decodeState_encodeState (h : Storable room state) :
    decodeState (encodeState state) = .ok state := by
  have hhead : ¬ ((encodeState state).length < 29 ∨ (encodeState state).take 4 ≠ stateMagic ∨
      (encodeState state)[4]? ≠ some stateVersion) := by
    simp [encodeState, stateMagic, encodeTimestamps]
    omega
  rw [decodeState, if_neg hhead, (parses_readState h).run, Except.ok_bind]
  rfl

/-! ## Loading and saving -/

/-- The state of a key. -/
def loadState (bytes : Option Bytes) : Except StateError (IntervalState Bytes) :=
  match bytes with
  | none => .ok {}
  | some bytes => decodeState bytes

/-- What is stored of a state; nothing of an empty one. -/
def saveState (state : IntervalState Bytes) : Except StateError (Option Bytes) :=
  .ok (if stateIsEmpty state then none else some (encodeState state))

theorem eq_empty_of_stateIsEmpty (h : stateIsEmpty state = true) : state = {} := by
  obtain ⟨sideRows, cleanupTimers⟩ := state
  simp only [stateIsEmpty, Bool.and_eq_true, List.isEmpty_iff, Option.isNone_iff_eq_none] at h
  obtain ⟨⟨⟨hleft, hright⟩, hleftTimer⟩, hrightTimer⟩ := h
  congr 1
  · funext side
    cases side
    · exact ext hleft
    · exact ext hright
  · funext side
    cases side
    · exact hleftTimer
    · exact hrightTimer

/-- A saved state is loaded again. -/
theorem loadState_saveState (h : Storable room state) :
    ∃ bytes, saveState state = .ok bytes ∧ loadState bytes = .ok state := by
  refine ⟨_, rfl, ?_⟩
  by_cases hempty : stateIsEmpty state = true
  · rw [if_pos hempty, eq_empty_of_stateIsEmpty hempty]
    rfl
  · rw [if_neg hempty]
    exact decodeState_encodeState h

/-- What an output row says, without the number of the input row that caused it. -/
def OutputRow.content {ρ : Type} (output : OutputRow ρ) : Option ρ × Option ρ × Changelog.Kind :=
  (output.left, output.right, output.kind)

/-! ## A row concerns its own key -/

namespace Operator

variable {ρ : Type} (plan : Plan) (op : Operator ρ)

/-- The operator with other states for the other keys. -/
def patch (key : StateKey) (g : StateKey → IntervalState ρ) : Operator ρ :=
  { op with states := update g key (op.states key) }

variable (key : StateKey) (g : StateKey → IntervalState ρ) (side : Side)

@[simp] theorem states_patch : (op.patch key g).states key = op.states key := update_self ..

@[simp] theorem operatorTime_patch : (op.patch key g).operatorTime plan =
    op.operatorTime plan := rfl

section

variable (row : InputRow ρ)

@[simp] theorem rowTime_patch :
    (op.patch key g).rowTime plan row = op.rowTime plan row := rfl

theorem patch_mk (key : StateKey) (f : IntervalState ρ → IntervalState ρ)
    (timers : NativeTimerService Side) :
    ({ op.patch key g with
        states := update (op.patch key g).states key (f ((op.patch key g).states key)),
        timers := timers } : Operator ρ) =
      patch { op with
        states := update op.states key (f (op.states key))
        timers := timers } key g := by
  unfold patch
  dsimp only
  rw [update_self, update_self, update_idem]

theorem setRows_patch (rows : Timeline (StoredRow ρ)) :
    (op.patch key g).setRows key side rows = (op.setRows key side rows).patch key g :=
  patch_mk op g key (fun state =>
    { state with sideRows := update state.sideRows side rows }) op.timers

theorem registerCleanupTimer_patch (rowTime : Int) :
    (op.patch key g).registerCleanupTimer plan key side rowTime =
      (op.registerCleanupTimer plan key side rowTime).patch key g :=
  patch_mk op g key (fun state => ⟨state.sideRows,
      update state.cleanupTimers side (some (plan.cleanupTime side rowTime))⟩)
    (op.timers.register plan.timerDomain ⟨plan.cleanupTime side rowTime, key, side⟩)

theorem expireRows_patch (expiration ordinal : Int) :
    (op.patch key g).expireRows plan key side expiration ordinal =
      ((op.expireRows plan key side expiration ordinal).1.patch key g,
        (op.expireRows plan key side expiration ordinal).2) := by
  unfold expireRows
  dsimp only
  rw [setRows_patch, states_patch]

theorem emitMatches_patch (ordinal : Int) (count : Int32 → Int32) :
    (op.patch row.key g).emitMatches plan side row ordinal count =
      ((op.emitMatches plan side row ordinal count).1.patch row.key g,
        (op.emitMatches plan side row ordinal count).2) := by
  unfold emitMatches
  rw [states_patch]
  by_cases houter : plan.isOuter side.other = true
  · rw [if_pos houter, if_pos houter, setRows_patch]
    rfl
  · rw [if_neg houter, if_neg houter]
    rfl

theorem storeRow_patch (associations : Int32) :
    (op.patch row.key g).storeRow plan side row associations =
      (op.storeRow plan side row associations).patch row.key g := by
  unfold storeRow
  dsimp only
  rw [rowTime_patch, states_patch, setRows_patch, states_patch]
  split
  · exact registerCleanupTimer_patch plan _ row.key g side _
  · rfl

theorem accumulate_patch (ordinal : Int) :
    (op.patch row.key g).accumulate plan side row ordinal =
      ((op.accumulate plan side row ordinal).1.patch row.key g,
          (op.accumulate plan side row ordinal).2) := by
  unfold accumulate
  rw [emitMatches_patch]
  dsimp only
  rw [operatorTime_patch, rowTime_patch, storeRow_patch]
  split
  · rfl
  · split <;> rfl

theorem retract_patch [DecidableEq ρ] (ordinal : Int) :
    (op.patch row.key g).retract plan side row ordinal =
      ((op.retract plan side row ordinal).1.patch row.key g,
          (op.retract plan side row ordinal).2) := by
  unfold retract
  rw [emitMatches_patch]
  dsimp only
  rw [operatorTime_patch, rowTime_patch, states_patch, setRows_patch]
  split <;> rfl

/-- A row only reads and changes the state of its key. -/
theorem processChange_patch [DecidableEq ρ] (ordinal : Int) :
    (op.patch row.key g).processChange plan side row ordinal =
      ((op.processChange plan side row ordinal).1.patch row.key g,
        (op.processChange plan side row ordinal).2) := by
  unfold processChange
  dsimp only
  rw [operatorTime_patch, expireRows_patch]
  rw [accumulate_patch, retract_patch]
  split <;> rfl

end

/-! ## The position of a row is in its ordinal only -/

theorem content_pushPair (input other : Option ρ) (kind : Changelog.Kind) (ordinal ordinal' : Int) :
    (pushPair side input other kind ordinal).content =
        (pushPair side input other kind ordinal').content := by
  cases side <;> rfl

variable (ordinal ordinal' : Int) (row : InputRow ρ)

theorem expireRows_position (expiration : Int) :
    (op.expireRows plan key side expiration ordinal).1 =
        (op.expireRows plan key side expiration ordinal').1 ∧
      (op.expireRows plan key side expiration ordinal).2.map content =
        (op.expireRows plan key side expiration ordinal').2.map content := by
  refine ⟨rfl, ?_⟩
  unfold expireRows
  split
  · rw [map_map, map_map]
    exact map_congr_left fun e _ => content_pushPair side _ _ _ ordinal ordinal'
  · rfl

theorem emitMatches_position (count : Int32 → Int32) :
    (op.emitMatches plan side row ordinal count).1 =
      (op.emitMatches plan side row ordinal' count).1 ∧
      (op.emitMatches plan side row ordinal count).2.length =
        (op.emitMatches plan side row ordinal' count).2.length ∧
      (op.emitMatches plan side row ordinal count).2.map content =
        (op.emitMatches plan side row ordinal' count).2.map content := by
  unfold emitMatches
  split
  all_goals
    refine ⟨rfl, by rw [length_map, length_map], ?_⟩
    rw [map_map, map_map]
    exact map_congr_left fun e _ => content_pushPair side _ _ _ ordinal ordinal'

theorem accumulate_position :
    (op.accumulate plan side row ordinal).1 = (op.accumulate plan side row ordinal').1 ∧
      (op.accumulate plan side row ordinal).2.map content =
        (op.accumulate plan side row ordinal').2.map content := by
  obtain ⟨hop, hlength, hpairs⟩ := emitMatches_position plan op side ordinal ordinal' row (· + 1)
  unfold accumulate
  dsimp only
  rw [hop, hlength]
  split
  · exact ⟨rfl, hpairs⟩
  · split
    · rw [map_append, map_append, hpairs]
      exact ⟨rfl, congrArg (_ ++ [·]) (content_pushPair side _ _ _ ordinal ordinal')⟩
    · exact ⟨rfl, hpairs⟩

theorem retract_position [DecidableEq ρ] :
    (op.retract plan side row ordinal).1 = (op.retract plan side row ordinal').1 ∧
      (op.retract plan side row ordinal).2.map content =
        (op.retract plan side row ordinal').2.map content := by
  obtain ⟨hop, hlength, hpairs⟩ := emitMatches_position plan op side ordinal ordinal' row (· - 1)
  unfold retract
  dsimp only
  rw [hop, hlength]
  split
  · rw [map_append, map_append, hpairs]
    exact ⟨rfl, congrArg (_ ++ [·]) (content_pushPair side _ _ _ ordinal ordinal')⟩
  · exact ⟨rfl, hpairs⟩

/-- A row's position only shows in the output. -/
theorem processChange_position [DecidableEq ρ] :
    (op.processChange plan side row ordinal).1 = (op.processChange plan side row ordinal').1 ∧
      (op.processChange plan side row ordinal).2.map content =
        (op.processChange plan side row ordinal').2.map content := by
  obtain ⟨hexpired, halone⟩ := expireRows_position plan op row.key side.other ordinal ordinal'
    (plan.expirationTime side.other (op.operatorTime plan))
  unfold processChange
  dsimp only
  rw [hexpired, map_append, map_append, halone]
  split
  · obtain ⟨hop, hpairs⟩ := accumulate_position plan _ side ordinal ordinal' row
    exact ⟨hop, by rw [hpairs]⟩
  · obtain ⟨hop, hpairs⟩ := retract_position plan _ side ordinal ordinal' row
    exact ⟨hop, by rw [hpairs]⟩

end Operator

/-! ## The states stay storable -/

/-- A row that the operator can store: its time is one, its bytes have a length of 32 bits, and the
cleanup timer it may need is not at the time that stands for no timer. -/
structure Fits (plan : Plan) (side : Side) (op : Operator Bytes) (row : InputRow Bytes) : Prop where
  time : I64.InRange (op.rowTime plan row)
  length_lt : row.row.length < 2 ^ 32
  timer : plan.cleanupTime side (op.rowTime plan row) ≠ I64.min

variable {op : Operator Bytes}

namespace Storable

variable {plan : Plan} {key : StateKey} {side : Side}

theorem weaken (h : Storable (room + 1) state) : Storable room state where
  length_lt side := by
    have := h.length_lt side
    omega
  rows := h.rows
  timers := h.timers

section

variable (h : Storable room (op.states key))
include h

theorem setRows (hlength : rows.entries.length + room < 2 ^ 32)
    (hrows : ∀ e ∈ rows.entries, I64.InRange e.1 ∧ e.2.row.length < 2 ^ 32) :
    Storable room ((op.setRows key side rows).states key) where
  length_lt side' := by
    rw [sideRows_setRows]
    split
    · exact hlength
    · exact h.length_lt side'
  rows side' := by
    rw [sideRows_setRows]
    split
    · exact hrows
    · exact h.rows side'
  timers := by
    rw [cleanupTimers_setRows]
    exact h.timers

theorem shrink {op' : Operator Bytes} (hshrinks : Shrinks op op') :
    Storable room (op'.states key) where
  length_lt side' := by
    have hle := (hshrinks.rows key side').length_le
    rw [length_map, length_map] at hle
    have := h.length_lt side'
    omega
  rows side' e he := by
    obtain ⟨e', he', heq⟩ := hshrinks.mem key side' he
    obtain ⟨htime, hrow⟩ := Prod.mk.inj heq
    rw [← htime, ← hrow]
    exact h.rows side' e' he'
  timers := by
    rw [hshrinks.cleanupTimers]
    exact h.timers

end

variable {row : InputRow Bytes}

theorem registerCleanupTimer (h : Storable room (op.states key)) {rowTime : Int}
    (htimer : plan.cleanupTime side rowTime ≠ I64.min) :
    Storable room ((op.registerCleanupTimer plan key side rowTime).states key) where
  length_lt := by
    rw [sideRows_registerCleanupTimer]
    exact h.length_lt
  rows := by
    rw [sideRows_registerCleanupTimer]
    exact h.rows
  timers side' := by
    rw [cleanupTimers_registerCleanupTimer]
    split
    · intro time htime
      cases htime
      exact ⟨I64.inRange_wrap _, htimer⟩
    · exact h.timers side'

section

variable (h : Storable (room + 1) (op.states row.key)) (hrow : Fits plan side op row)
include h hrow

theorem storeRow (associations : Int32) :
    Storable room ((op.storeRow plan side row associations).states row.key) := by
  have hperm := insertEntry_perm
    ((op.rowTime plan row, ⟨row.row, associations⟩) : Int × StoredRow Bytes)
    ((op.states row.key).sideRows side).entries
  have hstored : Storable room ((op.setRows row.key side
      (((op.states row.key).sideRows side).push (op.rowTime plan row)
        ⟨row.row, associations⟩)).states row.key) := by
    refine h.weaken.setRows ?_ fun e he => ?_
    · have hlength := hperm.length_eq
      have := h.length_lt side
      rw [length_cons] at hlength
      show (insertEntry _ _).length + room < 2 ^ 32
      omega
    · cases mem_cons.mp (hperm.mem_iff.mp he) with
      | inl heq => rw [heq]; exact ⟨hrow.time, hrow.length_lt⟩
      | inr hmem => exact h.rows side e hmem
  unfold Operator.storeRow
  dsimp only
  split
  · exact hstored.registerCleanupTimer hrow.timer
  · exact hstored

theorem processChange (ordinal : Int) :
    Storable room ((op.processChange plan side row ordinal).1.states row.key) := by
  obtain ⟨op', hshrinks, hcases⟩ := processChange_cases plan op side row ordinal
  have hshrunk := h.shrink hshrinks
  rcases hcases with heq | ⟨-, associations, heq⟩ <;> rw [heq]
  · exact hshrunk.weaken
  · have htime := hshrinks.rowTime_eq plan row
    exact hshrunk.storeRow ⟨htime ▸ hrow.time, hrow.length_lt, htime ▸ hrow.timer⟩ associations

end

end Storable

/-! ## Batches -/

namespace Operator

variable (plan : Plan) (op : Operator Bytes)

/-- The clock of a plan on processing time moves with every batch. -/
def advanceClock (processingTime : Int) : Operator Bytes :=
  if plan.eventTime then op
  else { op with currentProcessingTime := max op.currentProcessingTime processingTime }

theorem advanceClock_eq_self {processingTime : Int} :
    op.advanceClock plan processingTime = op ↔
      plan.eventTime = true ∨ processingTime ≤ op.currentProcessingTime := by
  unfold advanceClock
  by_cases hevent : plan.eventTime = true
  · simp [hevent]
  · rw [if_neg hevent]
    constructor
    · intro h
      have htime := congrArg currentProcessingTime h
      exact .inr (max_eq_left_iff.mp htime)
    · intro h
      rw [max_eq_left (h.resolve_left hevent)]

theorem rowTime_processChange (side : Side) (row row' : InputRow Bytes) (ordinal : Int) :
    (op.processChange plan side row ordinal).1.rowTime plan row' = op.rowTime plan row' := by
  unfold rowTime operatorTime
  rw [(clocks_processChange plan op side row ordinal).1,
    (clocks_processChange plan op side row ordinal).2]

theorem advanceClock_processChange (side : Side) (row : InputRow Bytes)
    (ordinal processingTime : Int)
    (h : op.advanceClock plan processingTime = op) :
    (op.processChange plan side row ordinal).1.advanceClock plan processingTime =
      (op.processChange plan side row ordinal).1 := by
  rw [advanceClock_eq_self] at h ⊢
  rw [(clocks_processChange plan op side row ordinal).1]
  exact h

end Operator

instance : Inhabited (IntervalState Bytes) := ⟨{}⟩

/-- The batches of one side, over the stored states. -/
def batchOperator (plan : Plan) (side : Side) (processingTime : Int) :
    CopyOperator (Operator Bytes) (InputRow Bytes) (OutputRow Bytes)
      (Option Bytes × Option Bytes × Changelog.Kind) (IntervalState Bytes) where
  key := InputRow.key
  states := Operator.states
  withStates op g := { op with states := g }
  change row n op := op.processChange plan side row n
  content := content
  states_withStates _ _ := rfl
  withStates_states _ := rfl
  withStates_withStates _ _ _ := rfl
  change_local row n op g := processChange_patch plan op g side row n
  change_position row n n' op := processChange_position plan op side n n' row
  load := loadState
  save := saveState
  advance op := op.advanceClock plan processingTime
  tooLong := .execution "interval join batch exceeds i32 rows"
  advance_withStates op g := by
    unfold Operator.advanceClock
    split <;> rfl
  advance_advance op := by
    unfold Operator.advanceClock
    split
    · rfl
    · rw [max_assoc, max_self]
  advance_change row n op h := advanceClock_processChange plan op side row n processingTime h

/-- The operator keeps its states storable. -/
theorem batchOperator_stores (plan : Plan) (side : Side) (processingTime : Int) :
    (batchOperator plan side processingTime).Stores Storable (Fits plan side) where
  saved h := loadState_saveState h
  weaken h := h.weaken
  change hrow h := h.processChange hrow _
  valid_withStates _ hrow := ⟨hrow.time, hrow.length_lt, hrow.timer⟩
  valid_change {op row row' n} hrow := by
    have htime : ((batchOperator plan side processingTime).change row' n op).1.rowTime plan row =
      op.rowTime plan row := rowTime_processChange plan op side row' row n
    constructor
    · rw [htime]
      exact hrow.time
    · exact hrow.length_lt
    · rw [htime]
      exact hrow.timer

end StreamFusion.IntervalJoin
