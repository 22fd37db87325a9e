import StreamFusion.Lib.TimeFields
import StreamFusion.State.Copies
import StreamFusion.TemporalJoin.EventTime

/-!
# Batches of the temporal join

The state of a key is stored as bytes (`temporal_join/state_codec.rs`): the next sequence number,
the two timers, the waiting rows of the left side and the versions of the right side.  A missing
timer is written as the smallest time, so that a timer at that very time is forgotten.  A count or a
length that does not fit 32 bits is an error.  The estimate of the size, from which the source
reserves its buffer, is left out.

As in the interval join a batch works on copies of the states of its keys, and on the states that
the format can hold nobody sees how the rows were cut into batches.
-/

namespace StreamFusion.TemporalJoin

open State Wire Wire.Reader Keyed Operator List Function Except
open Changelog (Kind)

/-! ## The state of a key -/

/-- What a state starts with. -/
def stateMagic : Bytes := [83, 70, 84, 74]

/-- The version of the format. -/
def stateVersion : UInt8 := 1

/-- The byte of a kind. -/
def kindByte : Kind → UInt8
  | .insert => 0
  | .updateBefore => 1
  | .updateAfter => 2
  | .delete => 3

/-- The kind of a byte. -/
def kindOf (byte : UInt8) : Option Kind :=
  [Kind.insert, .updateBefore, .updateAfter, .delete].find? fun kind => kindByte kind = byte

theorem kindOf_kindByte (kind : Kind) : kindOf (kindByte kind) = some kind := by
  cases kind <;> decide

/-- The byte of a flag. -/
def flagByte (flag : Bool) : UInt8 := if flag then 1 else 0

/-- Writes a number, if it fits. -/
def writeCount (value : Nat) (what : String) : Except StateError Bytes :=
  if value < 2 ^ 32 then .ok (leBytes 4 value)
  else .error (.execution ("temporal join " ++ what ++ " exceeds u32"))

/-- Writes bytes behind their length. -/
def writeBytes (bytes : Bytes) : Except StateError Bytes := do
  .ok ((← writeCount bytes.length "row length") ++ bytes)

/-- Writes a left row. -/
def encodeProbe (row : ProbeRow Bytes) : Except StateError Bytes := do
  let bytes ← writeBytes row.row
  .ok (leBytes 8 row.sequence ++ (timeBytes row.timestamp ++
    (kindByte row.kind :: flagByte row.isMatchable :: bytes)))

/-- Writes a version. -/
def encodeVersion (entry : Int × VersionRow Bytes) : Except StateError Bytes := do
  let bytes ← writeBytes entry.2.row
  .ok (timeBytes entry.1 ++ (kindByte entry.2.kind :: flagByte entry.2.isMatchable :: bytes))

/-- Writes a state. -/
def encodeState (state : TemporalState Bytes) : Except StateError Bytes := do
  let leftCount ← writeCount state.left.length "left row count"
  let left ← state.left.mapM encodeProbe
  let rightCount ← writeCount state.right.length "right version count"
  let right ← state.right.mapM encodeVersion
  .ok (stateMagic ++ stateVersion :: (leBytes 8 state.nextSequence ++
    (optionTimeBytes state.eventTimer ++ (optionTimeBytes state.cleanupTimer ++
      (leftCount ++ (left.flatten ++ (rightCount ++ right.flatten)))))))

/-- The error of a malformed state. -/
def invalid : StateError := .execution "invalid native temporal join state"

/-- A RowKind byte.  The source keeps any byte; only the four kinds are ever written. -/
def readKind : Reader StateError Kind := do
  let byte ← leNat invalid 1
  match kindOf (UInt8.ofNat byte) with
  | some kind => return kind
  | none => fail invalid

/-- Reads a flag. -/
def readFlag : Reader StateError Bool := do
  let byte ← leNat invalid 1
  return byte ≠ 0

/-- Reads a left row. -/
def readProbe : Reader StateError (ProbeRow Bytes) := do
  let sequence ← leNat invalid 8
  let timestamp ← time invalid
  let kind ← readKind
  let isMatchable ← readFlag
  let row ← blob invalid
  return ⟨sequence, timestamp, kind, isMatchable, row⟩

/-- Reads a version. -/
def readVersion : Reader StateError (Int × VersionRow Bytes) := do
  let timestamp ← time invalid
  let kind ← readKind
  let isMatchable ← readFlag
  let row ← blob invalid
  return (timestamp, ⟨kind, isMatchable, row⟩)

/-- Reads a state behind its header. -/
def readState : Reader StateError (TemporalState Bytes) := do
  let nextSequence ← leNat invalid 8
  let eventTimer ← optionTime invalid
  let cleanupTimer ← optionTime invalid
  let leftCount ← leNat invalid 4
  let left ← times readProbe leftCount
  let rightCount ← leNat invalid 4
  let versions ← times readVersion rightCount
  return ⟨nextSequence, left,
    versions.foldl (fun right entry => insertVersion entry.1 entry.2 right) [],
    eventTimer, cleanupTimer⟩

/-- Reads a state. -/
def decodeState (bytes : Bytes) : Except StateError (TemporalState Bytes) :=
  if bytes.length < 5 ∨ bytes.take 4 ≠ stateMagic ∨ bytes[4]? ≠ some stateVersion then
    .error invalid
  else do
    let (state, rest) ← readState (bytes.drop 5)
    if rest = [] then .ok state else .error invalid

/-- The state of a key from its value. -/
def loadState (bytes : Option Bytes) : Except StateError (TemporalState Bytes) :=
  match bytes with
  | none => .ok {}
  | some bytes => decodeState bytes

/-- The value of a key; an empty state is removed. -/
def saveState (state : TemporalState Bytes) : Except StateError (Option Bytes) :=
  if stateIsEmpty state then .ok none else some <$> encodeState state

/-- What the format can hold, also after `room` more rows. -/
structure Formed (plan : Plan) (room : Nat) (state : TemporalState Bytes) : Prop where
  sequence_lt : state.nextSequence < 2 ^ 64
  left_lt : state.left.length + room < 2 ^ 32
  right_lt : state.right.length + room < 2 ^ 32
  left : ∀ row ∈ state.left,
    row.sequence < 2 ^ 64 ∧ I64.InRange row.timestamp ∧ row.row.length < 2 ^ 32
  right : ∀ entry ∈ state.right, I64.InRange entry.1 ∧ entry.2.row.length < 2 ^ 32
  sorted : state.right.Pairwise fun entry entry' => entry.1 < entry'.1
  eventTimer : ∀ time ∈ state.eventTimer, I64.InRange time ∧ time ≠ I64.min
  cleanupTimer : ∀ time ∈ state.cleanupTimer, I64.InRange time ∧ time ≠ I64.min
  /-- On processing time there are no waiting rows to number. -/
  unnumbered : plan.mode = .processingTime → state.nextSequence = 0

/-- A state that is removed from the store comes back without its sequence number. -/
structure Storable (plan : Plan) (room : Nat) (state : TemporalState Bytes) : Prop extends
    Formed plan room state where
  empty : stateIsEmpty state = true → state.nextSequence = 0

/-! ## Reading what was written -/

theorem writeBytes_ok {bytes : Bytes} (h : bytes.length < 2 ^ 32) :
    writeBytes bytes = .ok (blobBytes bytes) := by
  rw [writeBytes, writeCount, if_pos h]
  rfl

theorem parses_readKind (kind : Kind) : Parses readKind [kindByte kind] kind := by
  have hread := parses_leNat invalid (w := 1) (n := (kindByte kind).toNat) (kindByte kind).toNat_lt
  have hbytes : leBytes 1 (kindByte kind).toNat = [kindByte kind] := by simp [leBytes]
  rw [hbytes] at hread
  refine hread.bind_pure ?_
  rw [UInt8.ofNat_toNat, kindOf_kindByte]
  exact parses_pure kind

theorem parses_readFlag (flag : Bool) : Parses readFlag [flagByte flag] flag := by
  have hread := parses_leNat invalid (w := 1) (n := (flagByte flag).toNat) (flagByte flag).toNat_lt
  have hbytes : leBytes 1 (flagByte flag).toNat = [flagByte flag] := by simp [leBytes]
  rw [hbytes] at hread
  refine hread.bind_pure ?_
  cases flag <;> exact parses_pure _

/-- The stored form of a left row. -/
def probeBytes (row : ProbeRow Bytes) : Bytes :=
  leBytes 8 row.sequence ++ (timeBytes row.timestamp ++
    ([kindByte row.kind] ++ ([flagByte row.isMatchable] ++ blobBytes row.row)))

/-- The stored form of a version. -/
def versionBytes (entry : Int × VersionRow Bytes) : Bytes :=
  timeBytes entry.1 ++ ([kindByte entry.2.kind] ++ ([flagByte entry.2.isMatchable] ++
    blobBytes entry.2.row))

variable {row : ProbeRow Bytes}

theorem encodeProbe_ok (h : row.row.length < 2 ^ 32) : encodeProbe row = .ok (probeBytes row) := by
  rw [encodeProbe, writeBytes_ok h]
  rfl

variable {entry : Int × VersionRow Bytes}

theorem encodeVersion_ok (h : entry.2.row.length < 2 ^ 32) :
    encodeVersion entry = .ok (versionBytes entry) := by
  rw [encodeVersion, writeBytes_ok h]
  rfl

theorem parses_readProbe (hsequence : row.sequence < 2 ^ 64)
    (htime : I64.InRange row.timestamp) (hrow : row.row.length < 2 ^ 32) :
    Parses readProbe (probeBytes row) row :=
  (parses_leNat invalid (by simpa using hsequence)).bind ((parses_time invalid htime).bind
    ((parses_readKind row.kind).bind ((parses_readFlag row.isMatchable).bind
      ((parses_blob invalid hrow).bind_pure (parses_pure row)))))

theorem parses_readVersion (htime : I64.InRange entry.1)
    (hrow : entry.2.row.length < 2 ^ 32) : Parses readVersion (versionBytes entry) entry :=
  (parses_time invalid htime).bind ((parses_readKind entry.2.kind).bind
    ((parses_readFlag entry.2.isMatchable).bind
      ((parses_blob invalid hrow).bind_pure (parses_pure entry))))

variable {ρ : Type}

theorem insertVersion_last (time : Int) (version : VersionRow ρ)
    {entries : List (Int × VersionRow ρ)} (h : ∀ entry ∈ entries, entry.1 < time) :
    insertVersion time version entries = entries ++ [(time, version)] := by
  induction entries with
  | nil => rfl
  | cons entry entries ih =>
    obtain ⟨hentry, hentries⟩ := forall_mem_cons.mp h
    rw [insertVersion, if_pos hentry, ih hentries, cons_append]

/-- Versions that arrive by time are listed as they arrive. -/
theorem foldl_insertVersion (before entries : List (Int × VersionRow ρ))
    (h : (before ++ entries).Pairwise fun entry entry' => entry.1 < entry'.1) :
    entries.foldl (fun right entry => insertVersion entry.1 entry.2 right) before =
        before ++ entries := by
  induction entries generalizing before with
  | nil => exact (append_nil _).symm
  | cons entry entries ih =>
    have hbefore : ∀ entry' ∈ before, entry'.1 < entry.1 := fun entry' h' =>
      (pairwise_append.mp h).2.2 entry' h' entry mem_cons_self
    rw [foldl_cons, insertVersion_last _ _ hbefore, ih _ (by simpa using h)]
    simp

/-- The stored form of a state. -/
def stateBytes (state : TemporalState Bytes) : Bytes :=
  leBytes 8 state.nextSequence ++ (optionTimeBytes state.eventTimer ++
    (optionTimeBytes state.cleanupTimer ++ (leBytes 4 state.left.length ++
      (state.left.flatMap probeBytes ++ (leBytes 4 state.right.length ++
        state.right.flatMap versionBytes)))))

variable {plan : Plan} {room : Nat} {state : TemporalState Bytes}

section

section

variable (h : Formed plan room state)
include h

theorem encodeState_ok :
    encodeState state = .ok (stateMagic ++ stateVersion :: stateBytes state) := by
  have hleft : state.left.length < 2 ^ 32 := by
    have := h.left_lt
    omega
  have hright : state.right.length < 2 ^ 32 := by
    have := h.right_lt
    omega
  have hprobes : state.left.mapM encodeProbe = .ok (state.left.map probeBytes) :=
    mapM_of_ok fun row hrow => encodeProbe_ok (h.left row hrow).2.2
  have hversions : state.right.mapM encodeVersion = .ok (state.right.map versionBytes) :=
    mapM_of_ok fun entry hentry => encodeVersion_ok (h.right entry hentry).2
  rw [encodeState, writeCount, if_pos hleft, ok_bind, hprobes, ok_bind, writeCount,
    if_pos hright, ok_bind, hversions, ok_bind]
  rw [stateBytes, flatMap_def, flatMap_def]

/-- A stored state is read back. -/
theorem parses_readState : Parses readState (stateBytes state) state := by
  have hleft : state.left.length < 2 ^ 32 := by
    have := h.left_lt
    omega
  have hright : state.right.length < 2 ^ 32 := by
    have := h.right_lt
    omega
  have hprobes := parses_times fun row hrow =>
    parses_readProbe (h.left row hrow).1 (h.left row hrow).2.1 (h.left row hrow).2.2
  have hversions := parses_times fun entry hentry =>
    parses_readVersion (h.right entry hentry).1 (h.right entry hentry).2
  refine (parses_leNat invalid (by simpa using h.sequence_lt)).bind
    ((parses_optionTime invalid h.eventTimer).bind ((parses_optionTime invalid h.cleanupTimer).bind
      ((parses_leNat invalid (by simpa using hleft)).bind (hprobes.bind
        ((parses_leNat invalid (by simpa using hright)).bind (hversions.bind_pure ?_))))))
  rw [foldl_insertVersion [] state.right h.sorted]
  exact parses_pure state

theorem decodeState_encoded :
    decodeState (stateMagic ++ stateVersion :: stateBytes state) = .ok state := by
  have hhead : ¬ ((stateMagic ++ stateVersion :: stateBytes state).length < 5 ∨
      (stateMagic ++ stateVersion :: stateBytes state).take 4 ≠ stateMagic ∨
      (stateMagic ++ stateVersion :: stateBytes state)[4]? ≠ some stateVersion) := by
    simp [stateMagic]
  have hdrop : (stateMagic ++ stateVersion :: stateBytes state).drop 5 = stateBytes state := rfl
  rw [decodeState, if_neg hhead, hdrop, (parses_readState h).run, ok_bind]
  rfl

end

theorem eq_empty_of_stateIsEmpty (h : stateIsEmpty state = true)
    (hsequence : state.nextSequence = 0) :
    state = {} := by
  obtain ⟨nextSequence, left, right, eventTimer, cleanupTimer⟩ := state
  simp only [stateIsEmpty, Bool.and_eq_true, List.isEmpty_iff, Option.isNone_iff_eq_none] at h
  obtain ⟨⟨⟨rfl, rfl⟩, rfl⟩, rfl⟩ := h
  cases hsequence
  rfl

/-- A saved state is loaded again. -/
theorem loadState_saveState (h : Storable plan room state) :
    ∃ bytes, saveState state = .ok bytes ∧ loadState bytes = .ok state := by
  unfold saveState
  by_cases hempty : stateIsEmpty state = true
  · rw [if_pos hempty]
    refine ⟨none, rfl, ?_⟩
    rw [eq_empty_of_stateIsEmpty hempty (h.empty hempty)]
    rfl
  · rw [if_neg hempty, encodeState_ok h.toFormed]
    exact ⟨_, rfl, decodeState_encoded h.toFormed⟩

end

/-! ## A row concerns its own key -/

namespace Operator

variable (plan : Plan) (op : Operator ρ)

/-- The operator with other states for the other keys. -/
def patch (key : StateKey) (g : StateKey → TemporalState ρ) : Operator ρ :=
  { op with states := update g key (op.states key) }

variable (key : StateKey) (g : StateKey → TemporalState ρ)

@[simp] theorem states_patch : (op.patch key g).states key = op.states key := update_self ..

@[simp] theorem rowTime_patch (row : InputRow ρ) :
    (op.patch key g).rowTime plan row = op.rowTime plan row := rfl

theorem setState_patch (state : TemporalState ρ) :
    (op.patch key g).setState key state = (op.setState key state).patch key g := by
  unfold setState patch
  dsimp only
  rw [update_self, update_idem]

theorem registerEventTimer_patch (timestamp : Int) :
    (op.patch key g).registerEventTimer key timestamp =
      (op.registerEventTimer key timestamp).patch key g := by
  unfold registerEventTimer
  rw [states_patch, setState_patch]
  rfl

theorem registerSmallestEventTimer_patch (timestamp : Int) :
    (op.patch key g).registerSmallestEventTimer key timestamp =
      (op.registerSmallestEventTimer key timestamp).patch key g := by
  unfold registerSmallestEventTimer
  rw [states_patch]
  cases (op.states key).eventTimer with
  | none => exact registerEventTimer_patch op key g timestamp
  | some current =>
    dsimp only
    split
    · rfl
    · exact registerEventTimer_patch
        { op with timers := op.timers.delete .eventTime ⟨current, key, .event⟩ } key g timestamp

theorem deleteCleanupTimer_patch :
    (op.patch key g).deleteCleanupTimer key = (op.deleteCleanupTimer key).patch key g := by
  unfold deleteCleanupTimer
  rw [states_patch]
  cases (op.states key).cleanupTimer with
  | none => rfl
  | some timestamp =>
    rw [setState_patch]
    rfl

theorem refreshCleanupTimer_patch : (op.patch key g).refreshCleanupTimer plan key =
      (op.refreshCleanupTimer plan key).patch key g := by
  unfold refreshCleanupTimer
  dsimp only
  rw [states_patch, deleteCleanupTimer_patch, states_patch, setState_patch,
    show (op.patch key g).currentProcessingTime = op.currentProcessingTime from rfl]
  split
  · rfl
  · split <;> rfl

section

variable (side : Side) (row : InputRow ρ)

theorem processEventChange_patch :
    (op.patch row.key g).processEventChange plan side row =
      (op.processEventChange plan side row).patch row.key g := by
  unfold processEventChange
  rw [rowTime_patch, states_patch]
  cases side
  all_goals
    dsimp only
    rw [setState_patch, registerSmallestEventTimer_patch, refreshCleanupTimer_patch]

theorem processProcessingChange_patch (ordinal : Int) :
    (op.patch row.key g).processProcessingChange plan side row ordinal =
      ((op.processProcessingChange plan side row ordinal).1.patch row.key g,
        (op.processProcessingChange plan side row ordinal).2) := by
  unfold processProcessingChange
  rw [states_patch]
  cases side with
  | right =>
    dsimp only
    rw [setState_patch, setState_patch, refreshCleanupTimer_patch, deleteCleanupTimer_patch]
    split <;> rfl
  | left =>
    dsimp only
    cases (op.states row.key).right.getLast? with
    | none => rfl
    | some version =>
      dsimp only
      rw [refreshCleanupTimer_patch]
      split <;> rfl

/-- A row only reads and changes the state of its key. -/
theorem processChange_patch (ordinal : Int) :
    (op.patch row.key g).processChange plan side row ordinal =
      ((op.processChange plan side row ordinal).1.patch row.key g,
        (op.processChange plan side row ordinal).2) := by
  unfold processChange
  cases plan.mode
  · exact Prod.ext (processEventChange_patch plan op g side row) rfl
  · exact processProcessingChange_patch plan op g side row ordinal

end

end Operator

/-! ## The position of a row is in its ordinal only -/

/-- What an output row says, without the number of the input row that caused it. -/
def OutputRow.content {ρ : Type} (output : OutputRow ρ) : ρ × Option ρ × Bool × Kind :=
  (output.left, output.right, output.isMatched, output.kind)

/-- A row's position only shows in the output. -/
theorem Operator.processChange_position (plan : Plan) (op : Operator ρ) (side : Side)
    (row : InputRow ρ) (ordinal ordinal' : Int) :
    (op.processChange plan side row ordinal).1 = (op.processChange plan side row ordinal').1 ∧
      (op.processChange plan side row ordinal).2.map OutputRow.content =
        (op.processChange plan side row ordinal').2.map OutputRow.content := by
  unfold processChange
  cases plan.mode with
  | eventTime => exact ⟨rfl, rfl⟩
  | processingTime =>
    unfold processProcessingChange
    cases side with
    | right =>
      split <;> exact ⟨rfl, rfl⟩
    | left =>
      dsimp only
      cases (op.states row.key).right.getLast? with
      | none =>
        dsimp only
        split <;> exact ⟨rfl, rfl⟩
      | some version =>
        dsimp only
        split
        · exact ⟨rfl, rfl⟩
        · split <;> exact ⟨rfl, rfl⟩

/-! ## The states stay storable -/

/-- A row that the operator can store: its time is one, its bytes have a length of 32 bits, and the
timers it may need are not at the time that stands for no timer. -/
structure Fits (plan : Plan) (op : Operator Bytes) (row : InputRow Bytes) : Prop where
  time : I64.InRange (op.rowTime plan row)
  length_lt : row.row.length < 2 ^ 32
  eventTimer : plan.mode = .eventTime → op.rowTime plan row ≠ I64.min
  cleanupTimer : 1 < plan.minStateRetentionMillis →
    I64.wrap (op.currentProcessingTime + I64.wrap plan.maxStateRetentionMillis) ≠ I64.min

namespace Operator

variable (op : Operator ρ) (key : StateKey)

theorem states_setState (state : TemporalState ρ) : (op.setState key state).states key = state :=
  update_self ..

theorem states_deleteCleanupTimer :
    (op.deleteCleanupTimer key).states key = { op.states key with cleanupTimer := none } ∧
    (op.deleteCleanupTimer key).currentProcessingTime = op.currentProcessingTime := by
  unfold deleteCleanupTimer
  cases htimer : (op.states key).cleanupTimer with
  | none =>
    have hsame : op.states key =
        { op.states key with cleanupTimer := (op.states key).cleanupTimer } :=
      rfl
    rw [htimer] at hsame
    exact ⟨hsame, rfl⟩
  | some timestamp => exact ⟨states_setState _ _ _, rfl⟩

/-- The cleanup timer afterwards is the one before or the new one, and the clock stays. -/
theorem states_refreshCleanupTimer (plan : Plan) :
    (∃ timer, (op.refreshCleanupTimer plan key).states key =
      { op.states key with cleanupTimer := timer } ∧
      (timer = (op.states key).cleanupTimer ∨ 1 < plan.minStateRetentionMillis ∧
        timer = some
          (I64.wrap (op.currentProcessingTime + I64.wrap plan.maxStateRetentionMillis)))) ∧
    (op.refreshCleanupTimer plan key).currentProcessingTime = op.currentProcessingTime := by
  unfold refreshCleanupTimer
  split
  · exact ⟨⟨_, rfl, .inl rfl⟩, rfl⟩
  · rename_i hretention
    split
    · exact ⟨⟨_, rfl, .inl rfl⟩, rfl⟩
    · obtain ⟨hdeleted, hclock⟩ := op.states_deleteCleanupTimer key
      refine ⟨⟨_, ?_, .inr ⟨by omega, rfl⟩⟩, hclock⟩
      dsimp only
      rw [hdeleted]
      exact states_setState _ _ _

theorem clock_processChange (side : Side) (row : InputRow ρ) (ordinal : Int) :
    (op.processChange plan side row ordinal).1.currentProcessingTime =
        op.currentProcessingTime := by
  unfold processChange
  cases plan.mode with
  | eventTime =>
    unfold processEventChange
    rw [(states_refreshCleanupTimer ..).2, (registerSmallestEventTimer_spec ..).1.2.1]
    cases side <;> rfl
  | processingTime =>
    unfold processProcessingChange
    cases side with
    | right =>
      dsimp only
      split
      · exact (states_refreshCleanupTimer ..).2
      · exact (states_deleteCleanupTimer ..).2
    | left =>
      dsimp only
      cases (op.states row.key).right.getLast? with
      | none => rfl
      | some version =>
        dsimp only
        split
        · exact (states_refreshCleanupTimer ..).2
        · rfl

end Operator

variable {op : Operator Bytes}

section

variable {row : InputRow Bytes}

/-- Only the clock matters. -/
theorem Fits.of_clock {op' : Operator Bytes} (h : Fits plan op row)
    (hclock : op'.currentProcessingTime = op.currentProcessingTime) : Fits plan op' row := by
  have htime : op'.rowTime plan row = op.rowTime plan row := by
    unfold Operator.rowTime
    rw [hclock]
  constructor
  · rw [htime]
    exact h.time
  · exact h.length_lt
  · rw [htime]
    exact h.eventTimer
  · rw [hclock]
    exact h.cleanupTimer

theorem Formed.weaken (h : Formed plan (room + 1) state) : Formed plan room state :=
  { h with
    left_lt := by have := h.left_lt; omega
    right_lt := by have := h.right_lt; omega }

theorem Formed.withTimers (h : Formed plan room state) {eventTimer cleanupTimer : Option Int}
    (hevent : ∀ time ∈ eventTimer, I64.InRange time ∧ time ≠ I64.min)
    (hcleanup : ∀ time ∈ cleanupTimer, I64.InRange time ∧ time ≠ I64.min) :
    Formed plan room { state with eventTimer := eventTimer, cleanupTimer := cleanupTimer } :=
  { h with
    eventTimer := hevent
    cleanupTimer := hcleanup }

/-- The cleanup timer after a row. -/
theorem Formed.refreshCleanupTimer {key : StateKey}
    (h : Formed plan room (op.states key)) (hrow : Fits plan op row) :
    Formed plan room ((op.refreshCleanupTimer plan key).states key) := by
  obtain ⟨timer, hstate, htimer⟩ := (op.states_refreshCleanupTimer key plan).1
  rw [hstate]
  refine h.withTimers h.eventTimer ?_
  rcases htimer with rfl | ⟨hretention, rfl⟩
  · exact h.cleanupTimer
  · intro time htime
    cases htime
    exact ⟨I64.inRange_wrap _, hrow.cleanupTimer hretention⟩

theorem length_insertVersion_le (time : Int) (version : VersionRow ρ)
    (entries : List (Int × VersionRow ρ)) :
    (insertVersion time version entries).length ≤ entries.length + 1 := by
  induction entries with
  | nil => exact le_refl _
  | cons entry entries ih =>
    rw [insertVersion]
    split_ifs <;> simp only [length_cons] <;> omega

theorem Formed.addLeft {row : ProbeRow Bytes} (h : Formed plan (room + 1) state)
    (hmode : plan.mode = .eventTime) (hsequence : row.sequence < 2 ^ 64)
    (htime : I64.InRange row.timestamp) (hlength : row.row.length < 2 ^ 32) :
    Formed plan room { state with
      nextSequence := (state.nextSequence + 1) % 2 ^ 64, left := state.left ++ [row] } :=
  { h.weaken with
    sequence_lt := Nat.mod_lt _ (by norm_num)
    left_lt := by
      have := h.left_lt
      rw [length_append, length_singleton]
      omega
    left := by
      intro row' hrow'
      rcases mem_append.mp hrow' with hrow' | hrow'
      · exact h.left row' hrow'
      · rw [mem_singleton.mp hrow']
        exact ⟨hsequence, htime, hlength⟩
    unnumbered := by
      intro hprocessing
      rw [hmode] at hprocessing
      cases hprocessing }

theorem Formed.addRight {time : Int} {version : VersionRow Bytes} (h : Formed plan (room + 1) state)
    (htime : I64.InRange time) (hlength : version.row.length < 2 ^ 32) :
    Formed plan room { state with right := insertVersion time version state.right } :=
  { h.weaken with
    right_lt := by
      have := h.right_lt
      have := length_insertVersion_le time version state.right
      show (insertVersion time version state.right).length + room < 2 ^ 32
      omega
    right := by
      intro entry hentry
      rw [insertVersion_eq] at hentry
      rcases Versions.mem_enter hentry with rfl | hentry
      · exact ⟨htime, hlength⟩
      · exact h.right entry hentry
    sorted := by
      rw [insertVersion_eq]
      exact Versions.Sorted.enter h.sorted time version }

theorem Formed.setRight (h : Formed plan (room + 1) state) {right : List (Int × VersionRow Bytes)}
    (hlength : right.length ≤ 1)
    (hright : ∀ entry ∈ right, I64.InRange entry.1 ∧ entry.2.row.length < 2 ^ 32) :
    Formed plan room { state with right := right } :=
  { h.weaken with
    right_lt := by
      have := h.left_lt
      show right.length + room < 2 ^ 32
      omega
    right := hright
    sorted := by
      rcases right with _ | ⟨entry, _ | ⟨entry', right⟩⟩
      · exact List.Pairwise.nil
      · exact pairwise_singleton _ _
      · simp at hlength }

variable {side : Side}

/-- On event time a row leaves its key with an event timer. -/
theorem Storable.processEventChange
    (h : Storable plan (room + 1) (op.states row.key)) (hmode : plan.mode = .eventTime)
    (hrow : Fits plan op row) :
    Storable plan room ((op.processEventChange plan side row).states row.key) := by
  -- the row is added
  obtain ⟨added, hadded, hclock, hformed⟩ : ∃ added : Operator Bytes,
    op.processEventChange plan side row =
        (added.registerSmallestEventTimer row.key (op.rowTime plan row)).refreshCleanupTimer plan
          row.key ∧
      added.currentProcessingTime = op.currentProcessingTime ∧
      Formed plan room (added.states row.key) := by
    cases side with
    | left =>
      refine ⟨_, rfl, rfl, ?_⟩
      rw [states_setState]
      exact h.toFormed.addLeft hmode h.sequence_lt hrow.time hrow.length_lt
    | right =>
      refine ⟨_, rfl, rfl, ?_⟩
      rw [states_setState]
      exact h.toFormed.addRight hrow.time hrow.length_lt
  -- it gets its event timer
  obtain ⟨⟨-, hsame, -⟩, timer, hstates, htimer, -⟩ :=
    added.registerSmallestEventTimer_spec row.key (op.rowTime plan row)
  have htimedFormed : Formed plan room
      ((added.registerSmallestEventTimer row.key (op.rowTime plan row)).states row.key) := by
    rw [hstates, update_self]
    refine hformed.withTimers ?_ hformed.cleanupTimer
    intro time htime
    cases htime
    rcases htimer with rfl | hold
    · exact ⟨hrow.time, hrow.eventTimer hmode⟩
    · exact hformed.eventTimer timer hold
  have hfits : Fits plan (added.registerSmallestEventTimer row.key (op.rowTime plan row)) row :=
    hrow.of_clock (hsame.trans hclock)
  obtain ⟨⟨cleanup, hfinal, -⟩, -⟩ := states_refreshCleanupTimer
    (added.registerSmallestEventTimer row.key (op.rowTime plan row)) row.key plan
  refine ⟨hadded ▸ htimedFormed.refreshCleanupTimer hfits, fun hempty => ?_⟩
  rw [hadded, hfinal, hstates, update_self] at hempty
  simp [stateIsEmpty] at hempty

/-- On processing time no row is numbered. -/
theorem Storable.of_unnumbered (h : Formed plan room state) (hmode : plan.mode = .processingTime) :
    Storable plan room state :=
  ⟨h, fun _ => h.unnumbered hmode⟩

variable {ordinal : Int}

section

variable (h : Storable plan (room + 1) (op.states row.key))
include h

theorem Storable.processProcessingChange (hmode : plan.mode = .processingTime)
    (hrow : Fits plan op row) :
    Storable plan room ((op.processProcessingChange plan side row ordinal).1.states row.key) := by
  refine Storable.of_unnumbered ?_ hmode
  have hclock : I64.InRange op.currentProcessingTime := by
    have htime := hrow.time
    rw [rowTime, if_pos hmode] at htime
    exact htime
  unfold Operator.processProcessingChange
  cases side with
  | right =>
    dsimp only
    split
    · have hfits : Fits plan (op.setState row.key { op.states row.key with
          right := [(op.currentProcessingTime,
            ⟨row.kind, plan.rowIsMatchable row, row.row⟩)] }) row := hrow.of_clock rfl
      refine Formed.refreshCleanupTimer ?_ hfits
      rw [states_setState]
      refine h.toFormed.setRight (le_refl _) fun entry hentry => ?_
      rw [mem_singleton.mp hentry]
      exact ⟨hclock, hrow.length_lt⟩
    · rw [(states_deleteCleanupTimer ..).1, states_setState]
      have hcleared : Formed plan room { op.states row.key with right := [] } :=
        h.toFormed.setRight (by simp) (by simp)
      exact hcleared.withTimers hcleared.eventTimer (by simp)
  | left =>
    dsimp only
    have hweak := h.toFormed.weaken
    cases (op.states row.key).right.getLast? with
    | none => exact hweak
    | some version =>
      dsimp only
      split
      · exact hweak.refreshCleanupTimer hrow
      · exact hweak

theorem Storable.processChange (hrow : Fits plan op row) :
    Storable plan room ((op.processChange plan side row ordinal).1.states row.key) := by
  unfold Operator.processChange
  cases hmode : plan.mode with
  | eventTime => exact h.processEventChange hmode hrow
  | processingTime => exact h.processProcessingChange hmode hrow

end

end

/-! ## Batches -/

/-- Every batch moves the clock of processing time. -/
def Operator.advanceClock (op : Operator Bytes) (processingTime : Int) : Operator Bytes :=
  { op with currentProcessingTime := max op.currentProcessingTime processingTime }

theorem Operator.advanceClock_eq_self {processingTime : Int} :
    op.advanceClock processingTime = op ↔ processingTime ≤ op.currentProcessingTime := by
  unfold Operator.advanceClock
  constructor
  · intro h
    exact max_eq_left_iff.mp (congrArg currentProcessingTime h)
  · intro h
    rw [max_eq_left h]

instance : Inhabited (TemporalState Bytes) := ⟨{}⟩

/-! The states can be taken out and put back, for batches and for timers. -/

theorem Operator.states_withStates (op : Operator Bytes) (g : StateKey → TemporalState Bytes) :
    ({ op with states := g } : Operator Bytes).states = g := rfl

theorem Operator.withStates_states (op : Operator Bytes) : { op with states := op.states } = op :=
  rfl

theorem Operator.withStates_withStates (op : Operator Bytes)
    (g g' : StateKey → TemporalState Bytes) :
    ({ ({ op with states := g } : Operator Bytes) with states := g' } : Operator Bytes) =
      { op with states := g' } := rfl

/-- The batches of one side, over the stored states. -/
def batchOperator (plan : Plan) (side : Side) (processingTime : Int) :
    CopyOperator (Operator Bytes) (InputRow Bytes) (OutputRow Bytes)
      (Bytes × Option Bytes × Bool × Kind) (TemporalState Bytes) where
  key := InputRow.key
  states := Operator.states
  withStates op g := { op with states := g }
  change row n op := op.processChange plan side row n
  content := OutputRow.content
  states_withStates := Operator.states_withStates
  withStates_states := Operator.withStates_states
  withStates_withStates := Operator.withStates_withStates
  change_local row n op g := processChange_patch plan op g side row n
  change_position row n n' op := processChange_position plan op side row n n'
  load := loadState
  save := saveState
  advance op := op.advanceClock processingTime
  tooLong := .execution "temporal join batch exceeds i32 rows"
  advance_withStates _ _ := rfl
  advance_advance op := by
    unfold Operator.advanceClock
    rw [max_assoc, max_self]
  advance_change row n op h := by
    rw [advanceClock_eq_self] at h ⊢
    rw [clock_processChange]
    exact h

/-- The operator keeps its states storable. -/
theorem batchOperator_stores (plan : Plan) (side : Side) (processingTime : Int) :
    (batchOperator plan side processingTime).Stores (Storable plan) (Fits plan) where
  saved h := loadState_saveState h
  weaken h := ⟨h.toFormed.weaken, h.empty⟩
  change hrow h := h.processChange hrow
  valid_withStates _ hrow := hrow.of_clock rfl
  valid_change hrow := hrow.of_clock (clock_processChange _ side _ _)

end StreamFusion.TemporalJoin
