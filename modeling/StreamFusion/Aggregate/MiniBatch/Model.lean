import StreamFusion.Aggregate.AppendBatch
import StreamFusion.Aggregate.Operator
import StreamFusion.Aggregate.Settled

/-!
# Mini-batches

With a trigger size the group aggregate works in bundles.  Rows are collected in pending groups,
which remember the state they started from; when the bundle has as many rows as the trigger says,
every pending group emits its net change and is flushed.  A batch may hold many bundles and end
within one.

The backend is read once and written once for each batch.  In between, the states of the batch's
groups are in a working set, which the flushes keep up to date.

The same loop merges partial states that other operators have computed, one for each input row.

Left out are the memory admission and the building of the Arrow output.  A group is named by its
key, where the code also keeps the encoded grouping columns of its first row.
-/

namespace StreamFusion.Aggregate

open Wire State Grouped Changelog Function

/-! ## The order of a flush -/

/-- The capacity of a Java hash map with so many entries. -/
def hashmapCapacity : Nat → Nat → Nat → Nat
  | 0, capacity, _ => capacity
  | fuel + 1, capacity, entries =>
    if capacity * 3 / 4 < entries then hashmapCapacity fuel (capacity * 2) entries else capacity

/-- The bucket of a key in a Java hash map. -/
def hashmapBucket (capacity : Nat) (hash : UInt32) : Nat :=
  (hash ^^^ (hash >>> 16)).toNat &&& (capacity - 1)

/-- The iteration order of a Java hash map, given the hash of the keys. -/
def sortFlinkHashmapKeys (hash : Bytes → UInt32) (keys : List StateKey) : List StateKey :=
  if keys.length < 2 then
    keys
  else
    let capacity := hashmapCapacity 60 16 keys.length
    keys.mergeSort fun a b =>
      hashmapBucket capacity (hash a.key) ≤ hashmapBucket capacity (hash b.key)

theorem sortFlinkHashmapKeys_perm (hash : Bytes → UInt32) (keys : List StateKey) :
    (sortFlinkHashmapKeys hash keys).Perm keys := by
  unfold sortFlinkHashmapKeys
  split
  · exact .refl _
  · exact List.mergeSort_perm ..

/-! ## Pending groups -/

/-- A group of the running bundle: the state it had and the state it has. -/
structure PendingGroup where
  original : Option AccumulatorState
  current : Option AccumulatorState

/-- Was the group without rows before the bundle? -/
def PendingGroup.first (group : PendingGroup) : Bool :=
  group.original.all fun state => state.rowCount = 0

/-- The backend and the open bundle. -/
structure MiniState where
  store : Store
  pending : StateKey → Option PendingGroup
  pendingOrder : List StateKey
  pendingElements : Nat

/-- Nothing stored and nothing pending. -/
def MiniState.empty : MiniState := ⟨∅, fun _ => none, [], 0⟩

/-- The work on a batch: the open bundle, the working set and what is to be written. -/
structure MiniWork (D : DataFusion) where
  pending : StateKey → Option PendingGroup
  pendingOrder : List StateKey
  pendingElements : Nat
  working : StateKey → Option (Option AccumulatorState)
  dirty : List StateKey
  kernels : StateKey → Option (List (Option (Kernel D)))
  events : List OutputEvent

/-- Gives a pending group another state. -/
def MiniWork.setCurrent {D : DataFusion} (work : MiniWork D) (key : StateKey)
    (group : PendingGroup) (current : AccumulatorState) : MiniWork D :=
  { work with pending := update work.pending key (some ⟨group.original, some current⟩) }

/-- Forgets the kernels of all groups. -/
def MiniWork.clearKernels {D : DataFusion} (work : MiniWork D) : MiniWork D :=
  { work with kernels := fun _ => none }

namespace GroupAggregate

variable (operator : GroupAggregate)

/-- What a pending group emits. -/
def groupEvents (key : StateKey) (group : PendingGroup) : List OutputEvent :=
  match group.current with
  | none => []
  | some current =>
    let previous := match group.original with
      | some state => state.values operator.calls
      | none => operator.calls.map fun _ => none
    if current.rowCount = 0 then
      if group.first then [] else [⟨.delete, (key, previous)⟩]
    else
      operator.changeRows key (if group.first then none else some previous)
        (current.values operator.calls)

section Work

variable {D : DataFusion} (schema : Schema) (hash : Bytes → UInt32) (size : Nat)

/-- Adds a key at the end, once. -/
def insertKey (keys : List StateKey) (key : StateKey) : List StateKey :=
  if key ∈ keys then keys else keys ++ [key]

/-- Flushes one pending group into the working set. -/
def flushKey (work : MiniWork D) (key : StateKey) : Except StateError (MiniWork D) :=
  match work.pending key with
  | none => .error (.panic "pending order matches map")
  | some group =>
    let pending := update work.pending key none
    match group.current with
    | none =>
      .ok { work with
        pending
        working := if (work.working key).isSome then work.working
          else update work.working key (some none) }
    | some current =>
      if current.rowCount = 0 then
        .ok { work with
          pending
          events := work.events ++ operator.groupEvents key group
          dirty := if group.first then work.dirty else insertKey work.dirty key
          working := update work.working key (some none) }
      else
        .ok { work with
          pending
          events := work.events ++ operator.groupEvents key group
          dirty := insertKey work.dirty key
          working := update work.working key (some (some current)) }

/-- Flushes the open bundle. -/
def flushToWorking (work : MiniWork D) : Except StateError (MiniWork D) := do
  let work ← (sortFlinkHashmapKeys hash work.pendingOrder).foldlM operator.flushKey
    { work with pendingOrder := [] }
  .ok { work with pendingElements := 0 }

/-- Makes a group pending.  Its state has been read for the batch, or flushed within it. -/
def stageGroup (message : String) (work : MiniWork D) (key : StateKey) :
    Except StateError (MiniWork D) :=
  if (work.pending key).isSome then
    .ok work
  else
    match work.working key with
    | none => .error (.panic message)
    | some state =>
      .ok { work with
        pending := update work.pending key (some ⟨state, state⟩)
        pendingOrder := work.pendingOrder ++ [key] }

/-! ## Insertions only -/

/-- The rows of a chunk that belong to one group. -/
def appendGroup (chunk : List (InputRow × Nat)) (work : MiniWork D) (key : StateKey) :
    Except StateError (MiniWork D) :=
  match work.pending key with
  | none => .error (.panic "group was initialized")
  | some group => do
    let current := group.current.getD (.new operator.calls)
    let current ← current.applyAppendBatch D schema operator.calls
      (rowsOf (fun entry => entry.1.key) key chunk)
    .ok (work.setCurrent key group current)

/-- The rows of a batch that belong to one bundle. -/
def appendChunk (work : MiniWork D) (chunk : List (InputRow × Nat)) :
    Except StateError (MiniWork D) := do
  let work ← chunk.foldlM (fun work entry =>
    stageGroup "incoming state was prefetched" work entry.1.key) work
  let work ← (keysOf (fun entry => entry.1.key) chunk).foldlM
    (operator.appendGroup schema chunk) work
  let elements := work.pendingElements + chunk.length
  if elements = size then
    operator.flushToWorking hash { work with pendingElements := elements }
  else
    .ok { work with pendingElements := elements }

/-- A batch of insertions.  Every round takes at least one row, so there are enough rounds. -/
def appendLoop : Nat → MiniWork D → List (InputRow × Nat) → Except StateError (MiniWork D)
  | _, work, [] => .ok work
  | 0, _, _ :: _ => .error (.panic "a bundle takes no rows")
  | rounds + 1, work, row :: rows => do
    let length := size - work.pendingElements
    let work ← operator.appendChunk schema hash size work ((row :: rows).take length)
    appendLoop rounds work ((row :: rows).drop length)

/-! ## All kinds of rows -/

/-- The kernels of a group; they are kept until the flush. -/
def groupKernels (work : MiniWork D) (key : StateKey) (current : AccumulatorState) :
    Except StateError (List (Option (Kernel D))) :=
  match work.kernels key with
  | some kernels => .ok kernels
  | none => RowKernels.new D operator.calls current.accumulators

/-- A raw row, with kernels where a call has one. -/
def rawRow (work : MiniWork D) (row : InputRow) (group : PendingGroup) (accumulate : Bool) :
    Except StateError (MiniWork D) :=
  if operator.calls.isEmpty then
    match applyCountChange (group.current.map fun state => state.rowCount) accumulate with
    | .ignored => .ok work
    | .present count _ =>
      .ok (work.setCurrent row.key group ⟨count, []⟩)
    | .removed =>
      .ok (work.setCurrent row.key group ⟨0, []⟩)
  else if accumulate || group.current.isSome then do
    -- only the retractions before the first row of a group are skipped
    let current := group.current.getD (.new operator.calls)
    let kernels ← operator.groupKernels work row.key current
    let (kernels, current) ←
      RowKernels.apply operator.calls schema row accumulate kernels current
    .ok { work.setCurrent row.key group current with
      kernels := update work.kernels row.key (some kernels) }
  else
    .ok work

/-- An input row: a raw one, or one with a partial state. -/
abbrev MiniInput := InputRow × Option AccumulatorState

/-- One input row, and a flush if it completes the bundle. -/
def miniRow (work : MiniWork D) (input : MiniInput) : Except StateError (MiniWork D) := do
  let work ← stageGroup "every incoming key was prefetched or flushed" work input.1.key
  match work.pending input.1.key with
  | none => .error (.panic "staged group")
  | some group =>
    let work ← match input.2 with
      | some state => do
        let current ← (group.current.getD (.new operator.calls)).merge operator.calls state
        .ok (work.setCurrent input.1.key group current)
      | none => do
        let accumulate ← operator.accumulates input.1
        operator.rawRow schema work input.1 group accumulate
    let elements := work.pendingElements + 1
    if elements = size then do
      let work ← operator.flushToWorking hash { work with pendingElements := elements }
      .ok work.clearKernels
    else
      .ok { work with pendingElements := elements }

/-! ## A batch -/

/-- The stored state of a group. -/
def loadState (store : Store) (key : StateKey) : Except StateError (Option AccumulatorState) :=
  match store.get key with
  | none => .ok none
  | some bytes => (decodeState bytes operator.calls).map some

/-- The stored states of the groups of a batch that are not pending. -/
def prefetch (state : MiniState) (keys : List StateKey) :
    Except StateError (List (StateKey × Option AccumulatorState)) :=
  (keys.filter fun key => (state.pending key).isNone).mapM fun key => do
    .ok (key, ← operator.loadState state.store key)

/-- What a batch writes. -/
def miniMutations (work : MiniWork D) : Except StateError (List StateMutation) :=
  work.dirty.mapM fun key =>
    match work.working key with
    | none => .error (.panic "dirty state was flushed")
    | some value => .ok ⟨key, value.map encodeState⟩

variable (D)

/-- Are all rows raw insertions?  A SELECT DISTINCT never takes the short way. -/
def appendOnly (inputs : List MiniInput) : Except StateError Bool :=
  if inputs.any (fun input => input.2.isSome) || operator.calls.isEmpty then
    .ok false
  else do
    let accumulates ← inputs.mapM fun input => operator.accumulates input.1
    .ok (accumulates.all id)

/-- A batch. -/
def processMiniInput (state : MiniState) (inputs : List MiniInput) :
    Except StateError (MiniState × List OutputEvent) := do
  let loaded ← operator.prefetch state (keysOf (fun input => input.1.key) inputs)
  if size = 0 then
    .error (.plan "aggregate mini-batch trigger must be positive")
  else
    let work : MiniWork D := ⟨state.pending, state.pendingOrder, state.pendingElements,
      fun key => loaded.lookup key, [], fun _ => none, []⟩
    let append ← operator.appendOnly inputs
    let work ← if append then
        operator.appendLoop schema hash size inputs.length work (inputs.map Prod.fst).zipIdx
      else
        inputs.foldlM (operator.miniRow schema hash size) work
    let mutations ← miniMutations work
    .ok (⟨state.store.writeBatch mutations, work.pending, work.pendingOrder, work.pendingElements⟩,
      work.events)

variable {D}

/-- The state a pending group leaves in the backend, if it changes it. -/
def finishMutation (key : StateKey) (group : PendingGroup) : Option StateMutation :=
  match group.current with
  | none => none
  | some current =>
    if current.rowCount = 0 then
      if group.first then none else some ⟨key, none⟩
    else
      some ⟨key, some (encodeState current)⟩

/-- Emits one pending group and writes its state. -/
def finishKey (state : MiniState × List StateMutation × List OutputEvent) (key : StateKey) :
    Except StateError (MiniState × List StateMutation × List OutputEvent) :=
  match state.1.pending key with
  | none => .error (.panic "pending mini-batch order and map remain synchronized")
  | some group =>
    .ok ({ state.1 with pending := update state.1.pending key none },
      state.2.1 ++ (finishMutation key group).toList, state.2.2 ++ operator.groupEvents key group)

/-- The control event that ends a bundle before it is full. -/
def finishPending (state : MiniState) : Except StateError (MiniState × List OutputEvent) := do
  let (state, mutations, events) ← (sortFlinkHashmapKeys hash state.pendingOrder).foldlM
    operator.finishKey ({ state with pendingOrder := [] }, [], [])
  .ok (⟨state.store.writeBatch mutations, state.pending, state.pendingOrder, 0⟩, events)

variable (D)

/-- Batches of raw rows, and the control event at the end. -/
def processMiniBatches (state : MiniState) :
    List (List InputRow) → Except StateError (MiniState × List OutputEvent)
  | [] => operator.finishPending hash state
  | rows :: batches => do
    let (state, events) ← operator.processMiniInput D schema hash size state
      (rows.map fun row => (row, none))
    let (state, rest) ← processMiniBatches state batches
    .ok (state, events ++ rest)

end Work

end GroupAggregate

end StreamFusion.Aggregate
