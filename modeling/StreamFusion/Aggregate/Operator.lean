import StreamFusion.Lib.Outcome
import StreamFusion.Lib.Grouped
import StreamFusion.Lib.Changelog
import StreamFusion.Aggregate.Membership

/-!
# The group aggregate

The operator reads a batch of rows, finds the groups they belong to, loads the states of these
groups at once, applies the rows one after the other to the loaded states, and writes the states it
touched. Every row that changes the visible result of its group emits change rows.

Without any aggregate call the operator is a SELECT DISTINCT: it counts the rows of a key and emits
a row when the key appears and when it disappears.

A batch that fails writes nothing.  Memory admission and the building of the Arrow output are left
out: a change row is its kind, the group of the input row it is gathered from and the aggregate
values.
-/

namespace StreamFusion.Aggregate

open Wire State Grouped Changelog

/-- What the operator is told: its calls with the buffer types the plan may name. -/
structure Plan where
  inputChangelog : Bool
  generateUpdateBefore : Bool
  aggregateCalls : List (Call × Option DataType)

/-- The group aggregate operator. -/
structure GroupAggregate where
  inputChangelog : Bool
  generateUpdateBefore : Bool
  calls : List Call
  membershipLayout : Option MembershipLayout

/-- Builds the operator of a plan, if its calls are supported. -/
def GroupAggregate.withState (plan : Plan) : Except StateError GroupAggregate := do
  let calls ← plan.aggregateCalls.mapM fun entry => lowerCall entry.1 entry.2
  if plan.inputChangelog && calls.any fun call => !call.retractable then
    .error (.plan "changelog group aggregate requires retractable aggregate calls")
  else
    let layout ← if MembershipLayout.eligible calls then
        (MembershipLayout.new calls (!plan.inputChangelog)).map some
      else .ok none
    .ok ⟨plan.inputChangelog, plan.generateUpdateBefore, calls, layout⟩

/-! ## SELECT DISTINCT -/

/-- What a row does to the count of its key. -/
inductive CountChange where
  | ignored
  | present (count : Int64) (emitInsert : Bool)
  | removed
  deriving DecidableEq

/-- A row and the count of its key. -/
def applyCountChange (previous : Option Int64) (accumulate : Bool) : CountChange :=
  match previous, accumulate with
  | none, false => .ignored
  | none, true => .present 1 true
  | some count, true => .present (count + 1) false
  | some count, false => if count = 1 then .removed else .present (count - 1) false

/-! ## One row -/

/-- The results of the calls; `none` is null. -/
abbrev Values := List (Option AggregateValue)

/-- A change row: its kind, the group it belongs to and the values of the calls. -/
abbrev OutputEvent := Change (StateKey × Values)

/-- The copy of a group's state that a batch works on. -/
structure Slot (D : DataFusion) where
  staged : Option AccumulatorState
  kernels : Option (List (Option (Kernel D)))
  touched : Bool
  mode : Mode
  membership : Option MembershipBatch

namespace GroupAggregate

variable (operator : GroupAggregate)

/-- The RowKind bytes of Flink; without a changelog every row is an insertion. -/
def accumulates (row : InputRow) : Except StateError Bool :=
  if !operator.inputChangelog then .ok true
  else if row.kind = 0 ∨ row.kind = 2 then .ok true
  else if row.kind = 1 ∨ row.kind = 3 then .ok false
  else .error (.execution ("unknown Flink RowKind byte " ++ toString row.kind))

/-- The RowKind byte is one of the four kinds. -/
def IsChange (row : InputRow) : Prop :=
  row.kind = 0 ∨ row.kind = 1 ∨ row.kind = 2 ∨ row.kind = 3

instance : DecidablePred IsChange := fun _ => inferInstanceAs (Decidable (_ ∨ _))

/-- Does a row of a changelog add to its group? -/
def adds (row : InputRow) : Bool := !operator.inputChangelog || row.kind = 0 || row.kind = 2

/-- Whether a change adds or retracts is read off its kind. -/
theorem accumulates_eq {row : InputRow} (h : IsChange row) :
    operator.accumulates row = .ok (operator.adds row) := by
  unfold accumulates adds
  rcases operator.inputChangelog with _ | _
  · rfl
  · rcases h with h | h | h | h <;> simp [h]

variable {D : DataFusion}

section Row

/-- A row of an aggregate without calls. -/
def countRow (slot : Slot D) (row : InputRow) (accumulate : Bool) : Slot D × List OutputEvent :=
  match applyCountChange (slot.staged.map fun state => state.rowCount) accumulate with
  | .ignored => (slot, [])
  | .present count emitInsert =>
    ({ slot with staged := some ⟨count, []⟩, touched := true },
      if emitInsert then [⟨.insert, (row.key, [])⟩] else [])
  | .removed =>
    ({ slot with staged := some ⟨0, []⟩, touched := true }, [⟨.delete, (row.key, [])⟩])

/-- The change rows of an update; `previous` is `none` for a group that was not there. -/
def changeRows (group : StateKey) (previous : Option Values) (values : Values) : List OutputEvent :=
  match previous with
  | none => [⟨.insert, (group, values)⟩]
  | some previous =>
    if previous ≠ values then
      (if operator.generateUpdateBefore then [⟨.updateBefore, (group, previous)⟩] else []) ++
        [⟨.updateAfter, (group, values)⟩]
    else
      []

/-- Has the group no rows? -/
def firstRow (slot : Slot D) : Bool := slot.staged.all fun state => state.rowCount = 0

/-- A row of an aggregate.  When the last row of a group is retracted, its accumulators and kernels
are dropped, and a later row of the batch starts afresh. -/
def aggregateRow (schema : Schema) (slot : Slot D) (row : InputRow) (accumulate : Bool) :
    Except StateError (Slot D × List OutputEvent) := do
  let current := slot.staged.getD (.new operator.calls)
  let previous := current.values operator.calls
  let kernels ← match slot.kernels with
    | some kernels => .ok kernels
    | none => RowKernels.new D operator.calls current.accumulators
  let (kernels, current) ←
    RowKernels.apply operator.calls schema row accumulate kernels current
  if current.rowCount = 0 then
    .ok ({ slot with staged := none, kernels := none, touched := true },
      if firstRow slot then [] else [⟨.delete, (row.key, previous)⟩])
  else
    .ok ({ slot with staged := some current, kernels := some kernels, touched := true },
      operator.changeRows row.key (if firstRow slot then none else some previous)
        (current.values operator.calls))

/-- Input rows are gathered by 32-bit indices; a SELECT DISTINCT asks for the index of every row, an
aggregate only for those it applies. -/
def rowStep (schema : Schema) (slot : Slot D) (entry : InputRow × Nat) :
    Except StateError (Slot D × List OutputEvent) := do
  let accumulate ← operator.accumulates entry.1
  if operator.calls.isEmpty then
    if entry.2 < 2 ^ 32 then
      .ok (countRow slot entry.1 accumulate)
    else
      .error (.execution "select distinct batch exceeds UInt32 indexing")
  else if firstRow slot && !accumulate then
    .ok (slot, [])
  else do
    let next ← operator.aggregateRow schema slot entry.1 accumulate
    if entry.2 < 2 ^ 32 then
      .ok next
    else
      .error (.execution "group aggregate batch exceeds UInt32 indexing")

end Row

/-! ## One batch -/

section Batch

variable (D : DataFusion) (converter : RowConverter) (schema : Schema)

/-- The copy of a group, with the members the rows of the group name. -/
def loadGroup (store : Store) (rows : List InputRow) (key : StateKey) :
    Except StateError (Slot D) := do
  match operator.membershipLayout with
  | none =>
    let staged ← (store.get key).mapM fun bytes => decodeState bytes operator.calls
    .ok ⟨staged, none, false, .counted, none⟩
  | some layout =>
    let mode ← layout.mode (store.get key)
    let staged ← (store.get key).mapM fun bytes => layout.decode bytes operator.calls
    let changes ← (rowsOf InputRow.key key rows).mapM operator.accumulates
    let (staged, members) ← layout.load converter operator.calls schema store key
      ((store.get key).any isHeader) mode staged (rowsOf InputRow.key key rows) changes
    .ok ⟨staged, none, false, mode, some members⟩

/-- The copies of the groups of a batch. -/
def loadGroups (store : Store) (rows : List InputRow) :
    Except StateError (List (StateKey × Slot D)) :=
  (keysOf InputRow.key rows).mapM fun key => do
    .ok (key, ← operator.loadGroup D converter schema store rows key)

variable {D}

/-- The copy of a group. -/
def slotOf (slots : List (StateKey × Slot D)) (key : StateKey) : Slot D :=
  (slots.lookup key).getD ⟨none, none, false, .counted, none⟩

/-- The new state of a group; a group without rows has none. -/
def encodeSlot (slot : Slot D) : Option Bytes :=
  (slot.staged.filter fun state => state.rowCount ≠ 0).map fun state =>
    if operator.membershipLayout.isSome then MembershipLayout.encode state slot.mode
    else encodeState state

/-- The states that a batch writes. -/
def stateMutations (staged : StateKey → Slot D) (keys : List StateKey) : List StateMutation :=
  keys.filterMap fun key =>
    if (staged key).touched then some ⟨key, operator.encodeSlot (staged key)⟩ else none

/-- The members that a batch writes. -/
def memberMutations (staged : StateKey → Slot D) (keys : List StateKey) : List StateMutation :=
  keys.flatMap fun key =>
    match (staged key).membership with
    | some members =>
      if (staged key).touched then members.mutations (staged key).mode (staged key).staged else []
    | none => []

variable (D)

/-- A batch. -/
def processArrow (store : Store) (rows : List InputRow) :
    Except StateError (Store × List OutputEvent) := do
  let slots ← operator.loadGroups D converter schema store rows
  let (staged, events) ← stage (fun entry : InputRow × Nat => entry.1.key)
    (operator.rowStep schema) (slotOf slots) rows.zipIdx
  let keys := keysOf InputRow.key rows
  .ok (store.writeBatch
    (operator.stateMutations staged keys ++ memberMutations staged keys), events)

/-- A sequence of batches: the final state and what each batch emitted. -/
def processBatches (store : Store) : List (List InputRow) →
    Except StateError (Store × List (List OutputEvent))
  | [] => .ok (store, [])
  | rows :: batches => do
    let (store, events) ← operator.processArrow D converter schema store rows
    let (store, rest) ← processBatches store batches
    .ok (store, events :: rest)

end Batch

/-! ## The parts of a batch -/

section Lemmas

variable {operator} {converter : RowConverter} {schema : Schema}

variable {keys : List StateKey} {key : StateKey}

theorem slotOf_map (slot : StateKey → Slot D)
    (h : key ∈ keys) : slotOf (keys.map fun k => (k, slot k)) key = slot key := by
  rw [slotOf, lookup_map, if_pos h]
  rfl

variable {staged : StateKey → Slot D} {rows : List InputRow}

/-- If the row indices have 32 bits, they do not matter. -/
theorem stage_zipIdx (staged : StateKey → Slot D) (h : rows.length ≤ 2 ^ 32) :
    stage (fun entry : InputRow × Nat => entry.1.key) (operator.rowStep schema) staged rows.zipIdx =
      stage InputRow.key (fun slot row => operator.rowStep schema slot (row, 0)) staged rows := by
  have hindex : ∀ entry ∈ rows.zipIdx, ∀ slot : Slot D,
      operator.rowStep schema slot entry = operator.rowStep schema slot (entry.1, 0) := by
    intro entry hentry slot
    have hlt : entry.2 < 2 ^ 32 := by
      have := List.snd_lt_of_mem_zipIdx hentry
      omega
    have hzero : (0 : Nat) < 2 ^ 32 := by decide
    simp only [rowStep, if_pos hlt, if_pos hzero]
  rw [stage_map Prod.fst InputRow.key (fun slot row => operator.rowStep schema slot (row, 0))
    rows.zipIdx hindex, List.zipIdx_map_fst]

variable {store : Store} {events : List OutputEvent}

/-- A batch goes through once its groups load and its rows are staged. -/
theorem processArrow_of_stage {slot : StateKey → Slot D} (hload : ∀ key ∈ keysOf InputRow.key rows,
      operator.loadGroup D converter schema store rows key = .ok (slot key))
    (hstage : stage (fun entry : InputRow × Nat => entry.1.key) (operator.rowStep schema)
      (slotOf ((keysOf InputRow.key rows).map fun key => (key, slot key))) rows.zipIdx =
        .ok (staged, events)) :
    operator.processArrow D converter schema store rows =
      .ok (store.writeBatch (operator.stateMutations staged (keysOf InputRow.key rows) ++
        memberMutations staged (keysOf InputRow.key rows)), events) := by
  have hslots : operator.loadGroups D converter schema store rows =
      .ok ((keysOf InputRow.key rows).map fun key => (key, slot key)) :=
    Except.mapM_of_ok fun key hkey => by rw [hload key hkey]; rfl
  rw [processArrow, hslots, Except.ok_bind, hstage]
  rfl

theorem processBatches_cons {store' : Store} {batches : List (List InputRow)}
    (h : operator.processArrow D converter schema store rows = .ok (store', events)) :
    operator.processBatches D converter schema store (rows :: batches) =
      (operator.processBatches D converter schema store' batches).map fun result =>
        (result.1, events :: result.2) := by
  rw [processBatches, h, Except.ok_bind]
  dsimp only
  rcases operator.processBatches D converter schema store' batches with error
    | ⟨final, rest⟩ <;> rfl

end Lemmas

end GroupAggregate

end StreamFusion.Aggregate
