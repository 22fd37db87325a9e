import StreamFusion.Lib.Changelog
import StreamFusion.Lib.Ranked
import StreamFusion.Lib.WrappingInt
import StreamFusion.TopN.Compare

/-!
# The Top-N operator

The operator keeps the best rows of every partition.  A batch loads the partitions of its rows;
loaded rows and rows of the batch are both *candidates*, references into one of the two batches of
rows with the sequence number of their arrival.  Every row of the batch changes the ordered
candidate list of its partition, and the difference between the selected parts before and after is
emitted.

Append-only plans have two faster ways to change the list.  `Selection` sorts all candidates of the
batch once and from then on works with their positions; `winners` computes for a plan that keeps one
row which rows of the batch become the kept row.  Both call kernels of a library, which `Kernels`
describes by what they are documented to do: a sort by columns with an optional limit, and a running
minimum.

Encoded sort keys are elements of a linear order `K`.  Memory accounting and the statistics counters
are left out.
-/

namespace StreamFusion.TopN

open List

open Changelog (Kind)

/-! ## The plan and the state of a batch -/

/-- How the operator keeps its candidates. -/
inductive Strategy where
  | appendFast
  | updateFast
  | retract
  deriving DecidableEq, Repr

/-- How ranks are counted. -/
inductive RankType where
  | rowNumber
  | rank
  deriving DecidableEq, Repr

/-- The plan of the operator. -/
structure Plan where
  strategy : Strategy
  rankType : RankType
  rankStart : Nat
  rankEnd : Option Nat
  variableRankEndIndex : Option Nat
  sortColumns : List SortColumn
  hasPartitionKeys : Bool
  primaryKeyIndices : List Nat
  outputRankNumber : Bool
  generateUpdateBefore : Bool
  boundedFinalOutput : Bool
  physicalInputSemantics : Bool
  deriving DecidableEq

/-- A row by its place, with its sequence number. -/
structure CandidateRef where
  source : Nat
  row : Nat
  sequence : Nat
  kind : Kind
  deriving DecidableEq, Repr

/-- The place of a candidate's row. -/
def CandidateRef.position (candidate : CandidateRef) : Nat × Nat :=
  (candidate.source, candidate.row)

/-- The batch of input rows (source 0) and the batch of loaded rows (source 1), with the encoded
sort keys of their rows where the sort columns have them. -/
structure CandidateSources (K : Type) where
  schema : List DataType
  batches : Nat → Nat → Row
  orders : Option (Nat → Nat → K)

/-- The row of a candidate. -/
def CandidateSources.row {K : Type} (sources : CandidateSources K)
    (candidate : CandidateRef) : Row :=
  sources.batches candidate.source candidate.row

/-- What the operator works on for a partition. -/
structure GroupWork where
  nextSequence : Nat
  rankEnd : Option Int
  candidates : List CandidateRef
  deriving DecidableEq, Repr

/-- Nothing is stored. -/
def GroupWork.empty : GroupWork := ⟨0, none, []⟩

/-- The plans that are refused. -/
def validatePlan (plan : Plan) : Except String Unit :=
  if plan.rankStart = 0 || plan.rankEnd.isSome == plan.variableRankEndIndex.isSome then
    .error "top-n requires valid schemas, strategy, range, ordering, and max parallelism"
  else if plan.rankEnd.any fun stop => stop < plan.rankStart || I64.max < stop then
    .error "top-n rank end is outside its valid one-based range"
  else if plan.rankType = .rank && (!plan.boundedFinalOutput || !plan.physicalInputSemantics
      || plan.strategy ≠ .appendFast || plan.rankEnd.isNone) then
    .error "SQL RANK selection requires bounded physical append-state with a constant range"
  else if plan.boundedFinalOutput && plan.rankType ≠ .rank then
    .error "bounded Top-N final output currently requires SQL RANK semantics"
  else if plan.sortColumns = [] && (plan.hasPartitionKeys || plan.outputRankNumber
      || plan.variableRankEndIndex.isSome) then
    .error "unordered top-n is valid only for a global constant LIMIT/OFFSET"
  else .ok ()

/-- A row of the batch: the number of its partition, its row-kind byte and its values. -/
structure InputRow where
  group : Nat
  kind : Int
  row : Row

/-- A candidate that is emitted with its rank. -/
structure OutputEvent where
  candidate : CandidateRef
  rank : Int
  kind : Kind
  deriving DecidableEq, Repr

/-! ## Loading

A partition is stored with the sequences and rows of its candidates in their order.  The rows of all
partitions of a batch are decoded into one batch. -/

/-- A stored partition.  The rows are stored under sortable keys, or in one value of an older
format, which had another order of nulls. -/
structure StoredPartition where
  nextSequence : Nat
  rankEnd : Option Int
  indexed : Bool
  rows : List (Nat × Row)

/-- The candidates of the partitions; their rows begin at `offset`. -/
def restore : Nat → List StoredPartition → List GroupWork
  | _, [] => []
  | offset, partition :: partitions =>
    ⟨partition.nextSequence, partition.rankEnd,
      partition.rows.zipIdx offset |>.map fun (entry, row) => ⟨1, row, entry.1, .insert⟩⟩ ::
      restore (offset + partition.rows.length) partitions

/-- The stored rows of all partitions. -/
def restoredRows (partitions : List StoredPartition) : List Row :=
  partitions.flatMap fun partition => partition.rows.map Prod.snd

/-- The row of a place. -/
def sourceRow (inputs : List InputRow) (partitions : List StoredPartition) : Nat → Nat → Row
  | 0, row => (inputs.map InputRow.row).getD row []
  | _, row => (restoredRows partitions).getD row []

/-- The sources of a batch; the sort keys are encoded if their columns allow it. -/
def CandidateSources.new {K : Type} (encode : Row → K) (schema : List DataType) (plan : Plan)
    (inputs : List InputRow) (partitions : List StoredPartition) : CandidateSources K where
  schema := schema
  batches := sourceRow inputs partitions
  orders :=
    if SortKeys.new schema plan.sortColumns = .ok true then
      some fun source row => encode (sourceRow inputs partitions source row)
    else none

/-- The sources without encoded keys: sort columns are compared value by value. -/
def CandidateSources.unencoded {K : Type} (sources : CandidateSources K) : CandidateSources K :=
  { sources with orders := none }

/-- The error of a malformed row kind. -/
def unknownRowKind (kind : Int) : String := s!"unknown Flink RowKind byte {kind}"

/-- The kind of a byte. -/
def rowKind : Int → Option Kind
  | 0 => some .insert
  | 1 => some .updateBefore
  | 2 => some .updateAfter
  | 3 => some .delete
  | _ => none

/-- Only insertions are accepted. -/
def requireInsert (kind : Int) (strategy : String) : Except String Unit :=
  match rowKind kind with
  | some .insert => .ok ()
  | some _ => .error s!"{strategy} Top-N received RowKind {kind}"
  | none => .error (unknownRowKind kind)

/-- The next sequence number. -/
def nextSequence (sequence : Nat) : Except String Nat :=
  if sequence + 1 < 2 ^ 64 then .ok (sequence + 1) else .error "top-n sequence overflow"

section Selection

variable {K : Type} [LinearOrder K] (plan : Plan) (sources : CandidateSources K)

/-! ## The rank range -/

/-- The rank end of a row; a variable one is fixed by the first row of the partition. -/
def rankEnd (row : Row) (group : GroupWork) : Except String (Int × GroupWork) :=
  match plan.rankEnd, plan.variableRankEndIndex with
  | some value, _ =>
    if (value : Int) ≤ I64.max then .ok (value, group) else .error "top-n rank end exceeds i64"
  | none, none => .ok (0, group)
  | none, some index => do
    let value ← match row.column index, sources.schema.getD index .null with
      | .null, _ => .ok 0
      | .integer value, .int16 => .ok value
      | .integer value, .int32 => .ok value
      | .integer value, .int64 => .ok value
      | _, _ => .error "top-n variable rank end has another Arrow type"
    let fixed := group.rankEnd.getD value
    .ok (fixed, { group with rankEnd := some fixed })

/-- The candidates whose ranks are between `rankStart` and `rankEnd`. -/
def selected (candidates : List CandidateRef) (rankStart : Nat) (rankEnd : Int) :
    List CandidateRef :=
  if rankEnd < rankStart then [] else (candidates.take rankEnd.toNat).drop (rankStart - 1)

/-- The number of candidates a rank end leaves. -/
def retainedOf (rankEnd : Int) : Nat := (max rankEnd 0).toNat

/-! ## The order of the candidates -/

/-- Compares the sort keys of two candidates. -/
def sortKeyOrder (left right : CandidateRef) : Except String Ordering :=
  match sources.orders with
  | some orders =>
    .ok (compare (orders left.source left.row) (orders right.source right.row))
  | none => compareRows plan.sortColumns (sources.row left) (sources.row right)

/-- Compares two candidates; ties go to the older one. -/
def candidateOrder (left right : CandidateRef) : Except String Ordering := do
  let ordering ← sortKeyOrder plan sources left right
  .ok (ordering.then (compare left.sequence right.sequence))

/-- How many of the candidates in front have the sort key of the representative. -/
def peerCount (representative : CandidateRef) : List CandidateRef → Except String Nat
  | [] => .ok 0
  | candidate :: candidates => do
    if (← sortKeyOrder plan sources representative candidate) = .eq then
      let count ← peerCount representative candidates
      .ok (count + 1)
    else .ok 0

/-- The place of a candidate in the first bucket that compares equal to it, if there is one: behind
the members that arrived before it. -/
def peerPosition (candidate : CandidateRef) (start : Nat) : List CandidateRef →
    Except String (Option Nat)
  | [] => .ok none
  | existing :: candidates => do
    if (← sortKeyOrder plan sources existing candidate) = .eq then
      let peers ← peerCount plan sources existing candidates
      let bucket := existing :: candidates.take peers
      .ok (some (start + bucket.findIdx fun member => member.sequence > candidate.sequence))
    else peerPosition candidate (start + 1) candidates

/-- Is the order of the sort columns unreliable for these rows? -/
def hasNan (candidates : List CandidateRef) (candidate : CandidateRef) : Bool :=
  canHaveNan sources.schema plan.sortColumns &&
    (rowHasNan (sources.row candidate) plan.sortColumns ||
      candidates.any fun existing => rowHasNan (sources.row existing) plan.sortColumns)

/-- Inserts a candidate in order. -/
def insertSorted (candidates : List CandidateRef) (candidate : CandidateRef) :
    Except String (List CandidateRef) :=
  -- a LIMIT without an order keeps the order of arrival
  if plan.sortColumns = [] then .ok (candidates ++ [candidate])
  else do
    let peer ← if hasNan plan sources candidates candidate then
        peerPosition plan sources candidate 0 candidates
      else .ok none
    match peer with
    | some position => .ok (Ranked.insertAt candidates position candidate)
    | none =>
      let low ← Ranked.lowerBound (fun middle => do
          let ordering ← candidateOrder plan sources (candidates.getD middle candidate) candidate
          .ok (ordering == .lt)) candidates.length 0 candidates.length
      .ok (Ranked.insertAt candidates low candidate)

/-- Truncation that keeps the ties of the last rank. -/
def truncateRank (candidates : List CandidateRef) (rankEnd : Int) :
    Except String (List CandidateRef) :=
  let stop := retainedOf rankEnd
  if candidates.length ≤ stop || stop = 0 then .ok (candidates.take stop)
  else
    match candidates[stop - 1]? with
    | none => .ok (candidates.take stop)
    | some cutoff => do
      let peers ← peerCount plan sources cutoff (candidates.drop stop)
      .ok (candidates.take (stop + peers))

/-- The first candidate with an equal row. -/
def findEqual (candidate : CandidateRef) (indices : List Nat) : List CandidateRef →
    Except String (Option Nat)
  | [] => .ok none
  | existing :: candidates => do
    if ← equalRows indices (sources.row existing) (sources.row candidate) then .ok (some 0)
    else
      let rest ← findEqual candidate indices candidates
      .ok (rest.map (· + 1))

/-! ## The emitted difference -/

/-- All columns. -/
def CandidateSources.columns : List Nat := range sources.schema.length

/-- Do the candidates emit the same row? -/
def sameOutput : Option CandidateRef → Option CandidateRef → Except String Bool
  | none, none => .ok true
  | some left, some right =>
    if left = right then .ok true
    else if left.sequence = right.sequence then
      equalRows sources.columns (sources.row left) (sources.row right)
    else .ok false
  | _, _ => .ok false

/-- The events that replace one output row by another one. -/
def changeAt (rank : Int) (old next : Option CandidateRef) : Except String (List OutputEvent) := do
  if ← sameOutput sources old next then .ok []
  else
    match old, next with
    | some old, some next =>
      .ok ((if plan.generateUpdateBefore then [⟨old, rank, .updateBefore⟩] else []) ++
        [⟨next, rank, .updateAfter⟩])
    | some old, none => .ok [⟨old, rank, .delete⟩]
    | none, some next => .ok [⟨next, rank, .insert⟩]
    | none, none => .ok []

/-- The rank number of the output row at an index. -/
def rankNumber (index : Nat) : Int := I64.saturatingAdd (min plan.rankStart I64.max) index

/-- Position by position, with rank numbers. -/
def rankedDifference (before after : List CandidateRef) : Except String (List OutputEvent) := do
  let changes ← (range (max before.length after.length)).mapM fun index =>
    changeAt plan sources (rankNumber plan index) before[index]? after[index]?
  .ok changes.flatten

/-- What becomes of one row of the old selection. -/
def departure (after : List CandidateRef) (old : CandidateRef) : Except String (List OutputEvent) :=
  match after.find? fun next => next.sequence = old.sequence with
  | none => .ok [⟨old, 0, .delete⟩]
  | some next =>
    -- an unchanged reference is not compared: a NaN in it is not equal to itself
    if old = next then .ok []
    else do
      if ← equalRows sources.columns (sources.row old) (sources.row next) then .ok []
      else
        .ok ((if plan.generateUpdateBefore then [⟨old, 0, .updateBefore⟩] else []) ++
          [⟨next, 0, .updateAfter⟩])

/-- Row by row, without rank numbers. -/
def unrankedDifference (before after : List CandidateRef) : Except String (List OutputEvent) := do
  let departures ← before.mapM (departure plan sources after)
  let arrivals := after.filter fun next => !before.any fun old => old.sequence = next.sequence
  .ok (departures.flatten ++ arrivals.map fun next => ⟨next, 0, .insert⟩)

/-- What is emitted when the candidates change. -/
def emitDifference (before after : List CandidateRef) : Except String (List OutputEvent) :=
  if plan.outputRankNumber || 1 < plan.rankStart then
    rankedDifference plan sources before after
  else if plan.rankStart = 1 && plan.rankEnd = some 1 && plan.strategy ≠ .retract then
    changeAt plan sources 0 before.head? after.head?
  else unrankedDifference plan sources before after

end Selection

/-! ## Kernels -/

/-- The kernels of the library, with what they are documented to do. -/
structure Kernels where
  /-- The rows in the order of their columns, and of these only the first few. -/
  sortBatch : ∀ {α L : Type} [LinearOrder L], (α → L) → List α → Option Nat → List α
  /-- The minimum of every initial part. -/
  cumulativeMin : List Nat → List Nat
  sortBatch_spec : ∀ {α L : Type} [LinearOrder L] (columns : α → L) (rows : List α)
    (fetch : Option Nat), ∃ sorted : List α, sorted.Perm rows ∧
      (sorted.Pairwise fun a b => columns a ≤ columns b) ∧
      sortBatch columns rows fetch = (fetch.elim sorted fun limit => sorted.take limit)
  cumulativeMin_spec : ∀ (scores : List Nat) (i : Nat), i < scores.length →
    ∃ least ∈ scores.take (i + 1), (∀ score ∈ scores.take (i + 1), least ≤ score) ∧
      (cumulativeMin scores)[i]? = some least

/-- The kernels, computed by insertion and by scanning. -/
def Kernels.reference : Kernels where
  sortBatch columns rows fetch :=
    let sorted := rows.insertionSort fun a b => columns a ≤ columns b
    fetch.elim sorted fun limit => sorted.take limit
  cumulativeMin scores := (range scores.length).map fun i =>
    ((scores.take (i + 1)).min?).getD 0
  sortBatch_spec columns rows fetch := by
    have : Std.Total fun a b => columns a ≤ columns b :=
      ⟨fun a b => le_total (columns a) (columns b)⟩
    have : IsTrans _ fun a b => columns a ≤ columns b := ⟨fun _ _ _ hab hbc => hab.trans hbc⟩
    exact ⟨_, perm_insertionSort _ rows, pairwise_insertionSort _ rows, rfl⟩
  cumulativeMin_spec scores i hi := by
    have hne : scores.take (i + 1) ≠ [] := by
      intro hnil
      have := congrArg length hnil
      rw [length_take, length_nil] at this
      omega
    obtain ⟨least, hleast⟩ := Option.isSome_iff_exists.mp (isSome_min?_of_ne_nil hne)
    obtain ⟨hmem, hle⟩ := min?_eq_some_iff.mp hleast
    refine ⟨least, hmem, fun score hscore => hle score hscore, ?_⟩
    rw [getElem?_map, getElem?_range hi, Option.map_some, hleast, Option.getD_some]

section Kernels

variable {K : Type} [LinearOrder K] (kernels : Kernels)

/-! ## Selection by priorities -/

/-- The candidates of a batch in their order, and the position of each. -/
structure Selection where
  priorities : Nat × Nat → Nat
  candidates : List CandidateRef

/-- The candidates that the rows of the batch will be. -/
def arrivals : Nat → List InputRow → List Nat → Except String (List CandidateRef)
  | _, [], _ => .ok []
  | row, input :: inputs, sequences => do
    let sequence := sequences.getD input.group 0
    let next ← nextSequence sequence
    let rest ← arrivals (row + 1) inputs (sequences.set input.group next)
    .ok (⟨0, row, sequence, .insert⟩ :: rest)

/-- The sequence resolves equal sort keys; the token only separates equal sequences of different
partitions. -/
def Selection.sortTokens (orders : Nat → Nat → K) (tokens : List CandidateRef) :
    List CandidateRef :=
  (kernels.sortBatch
    (fun token : CandidateRef × Nat =>
      toLex (orders token.1.source token.1.row, toLex (token.1.sequence, token.2)))
    tokens.zipIdx none).map Prod.fst

/-- Sorts the stored and the arriving candidates of a batch once. -/
def Selection.new (orders : Nat → Nat → K) (groups : List GroupWork) (inputs : List InputRow) :
    Except String Selection := do
  let arriving ← arrivals 0 inputs (groups.map GroupWork.nextSequence)
  let candidates :=
    Selection.sortTokens kernels orders (groups.flatMap GroupWork.candidates ++ arriving)
  .ok ⟨Ranked.table (candidates.map CandidateRef.position), candidates⟩

/-- Only priorities enter the sort of an arrival. -/
def Selection.retain (selection : Selection) (candidates : List CandidateRef) (limit : Nat) :
    List CandidateRef :=
  (kernels.sortBatch id (candidates.map fun c => selection.priorities c.position)
    (some limit)).map fun priority =>
      selection.candidates.getD priority ⟨0, 0, 0, .insert⟩

/-- Inserts a candidate and keeps the best ones. -/
def Selection.insert (selection : Selection) (candidates : List CandidateRef)
    (candidate : CandidateRef) (limit : Nat) : List CandidateRef :=
  selection.retain kernels (candidates ++ [candidate]) limit

/-! ## The running minimum -/

/-- The place of the kept row. -/
def GroupWork.keptPosition (group : GroupWork) : Option (Nat × Nat) :=
  group.candidates.head?.map CandidateRef.position

/-- The kept rows of the partitions, as tokens in front of the tokens of the input rows. -/
def priorTokens : Nat → List GroupWork → List (Option Nat)
  | _, [] => []
  | token, group :: groups =>
    match group.candidates with
    | [] => none :: priorTokens token groups
    | _ :: _ => some token :: priorTokens (token + 1) groups

/-- The rank of every token in the order of sort key and token. -/
def tokenPriority (orders : Nat → Nat → K) (tokens : List (Nat × Nat)) : Nat → Nat :=
  Ranked.table ((kernels.sortBatch
    (fun token : (Nat × Nat) × Nat => toLex (orders token.1.1 token.1.2, token.2))
    tokens.zipIdx none).map Prod.snd)

/-- The rows of a partition. -/
def partitionRows (inputs : List InputRow) (group : Nat) : List Nat :=
  (range inputs.length).filter fun row => (inputs[row]?.map InputRow.group) = some group

/-- Does each row of the batch become the kept row of its partition? -/
def winners (orders : Nat → Nat → K) (groups : List GroupWork) (inputs : List InputRow) :
    Except String (List Bool) :=
  if inputs = [] then .ok []
  else if groups.any fun group => 1 < group.candidates.length then
    .error "Top-1 state retains more than one candidate"
  else
    let old := groups.filterMap GroupWork.keptPosition
    let prior := priorTokens 0 groups
    let tokens := old ++ (range inputs.length).map fun row => (0, row)
    let priority := tokenPriority kernels orders tokens
    .ok (inputs.zipIdx.map fun (input, row) =>
      let rows := partitionRows inputs input.group
      let kept := ((prior.getD input.group none).map priority).toList
      let scores := kept ++ rows.map fun row => priority (old.length + row)
      (kernels.cumulativeMin scores)[kept.length + rows.idxOf row]? =
        some (priority (old.length + row)))

/-! ## Rows -/

variable (plan : Plan) (sources : CandidateSources K)

/-- Plans whose candidates are selected by priorities. -/
def appendCompatible : Bool :=
  plan.strategy = .appendFast && plan.rankEnd.any (1 < ·) && plan.variableRankEndIndex.isNone
    && plan.rankType = .rowNumber && !plan.boundedFinalOutput && !plan.physicalInputSemantics
    && plan.sortColumns ≠ [] && sources.orders.isSome

/-- Plans whose kept row is a running minimum. -/
def topOneCompatible : Bool :=
  plan.strategy = .appendFast && plan.rankStart = 1 && plan.rankEnd = some 1
    && plan.variableRankEndIndex.isNone && plan.rankType = .rowNumber && !plan.boundedFinalOutput
    && !plan.physicalInputSemantics && plan.sortColumns ≠ [] && sources.orders.isSome

/-- An append-only LIMIT without an order. -/
def isAppendLimit : Bool :=
  plan.sortColumns = [] && !plan.hasPartitionKeys && plan.rankEnd.isSome
    && plan.strategy = .appendFast

/-- The fast path of a batch, if there is one. -/
structure FastPath where
  selection : Option Selection
  winners : Option (List Bool)

/-- No fast path: every row is inserted by comparisons. -/
def FastPath.none : FastPath := ⟨Option.none, Option.none⟩

/-- The kind of an arriving row. -/
def candidateKind (kind : Int) : Except String Kind :=
  if plan.physicalInputSemantics then
    match rowKind kind with
    | some kind => .ok kind
    | none => .error (unknownRowKind kind)
  else .ok .insert

/-- An append-only LIMIT only counts: `loadGroup` has cleared its candidates. -/
def limitRow (limitEnd row : Nat) (input : InputRow) (group : GroupWork) :
    Except String (GroupWork × List OutputEvent) := do
  requireInsert input.kind "append-fast"
  let group := { group with rankEnd := some 0 }
  if group.nextSequence < limitEnd then
    let rank ← nextSequence group.nextSequence
    .ok ({ group with nextSequence := rank },
      if plan.rankStart ≤
        rank then [⟨⟨0, row, group.nextSequence, .insert⟩, rank, .insert⟩] else [])
  else .ok (group, [])

/-- The candidates after an append-only row, before the truncation. -/
def appendCandidate (fast : FastPath) (row : Nat) (rankEnd : Int) (candidates : List CandidateRef)
    (candidate : CandidateRef) : Except String (List CandidateRef) :=
  match fast.winners, fast.selection with
  | some winners, _ => .ok (if winners.getD row false then [candidate] else candidates)
  | none, some selection =>
    .ok (selection.insert kernels candidates candidate (retainedOf rankEnd))
  | none, none => insertSorted plan sources candidates candidate

/-- The change of the candidate list that the strategy makes for a row. -/
def applyStrategy (fast : FastPath) (row : Nat) (rankEnd : Int) (kind : Int) (group : GroupWork)
    (candidate : CandidateRef) : Except String GroupWork :=
  match plan.strategy with
  | .appendFast => do
    if !plan.physicalInputSemantics then requireInsert kind "append-fast"
    let next ← nextSequence group.nextSequence
    let candidates ← appendCandidate kernels plan sources fast row rankEnd
      group.candidates candidate
    .ok { group with nextSequence := next, candidates }
  | .updateFast =>
    match rowKind kind with
    | some .insert | some .updateAfter => do
      -- a row with the primary key of a candidate takes over its sequence
      match ← findEqual sources candidate plan.primaryKeyIndices group.candidates with
      | some index =>
        let replaced := (group.candidates.getD index candidate).sequence
        let candidates ← insertSorted plan sources (group.candidates.eraseIdx index)
          { candidate with sequence := replaced }
        .ok { group with candidates }
      | none =>
        let next ← nextSequence group.nextSequence
        let candidates ← insertSorted plan sources group.candidates candidate
        .ok { group with nextSequence := next, candidates }
    | _ => .error s!"update-fast Top-N received RowKind {kind}"
  | .retract =>
    match rowKind kind with
    | some .insert | some .updateAfter => do
      let next ← nextSequence group.nextSequence
      let candidates ← insertSorted plan sources group.candidates candidate
      .ok { group with nextSequence := next, candidates }
    | some .updateBefore | some .delete => do
      match ← findEqual sources candidate sources.columns group.candidates with
      | some index => .ok { group with candidates := group.candidates.eraseIdx index }
      -- an invalid retraction is counted and ignored
      | none => .ok group
    | none => .error (unknownRowKind kind)

/-- Keeps the candidates that can still be ranked. -/
def truncate (rankEnd : Int) (candidates : List CandidateRef) : Except String (List CandidateRef) :=
  if plan.boundedFinalOutput && plan.rankType =
    .rank then truncateRank plan sources candidates rankEnd
  else if plan.strategy ≠ .retract then .ok (candidates.take (retainedOf rankEnd))
  else .ok candidates

/-- A row of the batch. -/
def processRow (fast : FastPath) (row : Nat) (input : InputRow) (group : GroupWork) :
    Except String (GroupWork × List OutputEvent) :=
  if isAppendLimit plan then limitRow plan (plan.rankEnd.getD 0) row input group
  else do
    let (rankEnd, group) ← rankEnd plan sources input.row group
    let kind ← candidateKind plan input.kind
    let candidate : CandidateRef := ⟨0, row, group.nextSequence, kind⟩
    let before := if plan.boundedFinalOutput then [] else
      selected group.candidates plan.rankStart rankEnd
    let changed ← applyStrategy kernels plan sources fast row rankEnd input.kind group candidate
    let candidates ← truncate plan sources rankEnd changed.candidates
    let events ← if plan.boundedFinalOutput then .ok [] else
      emitDifference plan sources before (selected candidates plan.rankStart rankEnd)
    .ok ({ changed with candidates }, events)

/-- The rows of a batch, from row number `row` on. -/
def processRows (fast : FastPath) : Nat → List InputRow → List GroupWork →
    Except String (List GroupWork × List OutputEvent)
  | _, [], groups => .ok (groups, [])
  | row, input :: inputs, groups => do
    let (group, events) ←
      processRow kernels plan sources fast row input (groups.getD input.group GroupWork.empty)
    let (groups, rest) ← processRows fast (row + 1) inputs (groups.set input.group group)
    .ok (groups, events ++ rest)

/-! ## A batch -/

/-- The candidates of an older format in the order of sort key and sequence. -/
def reorder (selection : Option Selection) (candidates : List CandidateRef) : List CandidateRef :=
  match sources.orders, selection with
  | none, _ => candidates
  | some _, some selection => selection.retain kernels candidates candidates.length
  | some orders, none => candidates.insertionSort fun a b =>
      toLex (orders a.source a.row, a.sequence) ≤ toLex (orders b.source b.row, b.sequence)

/-- A partition before the first row of the batch. -/
def loadGroup (selection : Option Selection) (partition : StoredPartition)
    (group : GroupWork) : GroupWork :=
  if isAppendLimit plan then { group with rankEnd := some 0, candidates := [] }
  else if partition.indexed then group
  else { group with candidates := reorder kernels sources selection group.candidates }

/-- The partitions as they are worked on. -/
def loadGroups (selection : Option Selection) (partitions : List StoredPartition) :
    List GroupWork :=
  (partitions.zip (restore 0 partitions)).map fun entry =>
    loadGroup kernels plan sources selection entry.1 entry.2

/-- The selection of the candidates by priorities, where the plan allows it. -/
def appendSelection (groups : List GroupWork) (inputs : List InputRow) :
    Except String (Option Selection) :=
  match sources.orders with
  | some orders =>
    if appendCompatible plan sources then some <$> Selection.new kernels orders groups
      inputs else .ok none
  | none => .ok none

/-- The rows that become the kept row of their partition, where the plan keeps one row. -/
def topOneWinners (groups : List GroupWork) (inputs : List InputRow) :
    Except String (Option (List Bool)) :=
  match sources.orders with
  | some orders =>
    if topOneCompatible plan sources then some <$> winners kernels orders groups
      inputs else .ok none
  | none => .ok none

/-- **A batch**, over the stored partitions of its rows. -/
def processBatch (partitions : List StoredPartition) (inputs : List InputRow) :
    Except String (List GroupWork × List OutputEvent) := do
  let selection ← appendSelection kernels plan sources (restore 0 partitions) inputs
  let groups := loadGroups kernels plan sources selection partitions
  let winners ← topOneWinners kernels plan sources groups inputs
  processRows kernels plan sources ⟨selection, winners⟩ 0 inputs groups

end Kernels

end StreamFusion.TopN
