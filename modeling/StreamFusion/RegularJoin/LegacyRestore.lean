import StreamFusion.RegularJoin.PagedEncoding
import StreamFusion.RegularJoin.Snapshot
import StreamFusion.State.Store

/-!
# Restoring the old layout of the regular join

Earlier versions stored the state of a key as one value (`regular_join/state_codec.rs`).  When a key
group of such values is restored, each of them is read without being copied and written again as a
manifest and a record for every row (`paged_state/legacy_restore.rs`), whose identities are the
positions of the rows. What is written goes out in pages; where a page ends is a matter of sizes and
of the memory there is.

Every value is parsed before the first page is written.
-/

namespace StreamFusion.RegularJoin

open State Wire Wire.Reader StateKey List

/-! ## The old layout -/

/-- What an old state starts with. -/
def stateMagic : Bytes := [83, 70, 82, 74]

/-- The oldest version. -/
def legacyStateVersion : UInt8 := 1

/-- The last version before the pages. -/
def stateVersion : UInt8 := 2

/-- The error of a reader that runs out of bytes. -/
def truncated : StateError := .execution "truncated native regular join state"

/-- The rows of both sides, as association counts and payloads. -/
structure StateView where
  matchable : Side → Option Bool
  rows : Side → List (Int32 × Bytes)

/-- Reads a stored row. -/
def readRow : Reader StateError (Int32 × Bytes) := do
  let associations ← leNat truncated 4
  let length ← leNat truncated 4
  let row ← exactly truncated length
  return ((UInt32.ofNat associations).toInt32, row)

/-- Reads the rows of a side. -/
def RowsView.parse : Reader StateError (List (Int32 × Bytes)) := do
  let count ← leNat truncated 4
  let rest ← remaining
  if rest / 8 < count then fail truncated else times readRow count

/-- Reads whether the rows of a side can be matched. -/
def decodeLegacyMatchable (value : UInt8) : Result (Option Bool) :=
  if value = 0 then .ok none
  else if value = 1 then .ok (some false)
  else if value = 2 then .ok (some true)
  else .error (.execution ("invalid bounded regular join matchability byte " ++ toString value))

/-- The matchability of the sides, and where the rows start. -/
def parseHeader (bytes : Bytes) : Result ((Side → Option Bool) × Nat) :=
  if bytes.getD 4 0 = stateVersion then
    if bytes.length < 15 then
      .error truncated
    else do
      let left ← decodeLegacyMatchable (bytes.getD 5 0)
      let right ← decodeLegacyMatchable (bytes.getD 6 0)
      .ok (Side.pick left right, 7)
  else
    .ok (fun _ => none, 5)

/-- Reads an old state. -/
def StateView.parse (bytes : Bytes) : Result StateView :=
  if bytes.length < 13 ∨ bytes.take 4 ≠ stateMagic ∨
      (bytes.getD 4 0 ≠ legacyStateVersion ∧ bytes.getD 4 0 ≠ stateVersion) then
    .error (.execution "invalid native regular join state")
  else do
    let (matchable, offset) ← parseHeader bytes
    let (left, rest) ← RowsView.parse (bytes.drop offset)
    let (right, rest) ← RowsView.parse rest
    if rest ≠ [] then
      .error (.execution "regular join state has trailing bytes")
    else
      .ok ⟨matchable, Side.pick left right⟩

/-- The identities of the rows are their positions. -/
def numberRows (rows : List (Int32 × Bytes)) : StoredRows :=
  rows.zipIdx.map fun row => ⟨row.2, row.1.2, row.1.1⟩

/-- The state that an old one stands for. -/
def StateView.toOwned (view : StateView) : JoinState Bytes :=
  ⟨fun side => (view.rows side).length, fun side => numberRows (view.rows side)⟩

/-- Reads an old state as a current one. -/
def decodeState (bytes : Bytes) : Result (JoinState Bytes) :=
  (StateView.parse bytes).map StateView.toOwned

/-! ## Writing in pages -/

/-- What has been written, what waits to be written and how large that is. -/
structure Writer where
  state : Store
  pending : List StateMutation := []
  bytes : Nat := 0

/-- Writes what waits. -/
def Writer.flush (writer : Writer) : Writer := ⟨writer.state.writeBatch writer.pending, [], 0⟩

/-- The size of a mutation. -/
def mutationBytes (mutation : StateMutation) : Nat :=
  mutation.key.key.length + (mutation.value.map List.length).getD 0

/-- Adds a mutation to those that wait. -/
def Writer.append (writer : Writer) (mutation : StateMutation) : Writer :=
  { writer with
    pending := writer.pending ++ [mutation]
    bytes := writer.bytes + mutationBytes mutation }

/-- Decides before each mutation, given its expected size, whether what waits is written first. -/
abbrev PageCut := Writer → Nat → Bool

/-- The most mutations of a page. -/
def writeRows : Nat := 4096

/-- The most bytes of a page. -/
def writeBytes : Nat := 256 * 1024

/-- The cut of the source if memory is granted. -/
def sourceCut : PageCut := fun writer bytes =>
  writer.pending.length = writeRows || writeBytes < writer.bytes + bytes

/-- Adds a mutation, behind a write if the page is full. -/
def Writer.push (cut : PageCut) (bytes : Nat) (encode : Result StateMutation) :
    Op StateError Writer Unit := do
  Op.modify fun writer => if writer.pending ≠ [] ∧ cut writer bytes then writer.flush else writer
  let mutation ← Op.lift encode
  Op.modify fun writer => writer.append mutation

/-! ## Migration -/

/-- Writes a row under its own key. -/
def pushRow (cut : PageCut) (group : UInt32) (key : Bytes) (side : Side) (row : StoredRow Bytes) :
    Op StateError Writer Unit :=
  Writer.push cut (key.length + 43 + row.row.length)
    ((encodeRow row).map fun value => ⟨⟨group, rowKey key side row.id⟩, some value⟩)

/-- The expected size of the manifest. -/
def denseBytes (counts : Side → Nat) : Nat :=
  39 + ((counts .left + pageRows - 1) / pageRows + (counts .right + pageRows - 1) / pageRows) * 16

/-- Writes the rows of a key and then its manifest. -/
def migrateRows (cut : PageCut) (group : UInt32) (key : Bytes) (view : StateView) :
    Op StateError Writer Unit := do
  let counts := fun side => (view.rows side).length
  Op.forEach (pushRow cut group key .left) (numberRows (view.rows .left))
  Op.forEach (pushRow cut group key .right) (numberRows (view.rows .right))
  Writer.push cut (key.length + 1 + denseBytes counts)
    (.ok ⟨⟨group, manifestKey key⟩, some (encodeDense view.matchable counts)⟩)

/-- A single row that is small becomes a compact manifest; no rows leave nothing. -/
def migrateEntry (cut : PageCut) (group : UInt32) (key value : Bytes) :
    Op StateError Writer Unit := do
  let view ← Op.lift (StateView.parse value)
  let total := (view.rows .left).length + (view.rows .right).length
  if total = 0 then
    pure ()
  else if total = 1 ∧ value.length ≤ maxCompactBytes ∧ compactEligible view.toOwned then
    Writer.push cut (key.length + maxCompactBytes)
      ((encodeCompact view.matchable view.toOwned).map fun value =>
        ⟨⟨group, manifestKey key⟩, some value⟩)
  else
    migrateRows cut group key view

/-- A group is restored into an empty one. -/
def requireEmpty (store : Store) (group : UInt32) : Result Unit := do
  let keys ← store.visitPrefix group [] 4096
  if keys = [] then .ok ()
  else .error (.execution ("key group " ++ toString group ++ " was restored more than once"))

/-- The changes of a writer end up in the store. -/
def writing (body : Op StateError Writer Unit) : Op StateError Store Unit := fun store =>
  match body ⟨store, [], 0⟩ with
  | (.ok _, writer) => (.ok (), writer.flush.state)
  | (.error e, writer) => (.error e, writer.state)

/-- Restores a group from old states. -/
def legacyRestore (cut : PageCut) (group : UInt32) (entries : Records) :
    Op StateError Store Unit := do
  if ¬ (entries.map Prod.fst).Nodup then
    Op.lift (.error (.execution "duplicate checkpoint key"))
  else do
    let _ ← Op.lift (entries.mapM fun entry => StateView.parse entry.2)
    let store ← Op.get
    Op.lift (requireEmpty store group)
    writing (Op.forEach (fun entry => migrateEntry cut group entry.1 entry.2) entries)

/-- A snapshot all of whose values have the old layout is migrated, and any other is validated and
written as it is. -/
def restore (cut : PageCut) (group : UInt32) (entries : Records) : Op StateError Store Unit :=
  if entries ≠ [] ∧ entries.all fun entry => startsWith stateMagic entry.2 then
    legacyRestore cut group entries
  else do
    Op.lift (validateSnapshot entries)
    let store ← Op.get
    Op.lift (requireEmpty store group)
    Op.modify fun store =>
      store.writeBatch (entries.map fun entry => ⟨⟨group, entry.1⟩, some entry.2⟩)

/-! ## What a value of the old layout is -/

variable {input rest : Bytes}

theorem readRow_length {row : Int32 × Bytes} (h : readRow input = .ok (row, rest)) :
    row.2.length < 2 ^ 32 := by
  simp only [readRow, bind_eq_ok, pure_eq_ok] at h
  obtain ⟨_, _, -, length, _, hlength, payload, _, hpayload, rfl, -⟩ := h
  obtain ⟨hle, rfl, -⟩ := exactly_eq_ok.mp hpayload
  have hlt := lt_of_leNat_eq_ok hlength
  rw [length_take, Nat.min_eq_left hle]
  exact hlt

variable {rows : List (Int32 × Bytes)}

theorem rowsView_spec
    (h : RowsView.parse input = .ok (rows, rest)) :
    rows.length < 2 ^ 32 ∧ ∀ row ∈ rows, row.2.length < 2 ^ 32 := by
  obtain ⟨count, middle, hcount, htail⟩ := bind_eq_ok.mp h
  rw [remaining_bind, guard_eq_ok] at htail
  obtain ⟨hlength, hrows⟩ := times_spec (fun _ _ _ => readRow_length) htail.2
  rw [hlength]
  exact ⟨lt_of_leNat_eq_ok hcount, hrows⟩

variable {bytes : Bytes} {view : StateView}

theorem parse_spec (h : StateView.parse bytes = .ok view) (side : Side) :
    (view.rows side).length < 2 ^ 32 ∧ ∀ row ∈ view.rows side, row.2.length < 2 ^ 32 := by
  rw [StateView.parse] at h
  split at h
  · cases h
  obtain ⟨⟨matchable, offset⟩, -, htail⟩ := Except.bind_eq_ok.mp h
  obtain ⟨⟨left, rest⟩, hleft, htail⟩ := Except.bind_eq_ok.mp htail
  obtain ⟨⟨right, rest'⟩, hright, hend⟩ := Except.bind_eq_ok.mp htail
  dsimp only at hend
  split at hend
  · cases hend
  obtain rfl := Except.ok.inj hend
  cases side
  · exact rowsView_spec hleft
  · exact rowsView_spec hright

theorem startsWith_of_parse (h : StateView.parse bytes = .ok view) :
    startsWith stateMagic bytes = true := by
  rw [StateView.parse] at h
  split at h
  · cases h
  rename_i hvalid
  have htake : bytes.take 4 = stateMagic := by
    by_contra hne
    exact hvalid (.inr (.inl hne))
  simpa [startsWith, stateMagic] using htake

theorem map_id_numberRows (rows : List (Int32 × Bytes)) :
    (numberRows rows).map StoredRow.id = List.range rows.length := by
  rw [numberRows, map_map, range_eq_range', ← zipIdx_map_snd 0 rows]
  rfl

variable {row : StoredRow Bytes}

theorem mem_numberRows (h : row ∈ numberRows rows) :
    row.id < rows.length ∧ ∃ payload ∈ rows, row.row = payload.2 := by
  have hid : row.id ∈ (numberRows rows).map StoredRow.id := mem_map_of_mem h
  rw [map_id_numberRows, mem_range] at hid
  refine ⟨hid, ?_⟩
  obtain ⟨⟨payload, n⟩, hmem, rfl⟩ := mem_map.mp h
  exact ⟨payload, (mem_zipIdx' hmem).2 ▸ getElem_mem _, rfl⟩

/-! ## What a writer leaves -/

/-- What the store is once everything that waits has been written. -/
def Writer.denotes (writer : Writer) : Store := writer.state.writeBatch writer.pending

@[simp] theorem Writer.denotes_flush (writer : Writer) : writer.flush.denotes =
    writer.denotes := rfl

@[simp] theorem Writer.denotes_append (writer : Writer) (mutation : StateMutation) :
    (writer.append mutation).denotes = writer.denotes.writeBatch [mutation] :=
  Store.writeBatch_append ..

/-- The operation writes the mutations, in some pages. -/
def Writes (body : Op StateError Writer Unit) (mutations : List StateMutation) : Prop :=
  ∀ writer, ∃ writer', body writer = (.ok (), writer') ∧ writer'.denotes =
    writer.denotes.writeBatch mutations

theorem writes_pure : Writes (pure ()) [] := fun writer => ⟨writer, rfl, rfl⟩

variable {body : Op StateError Writer Unit} {mutations : List StateMutation}

/-- Writes in sequence. -/
theorem Writes.bind {body' : Op StateError Writer Unit} {mutations' : List StateMutation}
    (h : Writes body mutations) (h' : Writes body' mutations') :
    Writes (do body; body') (mutations ++ mutations') := by
  intro writer
  obtain ⟨writer₁, hrun, hdenotes⟩ := h writer
  obtain ⟨writer₂, hrun', hdenotes'⟩ := h' writer₁
  refine ⟨writer₂, ?_, ?_⟩
  · rw [Op.bind_of_ok hrun]
    exact hrun'
  · rw [hdenotes', hdenotes, Store.writeBatch_append]

variable {mutation : StateMutation}

theorem writes_push (cut : PageCut) (bytes : Nat) {encode : Result StateMutation}
    (h : encode = .ok mutation) : Writes (Writer.push cut bytes encode) [mutation] := by
  intro writer
  subst h
  refine ⟨_, rfl, ?_⟩
  rw [Writer.denotes_append]
  dsimp only
  split
  · rw [Writer.denotes_flush]
  · rfl

theorem writes_forEach {α : Type} {body : α → Op StateError Writer Unit}
    {mutations : α → List StateMutation}
    {as : List α} (h : ∀ a ∈ as, Writes (body a) (mutations a)) :
    Writes (Op.forEach body as) (as.flatMap mutations) := by
  induction as with
  | nil => exact writes_pure
  | cons a as ih =>
    obtain ⟨ha, has⟩ := forall_mem_cons.mp h
    exact ha.bind (ih has)

/-- **Where pages end does not matter.** -/
theorem writing_of_writes (h : Writes body mutations) (store : Store) :
    writing body store = (.ok (), store.writeBatch mutations) := by
  obtain ⟨writer, hrun, hdenotes⟩ := h ⟨store, [], 0⟩
  rw [writing, hrun]
  exact congrArg (Prod.mk _) hdenotes

/-! ## The records of a migrated value -/

/-- A row under its own key. -/
def rowMutation (group : UInt32) (key : Bytes) (side : Side) (row : StoredRow Bytes) :
    StateMutation :=
  ⟨⟨group, rowKey key side row.id⟩, some (appendPage [row])⟩

/-- The rows of a key and its manifest. -/
def rowsMutations (group : UInt32) (key : Bytes) (view : StateView) : List StateMutation :=
  (numberRows (view.rows .left)).map (rowMutation group key .left) ++
    ((numberRows (view.rows .right)).map (rowMutation group key .right) ++
      [⟨⟨group, manifestKey key⟩,
        some (encodeDense view.matchable fun side => (view.rows side).length)⟩])

section

variable (cut : PageCut) (group : UInt32) (key : Bytes)

theorem writes_pushRow (side : Side) (h : row.row.length < 2 ^ 32) :
    Writes (pushRow cut group key side row) [rowMutation group key side row] := by
  refine writes_push cut _ ?_
  rw [encodeRow, if_neg (by omega)]
  rfl

theorem writes_migrateRows (h : ∀ side, ∀ row ∈ view.rows side, row.2.length < 2 ^ 32) :
    Writes (migrateRows cut group key view) (rowsMutations group key view) := by
  have hside (side : Side) :
    Writes (Op.forEach (pushRow cut group key side) (numberRows (view.rows side)))
      ((numberRows (view.rows side)).map (rowMutation group key side)) := by
    rw [map_eq_flatMap]
    refine writes_forEach fun row hmem => writes_pushRow cut group key side ?_
    obtain ⟨-, payload, hpayload, hrow⟩ := mem_numberRows hmem
    rw [hrow]
    exact h side payload hpayload
  exact (hside .left).bind ((hside .right).bind (writes_push cut _ rfl))

end

/-- What a value of the old layout is migrated to. -/
def entryMutations (group : UInt32) (entry : Bytes × Bytes) : List StateMutation :=
  match StateView.parse entry.2 with
  | .error _ => []
  | .ok view =>
    if (view.rows .left).length + (view.rows .right).length = 0 then
      []
    else if (view.rows .left).length + (view.rows .right).length = 1 ∧ entry.2.length ≤
      maxCompactBytes ∧
        compactEligible view.toOwned then
      [⟨⟨group, manifestKey entry.1⟩, some (compactBytes view.matchable view.toOwned)⟩]
    else
      rowsMutations group entry.1 view

variable {entry : Bytes × Bytes}

theorem writes_migrateEntry (cut : PageCut) (group : UInt32)
    (h : StateView.parse entry.2 = .ok view) :
    Writes (migrateEntry cut group entry.1 entry.2) (entryMutations group entry) := by
  have hlengths := fun side => (parse_spec h side).2
  rw [entryMutations, migrateEntry, h, Op.lift_ok, pure_bind]
  dsimp only
  split
  · exact writes_pure
  · split
    · rename_i hcompact
      refine writes_push cut _ ?_
      rw [encodeCompact, if_neg (not_not_intro hcompact.2.2)]
      rfl
    · exact writes_migrateRows cut group entry.1 hlengths

variable {group : UInt32}

/-- The records of a migrated value carry its key. -/
theorem mem_entryMutations (h : mutation ∈ entryMutations group entry) :
    mutation.key = ⟨group, manifestKey entry.1⟩ ∨
      ∃ side id, id < 2 ^ 64 ∧ mutation.key = ⟨group, entryKey entry.1 side id .rows⟩ := by
  rw [entryMutations] at h
  split at h
  · cases h
  rename_i view hview
  split at h
  · cases h
  split at h
  · obtain rfl := mem_singleton.mp h
    exact .inl rfl
  · have hside (side : Side) (hmem :
      mutation ∈ (numberRows (view.rows side)).map (rowMutation group entry.1 side)) :
        ∃ side id, id < 2 ^ 64 ∧ mutation.key = ⟨group, entryKey entry.1 side id .rows⟩ := by
      obtain ⟨row, hrow, rfl⟩ := mem_map.mp hmem
      have hid := (mem_numberRows hrow).1
      have hlength := (parse_spec hview side).1
      exact ⟨side, row.id, by omega, rfl⟩
    rcases mem_append.mp h with hleft | h
    · exact .inr (hside .left hleft)
    · rcases mem_append.mp h with hright | hmanifest
      · exact .inr (hside .right hright)
      · obtain rfl := mem_singleton.mp hmanifest
        exact .inl rfl

variable {mutation' : StateMutation}

theorem entryMutations_key {entry' : Bytes × Bytes}
    (h : mutation ∈ entryMutations group entry) (h' : mutation' ∈ entryMutations group entry')
    (hkey : mutation.key = mutation'.key) : entry.1 = entry'.1 := by
  rcases mem_entryMutations h with hm | ⟨side, id, hid, hm⟩
  · rcases mem_entryMutations h' with hm' | ⟨side', id', hid', hm'⟩
    · rw [hm, hm', mk.injEq] at hkey
      exact (List.cons.inj hkey.2).2
    · rw [hm, hm', mk.injEq] at hkey
      exact (entryKey_ne_manifestKey _ _ _ _ _ hkey.2.symm).elim
  · rcases mem_entryMutations h' with hm' | ⟨side', id', hid', hm'⟩
    · rw [hm, hm', mk.injEq] at hkey
      exact (entryKey_ne_manifestKey _ _ _ _ _ hkey.2).elim
    · rw [hm, hm', mk.injEq] at hkey
      exact (entryKey_injective hid hid' hkey.2).1

variable {key : Bytes}

/-- A migrated value writes a key once. -/
theorem rowsMutations_agree (hlengths : ∀ side, (view.rows side).length < 2 ^ 32)
    (h : mutation ∈ rowsMutations group key view) (h' : mutation' ∈ rowsMutations group key view)
    (hkey : mutation.key = mutation'.key) : mutation = mutation' := by
  have hcases {mutation : StateMutation} (h : mutation ∈ rowsMutations group key view) :
      (∃ side, ∃ row ∈ numberRows (view.rows side), mutation = rowMutation group key side row) ∨
        mutation = ⟨⟨group, manifestKey key⟩,
          some (encodeDense view.matchable fun side => (view.rows side).length)⟩ := by
    simp only [rowsMutations, mem_append, mem_map, mem_singleton] at h
    rcases h with ⟨row, hrow, rfl⟩ | ⟨row, hrow, rfl⟩ | rfl
    · exact .inl ⟨.left, row, hrow, rfl⟩
    · exact .inl ⟨.right, row, hrow, rfl⟩
    · exact .inr rfl
  rcases hcases h with ⟨side, row, hrow, rfl⟩ | rfl
  · rcases hcases h' with ⟨side', row', hrow', rfl⟩ | rfl
    · have hid := (mem_numberRows hrow).1
      have hid' := (mem_numberRows hrow').1
      have hlength := hlengths side
      have hlength' := hlengths side'
      obtain ⟨-, rfl, hids⟩ :=
        @entryKey_injective key key side side' row.id row'.id .rows .rows (by omega) (by omega)
        (mk.inj hkey).2
      have hnodup : ((numberRows (view.rows side)).map StoredRow.id).Nodup := by
        rw [map_id_numberRows]
        exact nodup_range
      rw [inj_on_of_nodup_map hnodup hrow hrow' hids]
    · exact (entryKey_ne_manifestKey key key side row.id .rows (mk.inj hkey).2).elim
  · rcases hcases h' with ⟨side', row', hrow', rfl⟩ | rfl
    · exact (entryKey_ne_manifestKey key key side' row'.id .rows (mk.inj hkey).2.symm).elim
    · rfl

/-- No two mutations of an entry disagree. -/
theorem entryMutations_agree
    (h : mutation ∈ entryMutations group entry) (h' : mutation' ∈ entryMutations group entry)
    (hkey : mutation.key = mutation'.key) : mutation = mutation' := by
  rw [entryMutations] at h h'
  split at h
  · cases h
  rename_i view hview
  rw [hview] at h'
  dsimp only at h'
  split at h
  · cases h
  rename_i hne
  rw [if_neg hne] at h'
  split at h
  · rename_i hcompact
    rw [if_pos hcompact] at h'
    rw [mem_singleton.mp h, mem_singleton.mp h']
  · rename_i hcompact
    rw [if_neg hcompact] at h'
    exact rowsMutations_agree (fun side => (parse_spec hview side).1) h h' hkey

/-! ## Loading a migrated value -/

variable {get : Bytes → Option Bytes}

/-- The rows of a side come from their records in order. -/
theorem mapM_loadEntry {key : Bytes} {manifest : Manifest} {side : Side}
    {rows : StoredRows} (hlayout : manifest.layout = .rows)
    (hrows : ∀ row ∈ rows, get (rowKey key side row.id) = some (appendPage [row]) ∧
      row.id < manifest.nextRowId side ∧ row.row.length < 2 ^ 32)
    (hnext : manifest.nextRowId side < 2 ^ 64) :
    (rows.map StoredRow.id).mapM (loadEntry get key manifest side) =
        .ok (rows.map fun row => [row]) := by
  rw [mapM_map]
  refine Except.mapM_of_ok fun row hmem => ?_
  obtain ⟨hget, hid, hlength⟩ := hrows row hmem
  have hentry := decodeEntry_appendPage (hid.trans hnext) hlength hid
  obtain ⟨⟨count, hcount⟩, -⟩ := decodeEntry_spec hentry
  show loadEntry get key manifest side row.id = _
  rw [loadEntry, hlayout, entryKey, hget]
  exact Except.bind_eq_ok.mpr ⟨count, hcount, hentry⟩

/-- The rows under their own keys are loaded again. -/
theorem loadState_dense (hlengths : ∀ side, (view.rows side).length < 2 ^ 32)
    (hpayloads : ∀ side, ∀ row ∈ view.rows side, row.2.length < 2 ^ 32)
    (hmanifest : get (manifestKey key) =
      some (encodeDense view.matchable fun side => (view.rows side).length))
    (hrows : ∀ side, ∀ row ∈ numberRows (view.rows side),
      get (rowKey key side row.id) = some (appendPage [row])) :
    loadState get key = .ok view.toOwned := by
  have hcounts (side : Side) : (view.rows side).length < 2 ^ 64 := by
    have := hlengths side
    omega
  have hdecode := decodeManifest_encodeDense view.matchable hcounts
  rw [loadState, hmanifest]
  dsimp only
  rw [manifestWorkspace_of_decodeManifest hdecode, Except.ok_bind, hdecode, Except.ok_bind,
    manifestState, gather]
  have hside (side : Side) := @mapM_loadEntry get key
    ⟨.rows, fun side => (view.rows side).length, view.matchable,
      fun side => ⟨[], denseBitmaps (view.rows side).length⟩, none⟩
    side (numberRows (view.rows side)) rfl (fun row hmem =>
        ⟨hrows side row hmem, (mem_numberRows hmem).1, by
      obtain ⟨-, payload, hpayload, hrow⟩ := mem_numberRows hmem
      rw [hrow]
      exact hpayloads side payload hpayload⟩) (hcounts side)
  simp only [map_id_numberRows] at hside
  simp only [iter_dense (hcounts _), hside, Except.ok_bind]
  rw [StateView.toOwned, ← Side.pick_eta fun side => numberRows (view.rows side)]
  simp only [← flatMap_def, flatMap_singleton']

theorem singleOrNone_of_compact (htotal : (view.rows .left).length + (view.rows .right).length = 1)
    (heligible : compactEligible view.toOwned = true) (side : Side) :
    SingleOrNone (view.toOwned.nextRowId side) (view.toOwned.rows side) := by
  have hsize : compactSize view.toOwned ≤ maxCompactBytes := by
    simp only [compactEligible, Bool.and_eq_true, decide_eq_true_eq] at heligible
    exact heligible.2
  have hone : (view.rows side).length ≤ 1 := by
    cases side <;> omega
  have hpages : ∀ page ∈ pages (view.toOwned.rows side), pageSize page ≤ maxCompactBytes := by
    intro page hmem
    have hmem' : page ∈ pages (view.toOwned.rows .left) ++ pages (view.toOwned.rows .right) := by
      cases side
      · exact mem_append_left _ hmem
      · exact mem_append_right _ hmem
    have hle := single_le_sum (fun _ _ => Nat.zero_le _) _
      (mem_map_of_mem (f := fun page => 12 + pageSize page) hmem')
    rw [compactSize] at hsize
    omega
  rcases hrows : view.rows side with _ | ⟨payload, others⟩
  · left
    show numberRows (view.rows side) = []
    rw [hrows]
    rfl
  · rw [hrows, length_cons] at hone
    obtain rfl : others = [] := length_eq_zero_iff.mp (by omega)
    have hnumber : view.toOwned.rows side = [⟨0, payload.2, payload.1⟩] := by
      show numberRows (view.rows side) = _
      rw [hrows]
      rfl
    rw [hnumber] at hpages ⊢
    refine .inr ⟨_, rfl, ?_, ?_⟩
    · show 0 < (view.rows side).length
      rw [hrows]
      exact Nat.zero_lt_one
    · rw [pages_singleton] at hpages
      have hpage := hpages _ (mem_singleton.mpr rfl)
      simp only [pageSize, maxCompactBytes, map_cons, map_nil, sum_cons, sum_nil] at hpage
      show payload.2.length < 2 ^ 31
      omega

theorem loadState_compact (hlengths : ∀ side, (view.rows side).length < 2 ^ 32)
    (htotal : (view.rows .left).length + (view.rows .right).length = 1)
    (heligible : compactEligible view.toOwned = true)
    (hmanifest : get (manifestKey key) = some (compactBytes view.matchable view.toOwned)) :
    loadState get key = .ok view.toOwned := by
  have hnext (side : Side) : view.toOwned.nextRowId side < 2 ^ 64 :=
    (hlengths side).trans (by decide)
  obtain ⟨manifest, hdecode, hids, hinline⟩ :=
    @decodeManifest_encodeCompact view.matchable view.toOwned hnext
    (singleOrNone_of_compact htotal heligible) heligible
  rw [loadState, hmanifest]
  dsimp only
  rw [manifestWorkspace_of_decodeManifest hdecode, Except.ok_bind, hdecode, Except.ok_bind,
    manifestState, hinline,
    hids]

/-- A value that has been migrated is loaded as its decoder has it. -/
theorem loadState_entryMutations (group : UInt32) (h : StateView.parse entry.2 = .ok view)
    (hget : ∀ mutation ∈ entryMutations group entry, get mutation.key.key = mutation.value)
    (hnone : entryMutations group entry = [] → get (manifestKey entry.1) = none) :
    loadState get entry.1 = .ok view.toOwned := by
  have hlengths := fun side => (parse_spec h side).1
  have hpayloads := fun side => (parse_spec h side).2
  rw [entryMutations, h] at hget hnone
  dsimp only at hget hnone
  split at hget
  · rename_i hzero
    rw [if_pos hzero] at hnone
    rw [loadState, hnone rfl]
    have hnil (side : Side) : view.rows side = [] := length_eq_zero_iff.mp (by cases side <;> omega)
    simp only [StateView.toOwned, hnil]
    rfl
  · split at hget
    · rename_i hcompact
      exact loadState_compact hlengths hcompact.1 hcompact.2.2 (hget _ (mem_singleton.mpr rfl))
    · have hmem (side : Side) (row : StoredRow Bytes) (hrow : row ∈ numberRows (view.rows side)) :
          rowMutation group entry.1 side row ∈ rowsMutations group entry.1 view := by
        cases side
        · exact mem_append_left _ (mem_map_of_mem hrow)
        · exact mem_append_right _ (mem_append_left _ (mem_map_of_mem hrow))
      exact loadState_dense hlengths hpayloads
        (hget _ (mem_append_right _ (mem_append_right _ (mem_singleton.mpr rfl))))
        fun side row hrow => hget _ (hmem side row hrow)

/-! ## Restoring a key group -/

variable {store : Store}

theorem requireEmpty_of_empty
    (h : ∀ stored, store.get ⟨group, stored⟩ = none) : requireEmpty store group = .ok () := by
  have hnil : store.entriesWithPrefix group [] = [] := by
    rw [eq_nil_iff_forall_not_mem]
    rintro ⟨⟨group', stored⟩, value⟩ hmem
    obtain ⟨hget, rfl, -⟩ := Store.mem_entriesWithPrefix.mp hmem
    rw [h stored] at hget
    cases hget
  rw [requireEmpty, Store.visitPrefix, hnil]
  rfl

/-- The magic bytes of the paged layouts are not those of the old one. -/
theorem not_startsWith_stateMagic {other : Bytes} (hlength : 4 ≤ other.length)
    (hother : other.take 4 ≠ stateMagic) (h : startsWith other bytes = true) :
    ¬ startsWith stateMagic bytes = true := by
  simp only [startsWith, decide_eq_true_eq] at h ⊢
  intro hstate
  apply hother
  rw [← h, take_take, Nat.min_eq_left hlength]
  exact hstate

theorem startsWith_pageMagic {id next : Nat} {layout : Layout} {rows : StoredRows}
    (h : decodeEntry bytes id next layout = .ok rows) : startsWith pageMagic bytes = true := by
  obtain ⟨⟨count, hcount⟩, -⟩ := decodeEntry_spec h
  obtain ⟨_, hread⟩ := read_eq_ok.mp hcount
  obtain ⟨_, _, hmagic, -⟩ := bind_eq_ok.mp hread
  exact (magic_eq_ok.mp hmagic).1

variable {entries : Records}

/-- A complete snapshot has no value of the old layout. -/
theorem Complete.not_stateMagic (h : Complete entries)
    (hmem : entry ∈ entries) : ¬ startsWith stateMagic entry.2 = true := by
  have hlookup := lookup_of_mem h.nodup hmem
  obtain ⟨record, hrecord, hkey⟩ := h.referenced entry hmem
  obtain ⟨manifest, hmanifest, -, hresolves⟩ := h.decodes record hrecord
  rcases mem_recordKeys.mp hkey with heq | ⟨manifest', hmanifest', reference, hreference, heq⟩
  · rw [heq, lookup_of_mem h.nodup (mem_manifestRecords.mp hrecord)] at hlookup
    have hmagic := isManifest_of_decodeManifest hmanifest
    rw [Option.some.inj hlookup, isManifest, Bool.or_eq_true, Bool.or_eq_true] at hmagic
    rcases hmagic with (hmagic | hmagic) | hmagic
    all_goals exact not_startsWith_stateMagic (by decide) (by decide) hmagic
  · obtain rfl := Except.ok.inj (hmanifest.symm.trans hmanifest')
    obtain ⟨bytes, rows, hbytes, hrows⟩ := hresolves reference hreference
    rw [heq, hlookup] at hbytes
    obtain rfl := Option.some.inj hbytes
    exact not_startsWith_stateMagic (by decide) (by decide) (startsWith_pageMagic hrows)

theorem decodeState_eq_ok {state : JoinState Bytes} :
    decodeState bytes = .ok state ↔ ∃ view, StateView.parse bytes = .ok view ∧
        view.toOwned = state := by
  rw [decodeState]
  cases StateView.parse bytes <;> simp [Except.map]

/-- What a restore of values of the old layout leaves. -/
theorem legacyRestore_ok (cut : PageCut)
    (hunique : (entries.map Prod.fst).Nodup) (hempty : ∀ stored, store.get ⟨group, stored⟩ = none)
    (hparse : ∀ entry ∈ entries, ∃ view, StateView.parse entry.2 = .ok view) :
    legacyRestore cut group entries store =
      (.ok (), store.writeBatch (entries.flatMap (entryMutations group))) := by
  obtain ⟨views, hviews⟩ := Except.exists_mapM_eq_ok.mpr hparse
  have hwrites : Writes (Op.forEach (fun entry => migrateEntry cut group entry.1 entry.2) entries)
      (entries.flatMap (entryMutations group)) := writes_forEach fun entry hmem => by
    obtain ⟨view, hview⟩ := hparse entry hmem
    exact writes_migrateEntry cut group hview
  rw [legacyRestore, if_neg (not_not_intro hunique), hviews, Op.lift_ok, pure_bind]
  rw [Op.bind_of_ok (Op.get_apply store), requireEmpty_of_empty hempty, Op.lift_ok, pure_bind]
  exact writing_of_writes hwrites store

/-- A restored key has the state that its entry stands for. -/
theorem legacyRestore_get
    (hunique : (entries.map Prod.fst).Nodup) (hempty : ∀ stored, store.get ⟨group, stored⟩ = none)
    (hmem : entry ∈ entries)
    (hview : StateView.parse entry.2 = .ok view) :
    loadState (fun stored =>
      (store.writeBatch (entries.flatMap (entryMutations group))).get ⟨group, stored⟩)
      entry.1 = .ok view.toOwned := by
  have hown {mutation mutation' : StateMutation} (h : mutation ∈ entryMutations group entry)
      (h' : mutation' ∈ entries.flatMap (entryMutations group)) (hkey :
        mutation'.key = mutation.key) :
      mutation' = mutation := by
    obtain ⟨entry', hmem', hmutation'⟩ := mem_flatMap.mp h'
    have hsame := entryMutations_key hmutation' h hkey
    obtain rfl := inj_on_of_nodup_map hunique hmem' hmem hsame
    exact entryMutations_agree hmutation' h hkey
  refine loadState_entryMutations group hview (fun mutation hmutation => ?_) (fun hnil => ?_)
  · have hgroup : mutation.key = ⟨group, mutation.key.key⟩ := by
      rcases mem_entryMutations hmutation with h | ⟨_, _, -, h⟩ <;> rw [h]
    rw [← hgroup]
    exact Store.get_writeBatch_of_agree ⟨mutation, mem_flatMap.mpr ⟨entry, hmem, hmutation⟩, rfl⟩
      fun mutation' h' hkey => by rw [hown hmutation h' hkey]
  · rw [Store.get_writeBatch_of_not_mem, hempty]
    intro mutation hmutation hkey
    obtain ⟨entry', hmem', hmutation'⟩ := mem_flatMap.mp hmutation
    have hsame : entry'.1 = entry.1 := by
      rcases mem_entryMutations hmutation' with h | ⟨side, id, -, h⟩
      · rw [hkey, mk.injEq] at h
        exact (List.cons.inj h.2).2.symm
      · rw [hkey, mk.injEq] at h
        exact (entryKey_ne_manifestKey _ _ _ _ _ h.2.symm).elim
    obtain rfl := inj_on_of_nodup_map hunique hmem' hmem hsame
    rw [hnil] at hmutation'
    cases hmutation'

/-- A value that does not parse stops a restore before anything is written. -/
theorem legacyRestore_error (cut : PageCut) (group : UInt32) (store : Store)
    (hmem : entry ∈ entries)
    {e : StateError} (h : decodeState entry.2 = .error e) :
    ∃ e, legacyRestore cut group entries store = (.error e, store) := by
  rw [legacyRestore]
  split
  · exact ⟨_, rfl⟩
  · rcases hviews : entries.mapM fun entry => StateView.parse entry.2 with e | views
    · exact ⟨e, Op.bind_of_error (by rw [Op.lift_apply, hviews])⟩
    · obtain ⟨view, hview⟩ := Except.exists_mapM_eq_ok.mp ⟨views, hviews⟩ entry hmem
      rw [decodeState, hview] at h
      cases h

/-- **The old layout is restored as its decoder reads it.**  If all values decode, the restore
succeeds and every key is loaded with the state that the decoder returns, however the writes are cut
into pages; if one does not, the restore fails and has written nothing. -/
theorem restore_legacy_faithful (cut : PageCut) (group : UInt32) (entries : Records) (store : Store)
    (hlegacy : ∃ entry ∈ entries, startsWith stateMagic entry.2 = true) :
    ((entries.map Prod.fst).Nodup → (∀ stored, store.get ⟨group, stored⟩ = none) →
        (∀ entry ∈ entries, ∃ state, decodeState entry.2 = .ok state) →
        ∃ restored, restore cut group entries store = (.ok (), restored) ∧ ∀ entry ∈ entries,
            loadState (fun stored => restored.get ⟨group, stored⟩) entry.1 = decodeState entry.2) ∧
      ((∃ entry ∈ entries, ∃ e, decodeState entry.2 = .error e) →
        ∃ e, restore cut group entries store = (.error e, store)) := by
  obtain ⟨legacy, hmem, hmagic⟩ := hlegacy
  have hne : entries ≠ [] := ne_nil_of_mem hmem
  refine ⟨fun hunique hempty hdecode => ?_, ?_⟩
  · have hparse : ∀ entry ∈ entries, ∃ view, StateView.parse entry.2 = .ok view := by
      intro entry hentry
      obtain ⟨state, hstate⟩ := hdecode entry hentry
      obtain ⟨view, hview, -⟩ := decodeState_eq_ok.mp hstate
      exact ⟨view, hview⟩
    have hall : (entries.all fun entry => startsWith stateMagic entry.2) = true := by
      refine all_eq_true.mpr fun entry hentry => ?_
      obtain ⟨view, hview⟩ := hparse entry hentry
      exact startsWith_of_parse hview
    have hrun := legacyRestore_ok cut hunique hempty hparse
    refine ⟨store.writeBatch (entries.flatMap (entryMutations group)), ?_, fun entry hentry => ?_⟩
    · rw [restore, if_pos ⟨hne, hall⟩]
      exact hrun
    · obtain ⟨view, hview⟩ := hparse entry hentry
      rw [legacyRestore_get hunique hempty hentry hview]
      exact (decodeState_eq_ok.mpr ⟨view, hview, rfl⟩).symm
  · rintro ⟨entry, hentry, e, herror⟩
    rw [restore]
    split
    · exact legacyRestore_error cut group store hentry herror
    · rcases hvalid : validateSnapshot entries with e | ⟨⟩
      · exact ⟨e, Op.bind_of_error rfl⟩
      · exact ((validateSnapshot_eq_ok.mp hvalid).not_stateMagic hmem hmagic).elim

/-- A row of version 1, and two rows of version 2. -/
def legacySnapshot : Records :=
  [([7], stateMagic ++
    ([legacyStateVersion] ++ (leBytes 4 1 ++ (leBytes 4 3 ++ (leBytes 4 1 ++ ([42] ++
      leBytes 4 0)))))),
    ([8], stateMagic ++
      ([stateVersion, 0, 2] ++ (leBytes 4 1 ++ (leBytes 4 0 ++ (leBytes 4 1 ++ ([43] ++
      (leBytes 4 1 ++ (leBytes 4 5 ++ leBytes 4 0))))))))]

theorem restore_legacy_faithful_two_versions :
    ∃ restored, restore sourceCut 3 legacySnapshot ∅ = (.ok (), restored) ∧
      ∀ entry ∈ legacySnapshot,
        loadState (fun stored => restored.get ⟨3, stored⟩) entry.1 = decodeState entry.2 := by
  refine (restore_legacy_faithful sourceCut 3 legacySnapshot ∅ ⟨_, mem_cons_self,
    rfl⟩).1 (by decide)
    (fun stored => Store.get_empty _) ?_
  intro entry hmem
  simp only [legacySnapshot, mem_cons, not_mem_nil, or_false] at hmem
  rcases hmem with rfl | rfl
  · exact ⟨_, rfl⟩
  · exact ⟨_, rfl⟩

end StreamFusion.RegularJoin
