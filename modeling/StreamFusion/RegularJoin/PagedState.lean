import StreamFusion.Lib.Reader
import StreamFusion.RegularJoin.Model

/-!
# The paged state of the regular join

The state of a key is stored as a manifest and, unless it is small, records for its rows
(`regular_join/paged_codec.rs`).  There are three layouts: a compact manifest has the rows in
itself, an older one has a record for up to 64 rows with neighbouring identities, and the present
one has a record for every row and bitmaps that say which identities there are.

A snapshot of a key group is validated before it is restored (`paged_state/restore.rs`), in one pass
over its manifests that looks every reference up and counts; a key is loaded by reading its manifest
and then the records it names (`paged_state/loading.rs`).

Memory is granted.  The admission sizes are left out, but not the checks that computing them makes.
-/

namespace StreamFusion.RegularJoin

open State Wire Wire.Reader

/-- What may fail with a state error. -/
abbrev Result := Except StateError

/-- Keys with their values. -/
abbrev Records := List (Bytes × Bytes)

/-- The rows of a page or side. -/
abbrev StoredRows := List (StoredRow Bytes)

/-- The value of a side. -/
def Side.pick {α : Type} (left right : α) : Side → α
  | .left => left
  | .right => right

/-- The number of rows of a page. -/
def pageRows : Nat := 64

/-- The largest page number of an identity. -/
def maxPage : Nat := (2 ^ 64 - 1) / pageRows

/-- What a manifest of pages starts with. -/
def manifestMagic : Bytes := [83, 70, 74, 77, 1]

/-- What a page starts with. -/
def pageMagic : Bytes := [83, 70, 74, 80, 1]

/-- What a state in one value starts with. -/
def compactMagic : Bytes := [83, 70, 74, 67, 1]

/-- What a manifest of single rows starts with. -/
def rowsMagic : Bytes := [83, 70, 74, 73, 1]

/-- The largest state in one value. -/
def maxCompactBytes : Nat := 8 * 1024

/-- The error of a malformed state. -/
def invalid : StateError := .execution "invalid paged regular join state"

/-- Where the rows of a state are. -/
inductive Layout where
  | compact
  | pages
  | rows
  deriving DecidableEq, Repr

/-- The identities of a page of which the bits say that they are there, the smallest first. -/
def expand (page bits : Nat) : List Nat :=
  ((List.range pageRows).filter bits.testBit).map fun bit => page * pageRows + bit

/-- The records of a side: page numbers, or pages of row identities with their bits. -/
structure EntryIds where
  explicit : List Nat := []
  bitmaps : List (Nat × Nat) := []

/-- The numbers of the entries. -/
def EntryIds.iter (ids : EntryIds) : List Nat :=
  ids.explicit ++ ids.bitmaps.flatMap fun bitmap => expand bitmap.1 bitmap.2

/-- What is stored of a state apart from its rows. -/
structure Manifest where
  layout : Layout
  nextRowId : Side → Nat
  matchable : Side → Option Bool
  pages : Side → EntryIds
  inline : Option (Side → StoredRows)

/-! ## Reading -/

/-- Do the bytes start like this? -/
def startsWith (bytes input : Bytes) : Bool := input.take bytes.length = bytes

/-- The input starts with the magic bytes, and the reader goes on behind them. -/
def magic (bytes : Bytes) : Reader StateError Unit := fun input =>
  if startsWith bytes input then .ok ((), input.drop bytes.length) else .error invalid

/-- No bytes may be left. -/
def finish : Reader StateError Unit := fun input =>
  if input = [] then .ok ((), []) else .error invalid

/-- A step that does not read. -/
def lift {α : Type} (result : Result α) : Reader StateError α := fun input =>
  result.map fun a => (a, input)

/-- The matchability of a byte. -/
def decodeMatchable : Nat → Result (Option Bool)
  | 0 => .ok none
  | 1 => .ok (some false)
  | 2 => .ok (some true)
  | _ => .error invalid

/-- Reads a matchability. -/
def readMatchable : Reader StateError (Option Bool) := do
  let value ← leNat invalid 1
  lift (decodeMatchable value)

/-- The matchability and the next row identities of the two sides. -/
def readHeader : Reader StateError ((Side → Option Bool) × (Side → Nat)) := do
  let leftMatchable ← readMatchable
  let rightMatchable ← readMatchable
  let leftNext ← leNat invalid 8
  let rightNext ← leNat invalid 8
  return (Side.pick leftMatchable rightMatchable, Side.pick leftNext rightNext)

/-- Page numbers, which increase and lie below the next identity. -/
def readPages (next : Nat) : Nat → Option Nat → Reader StateError (List Nat)
  | 0, _ => return []
  | count + 1, previous => do
    let page ← leNat invalid 8
    if maxPage < page ∨ next ≤ page * pageRows ∨ previous.any (page ≤ ·) then
      fail invalid
    else
      let pages ← readPages next count (some page)
      return page :: pages

/-- Reads the numbers of the pages of a side. -/
def readPageIds (next : Nat) : Reader StateError (List Nat) := do
  let count ← leNat invalid 8
  let rest ← remaining
  if rest / 8 < count then fail invalid else readPages next count none

/-- Reads a manifest of pages. -/
def readManifest : Reader StateError Manifest := do
  let (matchable, next) ← readHeader
  let left ← readPageIds (next .left)
  let right ← readPageIds (next .right)
  return ⟨.pages, next, matchable, Side.pick ⟨left, []⟩ ⟨right, []⟩, none⟩

/-- Rows of a page, whose identities increase and lie below the next one. -/
def readRows (page next : Nat) : Nat → Option Nat → Reader StateError StoredRows
  | 0, _ => return []
  | count + 1, previous => do
    let id ← leNat invalid 8
    if id / pageRows ≠ page ∨ next ≤ id ∨ previous.any (id ≤ ·) then
      fail invalid
    else
      let associations ← leNat invalid 4
      let length ← leNat invalid 4
      let row ← exactly invalid length
      let rows ← readRows page next count (some id)
      return ⟨id, row, (UInt32.ofNat associations).toInt32⟩ :: rows

/-- Reads the header of a page. -/
def readPageCount : Reader StateError Nat := do
  magic pageMagic
  let count ← leNat invalid 4
  let rest ← remaining
  if count = 0 ∨ pageRows < count ∨ rest / 16 < count then fail invalid else return count

/-- Runs a reader and drops what is left. -/
def read {α : Type} (reader : Reader StateError α) (bytes : Bytes) : Result α :=
  (reader bytes).map Prod.fst

/-- Reads a page. -/
def decodePage (bytes : Bytes) (page next : Nat) : Result StoredRows :=
  read (do
    let count ← readPageCount
    let rows ← readRows page next count none
    finish
    return rows) bytes

/-- The check that the admission of a page makes. -/
def decodeWorkspace (bytes : Bytes) : Result Nat := read readPageCount bytes

/-- Reads a page or a single row. -/
def decodeEntry (bytes : Bytes) (id next : Nat) (layout : Layout) :
    Result StoredRows := do
  let rows ← decodePage bytes (if layout = .rows then id / pageRows else id) next
  if layout = .rows ∧ (rows.map StoredRow.id ≠ [id]) then .error invalid else .ok rows

/-! ## Manifests -/

/-- The rows of the pages of one side, after `count` other rows. -/
def readInline (next : Nat) : List Nat → Nat → Reader StateError StoredRows
  | [], _ => return []
  | page :: pages, count => do
    let length ← leNat invalid 4
    let bytes ← exactly invalid length
    let rows ← lift (decodePage bytes page next)
    if pageRows < count + rows.length then
      fail invalid
    else
      let others ← readInline next pages (count + rows.length)
      return rows ++ others

/-- Reads a state in one value. -/
def readCompact : Reader StateError Manifest := do
  magic compactMagic
  let manifest ← readManifest
  let left ← readInline (manifest.nextRowId .left) (manifest.pages .left).iter 0
  let right ← readInline (manifest.nextRowId .right) (manifest.pages .right).iter left.length
  finish
  return { manifest with layout := .compact, inline := some (Side.pick left right) }

/-- Reads a state in one value, if it is small enough. -/
def decodeCompact (bytes : Bytes) : Result Manifest :=
  if maxCompactBytes < bytes.length then .error invalid else read readCompact bytes

/-- Passes over the numbers of the pages. -/
def skipPages : Reader StateError Nat := do
  let count ← leNat invalid 8
  if pageRows < count then
    fail invalid
  else
    let _ ← exactly invalid (count * 8)
    return count

/-- Passes over a page, for the memory it will take. -/
def skipPage : Reader StateError Nat := do
  let length ← leNat invalid 4
  let bytes ← exactly invalid length
  lift (decodeWorkspace bytes)

/-- The check that the admission of a compact manifest makes. -/
def compactWorkspace (bytes : Bytes) : Result Unit :=
  if maxCompactBytes < bytes.length then .error invalid
  else read (do
    magic compactMagic
    let _ ← exactly invalid 18
    let left ← skipPages
    let right ← skipPages
    if pageRows < left + right then
      fail invalid
    else
      let _ ← times skipPage (left + right)
      finish) bytes

/-- Bitmaps, whose pages increase and whose identities lie below the next one.  Each is visited when
it is read. -/
def readBitmaps (visit : Nat → Nat → Result Unit) (next : Nat) :
    Nat → Option Nat → Reader StateError (List (Nat × Nat))
  | 0, _ => return []
  | count + 1, previous => do
    let page ← leNat invalid 8
    let bits ← leNat invalid 8
    if maxPage < page ∨ bits = 0 ∨ previous.any (page ≤ ·) ∨ next ≤ page * pageRows + bits.log2 then
      fail invalid
    else
      lift (visit page bits)
      let bitmaps ← readBitmaps visit next count (some page)
      return (page, bits) :: bitmaps

/-- Reads the bitmaps of a side. -/
def readBitmapIds (visit : Nat → Nat → Result Unit) (next : Nat) :
    Reader StateError (List (Nat × Nat)) := do
  let count ← leNat invalid 8
  let rest ← remaining
  if rest / 16 < count then fail invalid else readBitmaps visit next count none

/-- The visitor is given the side, the page, its bits and the next identity of the side. -/
def scanBitmaps (visit : Side → Nat → Nat → Nat → Result Unit) (bytes : Bytes) : Result Manifest :=
  read (do
    magic rowsMagic
    let (matchable, next) ← readHeader
    let left ← readBitmapIds (fun page bits => visit .left page bits (next .left)) (next .left)
    let right ← readBitmapIds (fun page bits => visit .right page bits (next .right)) (next .right)
    finish
    return ⟨.rows, next, matchable, Side.pick ⟨[], left⟩ ⟨[], right⟩, none⟩) bytes

/-- Reads any manifest. -/
def decodeManifest (bytes : Bytes) : Result Manifest :=
  if startsWith rowsMagic bytes then
    scanBitmaps (fun _ _ _ _ => .ok ()) bytes
  else if startsWith compactMagic bytes then
    decodeCompact bytes
  else
    read (do
      magic manifestMagic
      let manifest ← readManifest
      finish
      return manifest) bytes

/-- Checks a manifest for the memory it will take. -/
def manifestWorkspace (bytes : Bytes) : Result Unit :=
  if startsWith rowsMagic bytes then
    (scanBitmaps (fun _ _ _ _ => .ok ()) bytes).map fun _ => ()
  else if startsWith compactMagic bytes then
    compactWorkspace bytes
  else
    .ok ()

/-- The records that a manifest names, those of the left side first. -/
def Manifest.references (manifest : Manifest) : List (Side × Nat) :=
  (manifest.pages .left).iter.map (fun id => (Side.left, id)) ++
    (manifest.pages .right).iter.map fun id => (Side.right, id)

/-- The entries outside of the manifest. -/
def Manifest.external (manifest : Manifest) : List (Side × Nat) :=
  if manifest.inline.isSome then [] else manifest.references

/-- The records that a manifest names are visited one by one, and counted. -/
def visitManifestEntries (bytes : Bytes) (entry : Side → Nat → Nat → Layout → Result Unit) :
    Result Nat :=
  if startsWith rowsMagic bytes then do
    let manifest ← scanBitmaps (fun side page bits next =>
      (expand page bits).forM fun id => entry side id next .rows) bytes
    if manifest.references = [] then .error invalid else .ok manifest.references.length
  else do
    manifestWorkspace bytes
    let manifest ← decodeManifest bytes
    match manifest.inline with
    | some rows => if rows .left = [] ∧ rows .right = [] then .error invalid else .ok 0
    | none => do
      manifest.references.forM fun reference =>
        entry reference.1 reference.2 (manifest.nextRowId reference.1) manifest.layout
      if manifest.references = [] then .error invalid else .ok manifest.references.length

/-! ## Records -/

/-- The key of the manifest. -/
def manifestKey (key : Bytes) : Bytes := 0 :: key

/-- The byte of a side. -/
def Side.byte : Side → UInt8
  | .left => 0
  | .right => 1

/-- The key of a page. -/
def pageKey (key : Bytes) (side : Side) (page : Nat) : Bytes :=
  1 :: (leBytes 8 key.length ++ (key ++ (side.byte :: leBytes 8 page)))

/-- Big-endian numbers keep the rows of a side together and in the order of their identities. -/
def rowKey (key : Bytes) (side : Side) (id : Nat) : Bytes :=
  2 :: ((leBytes 8 key.length).reverse ++ (key ++ (side.byte :: (leBytes 8 id).reverse)))

/-- The key of an entry. -/
def entryKey (key : Bytes) (side : Side) (id : Nat) : Layout → Bytes
  | .rows => rowKey key side id
  | _ => pageKey key side id

/-- The value of a key in a checkpoint. -/
def lookup (entries : Records) (key : Bytes) : Option Bytes :=
  (entries.find? fun entry => entry.1 = key).map Prod.snd

/-! ## Validating a snapshot -/

/-- The error of a malformed checkpoint. -/
def invalidCheckpoint (message : String) : StateError :=
  .execution ("invalid regular join checkpoint: " ++ message)

/-- Checks an entry. -/
def validatePage (bytes : Bytes) (id next : Nat) (layout : Layout) : Result Unit := do
  let _ ← decodeWorkspace bytes
  let _ ← decodeEntry bytes id next layout
  .ok ()

/-- A record that a manifest names is there and is well formed. -/
def validateReference (entries : Records) (key : Bytes) (side : Side) (id next : Nat)
    (layout : Layout) : Result Unit :=
  match lookup entries (entryKey key side id layout) with
  | none => .error (invalidCheckpoint "missing page")
  | some bytes => validatePage bytes id next layout

/-- The key that a manifest belongs to. -/
def logicalKey : Bytes → Option Bytes
  | [] => none
  | tag :: key => if tag = 0 then some key else none

/-- The manifests among records, with their logical keys. -/
def manifestRecords (entries : Records) : Records :=
  entries.filterMap fun entry => (logicalKey entry.1).map fun key => (key, entry.2)

/-- The records by their keys. -/
def sortRecords (entries : Records) : Records :=
  entries.insertionSort fun entry entry' => (compare entry.1 entry'.1).isLE = true

/-- Checks a checkpoint: every entry belongs to a manifest. -/
def validateSnapshot (entries : Records) : Result Unit :=
  if ¬ (entries.map Prod.fst).Nodup then
    .error (invalidCheckpoint "duplicate key")
  else do
    let visited ← (manifestRecords (sortRecords entries)).mapM fun record =>
      visitManifestEntries record.2 (validateReference entries record.1)
    if (visited.map (1 + ·)).sum = entries.length then .ok ()
    else .error (invalidCheckpoint "orphan or unknown record")

/-! ## Decoding a snapshot -/

/-- Is the value a manifest? -/
def isManifest (bytes : Bytes) : Bool :=
  startsWith manifestMagic bytes || startsWith compactMagic bytes || startsWith rowsMagic bytes

/-- The rows of the records that a manifest names on both sides. -/
def gather (entry : Side → Nat → Result StoredRows) (manifest : Manifest) :
    Result (JoinState Bytes) := do
  let left ← (manifest.pages .left).iter.mapM (entry .left)
  let right ← (manifest.pages .right).iter.mapM (entry .right)
  .ok ⟨manifest.nextRowId, Side.pick left.flatten right.flatten⟩

/-- The rows of a record that a manifest names. -/
def referencedRows (get : Bytes → Option Bytes) (key : Bytes) (manifest : Manifest) (side : Side)
    (id : Nat) : Result StoredRows :=
  match get (entryKey key side id manifest.layout) with
  | none => .error (.execution "missing regular join snapshot page")
  | some bytes => decodeEntry bytes id (manifest.nextRowId side) manifest.layout

/-- The rows stand in the manifest, or in the records that it names. -/
def manifestState (entry : Side → Nat → Result StoredRows) (manifest : Manifest) :
    Result (JoinState Bytes) :=
  match manifest.inline with
  | some rows => .ok ⟨manifest.nextRowId, rows⟩
  | none => gather entry manifest

/-- The state of a logical key, and how many records it takes. -/
def decodeRecord (entries : Records) (key value : Bytes) : Result (JoinState Bytes × Nat) :=
  if ¬ isManifest value then
    .error (.execution "invalid regular join manifest record")
  else do
    let manifest ← decodeManifest value
    let state ← manifestState (referencedRows (lookup entries) key manifest) manifest
    if state.rows .left = [] ∧ state.rows .right = [] then
      .error (.execution "empty regular join manifest")
    else
      .ok (state, 1 + manifest.external.length)

/-- Reads the states of a checkpoint. -/
def decodeEntries (entries : Records) : Result (List (Bytes × JoinState Bytes)) :=
  if ¬ (entries.map Prod.fst).Nodup then
    .error (.execution "duplicate regular join snapshot key")
  else do
    let decoded ← (manifestRecords entries).mapM fun record => do
      let (state, consumed) ← decodeRecord entries record.1 record.2
      .ok ((record.1, state), consumed)
    if (decoded.map Prod.snd).sum = entries.length then .ok (decoded.map Prod.fst)
    else .error (.execution "orphan or unknown regular join snapshot record")

/-! ## Loading -/

/-- A record is admitted before it is decoded. -/
def loadEntry (get : Bytes → Option Bytes) (key : Bytes) (manifest : Manifest)
    (side : Side) (id : Nat) :
    Result StoredRows :=
  match get (entryKey key side id manifest.layout) with
  | none => .error (.execution "regular join manifest references a missing payload")
  | some bytes => do
    let _ ← decodeWorkspace bytes
    decodeEntry bytes id (manifest.nextRowId side) manifest.layout

/-- The state of a key; a key without a manifest has an empty one. -/
def loadState (get : Bytes → Option Bytes) (key : Bytes) : Result (JoinState Bytes) :=
  match get (manifestKey key) with
  | none => .ok ⟨fun _ => 0, fun _ => []⟩
  | some value => do
    manifestWorkspace value
    let manifest ← decodeManifest value
    manifestState (loadEntry get key manifest) manifest

end StreamFusion.RegularJoin
