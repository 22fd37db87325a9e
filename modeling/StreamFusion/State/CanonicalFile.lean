import StreamFusion.Lib.Paging
import StreamFusion.State.Backend

/-!
# A canonical checkpoint staged in a file

A checkpoint that arrives as one canonical frame is not decoded in memory.  `CanonicalFile.read`
copies it to a file, checks its framing, and lets an external sort order the keys with the file
offsets of their payloads; the sorted offsets become a second file of fixed-width index records.  A
restoring operator scans the result in bounded pages: each page reads its index records, then their
keys and values from the data file.

The external sort belongs to the query engine and is a parameter here.  The code relies on one fact
only: its output is a permutation of its input in key order (`SortsByKey`).
-/

namespace StreamFusion.State

open Wire Snapshot

namespace CanonicalFile

/-- The size of an index entry. -/
def indexBytes : Nat := 32

/-- The error of a malformed file. -/
def invalid (message : String) : StateError :=
  .execution ("canonical checkpoint file: " ++ message)

/-- Where a key and its value lie in the data file. -/
structure Entry where
  key : Nat
  keyLen : Nat
  value : Nat
  valueLen : Nat
  deriving DecidableEq, Repr

namespace Entry

/-- The stored form of an index entry. -/
def bytes (entry : Entry) : Bytes :=
  leBytes 8 entry.key ++ leBytes 8 entry.keyLen ++ leBytes 8 entry.value ++ leBytes 8 entry.valueLen

/-- Reads an index entry. -/
def decode (bytes : Bytes) : Entry :=
  ⟨leNat (bytes.take 8), leNat ((bytes.drop 8).take 8), leNat ((bytes.drop 16).take 8),
    leNat ((bytes.drop 24).take 8)⟩

end Entry

/-- Reads bytes of the file. -/
def readAt (file : Bytes) (offset len : Nat) : Except StateError Bytes :=
  if offset + len ≤ file.length then
    .ok ((file.drop offset).take len)
  else
    .error (.execution "failed to fill whole buffer")

/-! ## Reading the frame -/

/-- The position of the framing check and of the key source in the data file. -/
abbrev Source := Cursor

namespace Source

/-- Are so many bytes left? -/
def ensure (source : Source) (bytes : Nat) : Except StateError Unit :=
  if bytes > source.bytes.toBytes.length - source.offset then
    .error (invalid "truncated canonical entry")
  else
    .ok ()

/-- Takes so many bytes. -/
def readExact (source : Source) (len : Nat) : Except StateError (Bytes × Source) :=
  match source.take? len with
  | some result => .ok result
  | none => .error (.execution "failed to fill whole buffer")

/-- Takes the length of a key or value. -/
def readLen (source : Source) : Except StateError (Nat × Source) := do
  ensure source 4
  let (bytes, source) ← readExact source 4
  return (leNat bytes, source)

/-- Passes over bytes. -/
def skip (source : Source) (len : Nat) : Source := { source with offset := source.offset + len }

/-- One entry of the framing check; neither key nor value is loaded. -/
def validateEntry (source : Source) : Except StateError (Unit × Source) := do
  let (key, source) ← readLen source
  ensure source key
  let source := skip source key
  let (value, source) ← readLen source
  ensure source value
  return ((), skip source value)

/-- The key of an entry with the place of its payloads. -/
def row (source : Source) : Except StateError ((Bytes × Entry) × Source) := do
  let (keyLen, source) ← readLen source
  ensure source keyLen
  let keyOffset := source.offset
  let (key, source) ← readExact source keyLen
  let (valueLen, source) ← readLen source
  ensure source valueLen
  return ((key, ⟨keyOffset, keyLen, source.offset, valueLen⟩), skip source valueLen)

/-- Runs a reader over all entries behind the header and requires that they end with the file. -/
def entries {α : Type} (read : Source → Except StateError (α × Source)) (file : Slice)
    (count : Nat) : Except StateError (List α) := do
  let (result, source) ← readMany read count ⟨file, 16⟩
  if source.offset ≠ source.bytes.toBytes.length then
    .error (invalid "trailing canonical checkpoint bytes")
  else
    return result

end Source

/-! ## Building the index -/

/-- The documented behaviour of the external sort. -/
def SortsByKey (sort : List (Bytes × Entry) → List (Bytes × Entry)) : Prop :=
  ∀ rows, (sort rows).Perm rows ∧ (sort rows).Pairwise fun a b => (compare a.1 b.1).isLE

/-- The keys come out of the sort strictly increasing. -/
def checkIncreasing : Option Bytes → List (Bytes × Entry) → Except StateError Unit
  | _, [] => .ok ()
  | previous, row :: rows =>
    if previous.any fun before => (compare before row.1).isGE then
      .error (invalid "duplicate or unordered canonical checkpoint key")
    else
      checkIncreasing (some row.1) rows

/-- Checks the header and reads the number of entries. -/
def checkHeader (group : UInt32) (file : Slice) : Except StateError Nat := do
  let header ← readAt file.toBytes 0 16
  let count := leNat (header.drop 12)
  let expected ← (keyGroupSnapshotHeader group count file.toBytes.length).mapError
    fun error => invalid error.message
  if header ≠ expected then
    .error (invalid "wrong canonical magic, version or key group")
  else
    return count

/-- The index file and the number of its records. -/
def build (sort : List (Bytes × Entry) → List (Bytes × Entry)) (group : UInt32) (file : Slice) :
    Except StateError (Bytes × Nat) := do
  let count ← checkHeader group file
  let _ ← Source.entries Source.validateEntry file count
  let rows ← Source.entries Source.row file count
  let sorted := sort rows
  checkIncreasing none sorted
  if sorted.length ≠ count then
    .error (invalid "canonical checkpoint entry count changed")
  else
    return (sorted.flatMap fun row => row.2.bytes, sorted.length)

end CanonicalFile

/-- A staged checkpoint of one key group: the frame and the index over it. -/
structure CanonicalFile where
  group : UInt32
  count : Nat
  data : Bytes
  index : Bytes

namespace CanonicalFile

/-- Stages a frame as a file with an index. -/
def read (sort : List (Bytes × Entry) → List (Bytes × Entry)) (group : UInt32) (input : Slice) :
    Except StateError CanonicalFile :=
  if input.toBytes.length < 16 then
    .error (invalid "truncated canonical header")
  else do
    let (index, count) ← build sort group input
    return ⟨group, count, input.toBytes, index⟩

/-- An index entry. -/
def entry (file : CanonicalFile) (index : Nat) : Except StateError Entry :=
  if index ≥ file.count then
    .error (invalid "checkpoint index outside its directory")
  else do
    let bytes ← readAt file.index (index * indexBytes) indexBytes
    return Entry.decode bytes

/-! ## Range scans -/

/-- The size of the pieces in which keys are compared. -/
def chunk : Nat := 65536

/-- Compares an entry's key with `key` from `offset` on, one buffer after the other. -/
def compareFrom (file : CanonicalFile) (entry : Entry) (key : Bytes) (offset : Nat) :
    Except StateError Ordering :=
  let common := min entry.keyLen key.length
  if _h : offset < common then
    let count := min (common - offset) chunk
    match readAt file.data (entry.key + offset) count with
    | .error error => .error error
    | .ok bytes =>
      let order := compare bytes ((key.drop offset).take count)
      if order ≠ .eq then .ok order else compareFrom file entry key (offset + count)
  else
    .ok (compare entry.keyLen key.length)
termination_by min entry.keyLen key.length - offset
decreasing_by
  have : 0 < chunk := by decide
  omega

/-- The first position whose key is not below `key`, by bisection of `low..high`. -/
def lowerBoundBetween (file : CanonicalFile) (key : Bytes) (low high : Nat) :
    Except StateError Nat :=
  if _h : low < high then
    let mid := low + (high - low) / 2
    match file.entry mid with
    | .error error => .error error
    | .ok entry =>
      match file.compareFrom entry key 0 with
      | .error error => .error error
      | .ok .lt => lowerBoundBetween file key (mid + 1) high
      | .ok _ => lowerBoundBetween file key low mid
  else
    .ok low
termination_by high - low

/-- The first index entry that is not below a key. -/
def lowerBound (file : CanonicalFile) (key : Bytes) : Except StateError Nat :=
  file.lowerBoundBetween key 0 file.count

/-- The index records of a page: at most `slots` of them, and after the first one only as long as
the payloads stay within `maxBytes`. -/
def takeEntries (file : CanonicalFile) (maxBytes limit : Nat) :
    Nat → Nat → Bool → Nat → Except StateError (List Entry)
  | 0, _, _, _ => .ok []
  | slots + 1, position, first, bytes =>
    if position < limit then do
      let entry ← file.entry position
      let size := entry.keyLen + entry.valueLen
      if first = false ∧ size > maxBytes - bytes then
        return []
      else
        match checkedAdd bytes size with
        | none => .error (invalid "checkpoint page size overflow")
        | some bytes => do
          let rest ← takeEntries file maxBytes limit slots (position + 1) false bytes
          return entry :: rest
    else
      return []

/-- The key and the value an index record points to. -/
def payload (file : CanonicalFile) (entry : Entry) : Except StateError (Bytes × Bytes) := do
  let key ← readAt file.data entry.key entry.keyLen
  let value ← readAt file.data entry.value entry.valueLen
  return (key, value)

/-- The keys and values of index entries. -/
def payloads (file : CanonicalFile) : List Entry → Except StateError (List (Bytes × Bytes))
  | [] => .ok []
  | entry :: entries => do
    let value ← file.payload entry
    let values ← file.payloads entries
    return value :: values

variable {σ : Type}

section Range

/-- The pages between two positions.  The first argument bounds the number of pages; every page has
an entry, so one page for each position is enough. -/
def pageLoop (file : CanonicalFile) (rows maxBytes limit : Nat)
    (visitor : List (Bytes × Bytes) → Op StateError σ Bool) : Nat → Nat → Op StateError σ Unit
  | 0, offset =>
    if offset < limit then Op.lift (.error (.panic "page without entries")) else pure ()
  | fuel + 1, offset =>
    if offset < limit then do
      let entries ← Op.lift (file.takeEntries maxBytes limit rows offset true 0)
      let values ← Op.lift (file.payloads entries)
      let more ← visitor values
      if more then
        pageLoop file rows maxBytes limit visitor fuel (offset + entries.length)
      else
        pure ()
    else
      pure ()

/-- Visits the entries between two keys in pages. -/
def range (file : CanonicalFile) (group : UInt32) (start : Bytes) (stop : Option Bytes)
    (maxRows maxBytes : Nat) (visitor : List (Bytes × Bytes) → Op StateError σ Bool) :
    Op StateError σ Unit :=
  if group ≠ file.group then
    Op.lift (.error (invalid "checkpoint key-group assignment mismatch"))
  else if maxRows = 0 ∨ maxBytes = 0 then
    Op.lift (.error (invalid "checkpoint page limits must be positive"))
  else do
    let offset ← Op.lift (file.lowerBound start)
    let limit ← Op.lift
      (match stop with
      | some stop => file.lowerBound stop
      | none => .ok file.count)
    file.pageLoop (min maxRows 1024) maxBytes limit visitor (limit - offset) offset

/-- Visits the entries whose keys start like this. -/
def visitPrefix (file : CanonicalFile) (group : UInt32) (start : Bytes) (rows bytes : Nat)
    (visitor : List (Bytes × Bytes) → Op StateError σ Unit) : Op StateError σ Unit :=
  file.range group start (prefixEnd start) rows bytes (keepGoing visitor)

/-- The page memory is admitted by the source itself. -/
def visitPrefixAdmitted (file : CanonicalFile) (group : UInt32) (start : Bytes) (rows bytes : Nat)
    (visitor : List (Bytes × Bytes) → Op StateError σ Unit) : Op StateError σ Unit :=
  file.visitPrefix group start rows bytes visitor

end Range

/-! ## Staging a canonical frame

For the frame of a listing the external sort has nothing to do: the rows arrive in key order. -/

/-- An index record that points to an entry. -/
structure Locates (data : Bytes) (e : Bytes × Bytes) (entry : Entry) : Prop where
  key : readAt data entry.key entry.keyLen = .ok e.1
  value : readAt data entry.value entry.valueLen = .ok e.2
  keyLen : entry.keyLen = e.1.length
  valueLen : entry.valueLen = e.2.length
  key_le : entry.key + entry.keyLen ≤ data.length
  value_le : entry.value + entry.valueLen ≤ data.length

variable {c c' : Cursor} {xs : Bytes}

theorem readAt_of_reads (h : c.Reads xs c') :
    readAt c.bytes.toBytes c.offset xs.length = .ok xs := by
  have hle : c.offset + xs.length ≤ c.bytes.toBytes.length := by
    have := h.offset_le
    rwa [h.offset_eq] at this
  obtain ⟨before, after, hb, hlen, -⟩ := h
  rw [readAt, if_pos hle, hb, ← hlen, List.drop_left, List.take_left]

variable {g : UInt32} {s : Slice} {es : List (Bytes × Bytes)}

namespace Source

theorem ensure_of_reads (h : c.Reads xs c') : ensure c xs.length = .ok () := by
  have hle := h.offset_le
  rw [h.offset_eq] at hle
  rw [ensure, if_neg (by omega)]

theorem readExact_of_reads (h : c.Reads xs c') : readExact c xs.length = .ok (xs, c') := by
  rw [readExact, Cursor.take?_eq_some.mpr ⟨rfl, h⟩]

theorem skip_of_reads (h : c.Reads xs c') : skip c xs.length = c' := by
  obtain ⟨_, _, _, _, rfl⟩ := h
  rfl

theorem readLen_of_reads {n : Nat} (hn : n < 2 ^ 32)
    (h : c.Reads (leBytes 4 n) c') : readLen c = .ok (n, c') := by
  have h₁ := ensure_of_reads h
  have h₂ := readExact_of_reads h
  rw [length_leBytes] at h₁ h₂
  have h₃ : leNat (leBytes 4 n) = n := leNat_leBytes_of_lt hn
  simp [readLen, h₁, h₂, h₃]

variable {e : Bytes × Bytes}

section

variable (hfits : Snapshot.EntryFits e) (h : c.Reads (entryBytes e) c')
include hfits h

theorem validateEntry_of_reads : validateEntry c = .ok ((), c') := by
  simp only [entryBytes, framed, Cursor.reads_append] at h
  obtain ⟨c₂, ⟨c₁, hkeyLen, hkey⟩, c₃, hvalueLen, hvalue⟩ := h
  simp [validateEntry, readLen_of_reads hfits.1 hkeyLen, ensure_of_reads hkey, skip_of_reads hkey,
    readLen_of_reads hfits.2 hvalueLen, ensure_of_reads hvalue, skip_of_reads hvalue]

theorem row_of_reads :
    ∃ r : Bytes × Entry, row c = .ok (r, c') ∧ r.1 = e.1 ∧ Locates c.bytes.toBytes e r.2 := by
  simp only [entryBytes, framed, Cursor.reads_append] at h
  obtain ⟨c₂, ⟨c₁, hkeyLen, hkey⟩, c₃, hvalueLen, hvalue⟩ := h
  have hb₁ : c₁.bytes = c.bytes := hkeyLen.bytes_eq
  have hb₃ : c₃.bytes = c.bytes :=
    hvalueLen.bytes_eq.trans (hkey.bytes_eq.trans hb₁)
  refine ⟨(e.1, ⟨c₁.offset, e.1.length, c₃.offset, e.2.length⟩), ?_, rfl, ?_, ?_, rfl, rfl, ?_, ?_⟩
  · simp [row, readLen_of_reads hfits.1 hkeyLen, ensure_of_reads hkey, readExact_of_reads hkey,
      readLen_of_reads hfits.2 hvalueLen, ensure_of_reads hvalue, skip_of_reads hvalue]
  · rw [← hb₁]
    exact readAt_of_reads hkey
  · rw [← hb₃]
    exact readAt_of_reads hvalue
  · have := hkey.offset_le
    rwa [hkey.offset_eq, hb₁] at this
  · have := hvalue.offset_le
    rwa [hvalue.offset_eq, hb₃] at this

end

/-- A reader that takes in every entry of a frame takes in the frame. -/
theorem entries_of_frame {α : Type} {read : Source → Except StateError (α × Source)}
    {P : Bytes × Bytes → α → Prop}
    (hs : s.toBytes = frame g es)
    (hread : ∀ e ∈ es, ∀ c c' : Cursor, c.bytes = s → c.Reads (entryBytes e) c' →
      ∃ a, read c = .ok (a, c') ∧ P e a) :
    ∃ as, entries read s es.length = .ok as ∧ List.Forall₂ P es as := by
  obtain ⟨c', hr⟩ := reads_entries_of_frame hs
  obtain ⟨as, has, hP⟩ := readMany_of_reads hread rfl hr
  have hend : c'.offset = c'.bytes.toBytes.length := by
    rw [hr.bytes_eq, hr.offset_eq]
    simp [hs, frameSize, List.length_flatMap]
  exact ⟨as, by simp [entries, has, hend], hP⟩

end Source

/-- The header of a frame passes. -/
theorem checkHeader_of_frame (hfits : Snapshot.Fits es) (hs : s.toBytes = frame g es) :
    checkHeader g s = .ok es.length := by
  have hsize : s.toBytes.length = frameSize es := by rw [hs, length_frame]
  have hmin := eight_mul_length_le_sum_entrySize es
  have hheader : readAt s.toBytes 0 16 = .ok (headerBytes g es.length) := by
    rw [readAt, if_pos (by rw [hsize, frameSize]; omega), hs, frame,
      List.drop_zero, ← length_headerBytes g es.length, List.take_left]
  have hcount : leNat ((headerBytes g es.length).drop 12) = es.length := by
    have hdrop : (headerBytes g es.length).drop 12 = leBytes 4 es.length := by
      rw [headerBytes]
      exact List.drop_left' (by simp [snapshotMagic])
    rw [hdrop]
    exact leNat_leBytes_of_lt hfits.1
  have hexpected : keyGroupSnapshotHeader g es.length s.toBytes.length =
      .ok (headerBytes g es.length) := by
    rw [keyGroupSnapshotHeader, if_pos hfits.1, if_neg (by rw [hsize, frameSize]; omega)]
    rfl
  simp [checkHeader, hheader, hcount, hexpected, Except.mapError]

variable {rows : List (Bytes × Entry)}

theorem checkIncreasing_of_sorted (previous : Option Bytes)
    (hprevious : ∀ before ∈ previous, ∀ row ∈ rows, compare before row.1 = .lt)
    (hsorted : rows.Pairwise fun a b => compare a.1 b.1 = .lt) :
    checkIncreasing previous rows = .ok () := by
  induction rows generalizing previous with
  | nil => rfl
  | cons row rows ih =>
    obtain ⟨hrow, hrows⟩ := List.pairwise_cons.mp hsorted
    have hfirst : (previous.any fun before => (compare before row.1).isGE) = false := by
      rcases previous with _ | before
      · rfl
      · simp [hprevious before rfl row List.mem_cons_self]
    rw [checkIncreasing, hfirst]
    refine ih (some row.1) ?_ hrows
    intro before hbefore other hother
    obtain rfl : row.1 = before := by simpa using hbefore
    exact hrow other hother

variable {sort : List (Bytes × Entry) → List (Bytes × Entry)}

/-- A sort leaves rows alone that are already in strict key order. -/
theorem sort_eq_self (hsort : SortsByKey sort)
    (hsorted : rows.Pairwise fun a b => compare a.1 b.1 = .lt) :
    sort rows = rows := by
  obtain ⟨hperm, hle⟩ := hsort rows
  have hkeys := SortedEntries.nodup_keys hsorted
  refine List.Perm.eq_of_pairwise ?_ hle (hsorted.imp fun h => by simp [h]) hperm
  intro a b ha hb hab hba
  have hkey : a.1 = b.1 :=
    Std.LawfulEqCmp.eq_of_compare (Std.OrientedCmp.isLE_antisymm hab hba)
  exact List.inj_on_of_nodup_map hkeys (hperm.mem_iff.mp ha) hb hkey

/-- The size of an entry. -/
def payloadSize (e : Bytes × Bytes) : Nat := e.1.length + e.2.length

/-- What a staged file knows about the entries of its group. -/
structure Holds (file : CanonicalFile) (es : List (Bytes × Bytes)) : Prop where
  count : file.count = es.length
  entry : ∀ i e, es[i]? = some e → ∃ entry, file.entry i = .ok entry ∧ Locates file.data e entry
  size : (es.map payloadSize).sum < usizeLimit

/-- An index entry is read back. -/
theorem decode_bytes {entry : Entry} {data e} (h : Locates data e entry)
    (hdata : data.length < usizeLimit) : Entry.decode entry.bytes = entry := by
  have hword : ∀ n, n ≤ data.length → leNat (leBytes 8 n) = n := by
    intro n hn
    exact leNat_leBytes_of_lt (lt_of_le_of_lt hn hdata)
  have h₁ := hword entry.key (by have := h.key_le; omega)
  have h₂ := hword entry.keyLen (by have := h.key_le; omega)
  have h₃ := hword entry.value (by have := h.value_le; omega)
  have h₄ := hword entry.valueLen (by have := h.value_le; omega)
  have hassoc : entry.bytes = leBytes 8 entry.key ++ (leBytes 8 entry.keyLen ++
      (leBytes 8 entry.value ++ leBytes 8 entry.valueLen)) := by simp [Entry.bytes]
  have hd₁ : entry.bytes.drop 8 = leBytes 8 entry.keyLen ++
      (leBytes 8 entry.value ++ leBytes 8 entry.valueLen) := by
    rw [hassoc, List.drop_left' (by simp)]
  have hd₂ : entry.bytes.drop 16 = leBytes 8 entry.value ++ leBytes 8 entry.valueLen := by
    rw [show 16 = 8 + 8 from rfl, ← List.drop_drop, hd₁, List.drop_left' (by simp)]
  have hd₃ : entry.bytes.drop 24 = leBytes 8 entry.valueLen := by
    rw [show 24 = 16 + 8 from rfl, ← List.drop_drop, hd₂, List.drop_left' (by simp)]
  rw [Entry.decode, hd₁, hd₂, hd₃,
    List.take_of_length_le (l := leBytes 8 entry.valueLen) (by simp), hassoc]
  simp only [List.take_left' (length_leBytes 8 _), h₁, h₂, h₃, h₄]

/-- **Staging.**  The canonical frame of a group is accepted, and the staged file knows its
entries. -/
theorem read_of_frame (hsort : SortsByKey sort) {contents : Bytes → Option Bytes}
    (hlists : SortedEntries.Lists contents es) (hfits : Snapshot.Fits es)
    (hs : s.toBytes = frame g es) :
    ∃ file, read sort g s = .ok file ∧ file.group = g ∧ file.Holds es := by
  have hsize : s.toBytes.length = frameSize es := by rw [hs, length_frame]
  obtain ⟨units, hvalidate, -⟩ := Source.entries_of_frame (P := fun _ _ => True) hs
    fun e he c c' _ hr => ⟨(), Source.validateEntry_of_reads (hfits.2 e he) hr, trivial⟩
  obtain ⟨rows, hrows, hlocate⟩ := Source.entries_of_frame
    (P := fun e (r : Bytes × Entry) => r.1 = e.1 ∧ Locates s.toBytes e r.2) hs
    fun e he c c' hc hr => hc ▸ Source.row_of_reads (hfits.2 e he) hr
  have hlen : rows.length = es.length := hlocate.length_eq.symm
  have hkeys : rows.map Prod.fst = es.map Prod.fst := by
    have : List.Forall₂ (· = ·) (rows.map Prod.fst) (es.map Prod.fst) := by
      rw [List.forall₂_map_left_iff, List.forall₂_map_right_iff]
      exact (hlocate.imp fun _ _ h => h.1).flip
    rwa [List.forall₂_eq_eq_eq] at this
  have hsorted : rows.Pairwise fun a b => compare a.1 b.1 = .lt := by
    have h : (es.map Prod.fst).Pairwise fun a b => compare a b = .lt :=
      List.pairwise_map.mpr hlists.sorted
    rw [← hkeys] at h
    exact List.pairwise_map.mp h
  have hbuild : build sort g s = .ok (rows.flatMap fun row => row.2.bytes, rows.length) := by
    simp [build, checkHeader_of_frame hfits hs, hvalidate, hrows, sort_eq_self hsort hsorted,
      checkIncreasing_of_sorted none (by simp) hsorted, hlen]
  refine ⟨⟨g, rows.length, s.toBytes, rows.flatMap fun row => row.2.bytes⟩, ?_, rfl, hlen, ?_, ?_⟩
  · rw [read, if_neg (by rw [hsize, frameSize]; omega)]
    simp [hbuild]
  · intro i e he
    obtain ⟨hi, rfl⟩ := List.getElem?_eq_some_iff.mp he
    have hrow : rows[i]? = some rows[i] := List.getElem?_eq_getElem (by omega)
    have hloc : Locates s.toBytes es[i] rows[i].2 :=
      ((List.forall₂_iff_get.mp hlocate).2 i hi (by omega)).2
    refine ⟨rows[i].2, ?_, hloc⟩
    have hrecord : readAt (rows.flatMap fun row => row.2.bytes) (i * indexBytes) indexBytes =
        .ok rows[i].2.bytes := by
      have hwidth : ∀ row : Bytes × Entry, row.2.bytes.length = indexBytes := by
        intro row
        simp [Entry.bytes, indexBytes]
      rw [readAt, if_pos, take_drop_flatMap hwidth hrow]
      rw [length_flatMap_const hwidth, ← Nat.succ_mul]
      exact Nat.mul_le_mul_right _ (by omega)
    simp only [entry, ge_iff_le]
    rw [if_neg (by omega), hrecord, Except.ok_bind, decode_bytes hloc s.length_lt_usizeLimit]
    rfl
  · have hle : (es.map payloadSize).sum ≤ (es.map entrySize).sum :=
      List.sum_le_sum fun e _ => by simp only [payloadSize, entrySize]; omega
    have := s.length_lt_usizeLimit
    rw [hsize, frameSize] at this
    omega

/-! ## The pages of a scan -/

variable {file : CanonicalFile}

/-- Every key is above the empty one, so a scan from there starts at the first record. -/
theorem lowerBoundBetween_nil (h : file.Holds es) (low high : Nat) (hhigh : high ≤ es.length) :
    file.lowerBoundBetween [] low high = .ok low := by
  induction hn : high - low using Nat.strong_induction_on generalizing high with
  | _ n ih =>
    rw [lowerBoundBetween]
    split
    · rename_i hlt
      have hmid : low + (high - low) / 2 < es.length := by omega
      obtain ⟨entry, hentry, -⟩ := h.entry _ _ (List.getElem?_eq_getElem hmid)
      have hcompare : file.compareFrom entry [] 0 = .ok (compare entry.keyLen 0) := by
        rw [compareFrom]
        simp
      have hnot : compare entry.keyLen 0 ≠ .lt := by
        rw [Ne, Nat.compare_eq_lt]
        omega
      simp only [hentry, hcompare]
      rcases horder : compare entry.keyLen 0 with _ | _ | _
      · exact absurd horder hnot
      · exact ih _ (by omega) _ (by omega) rfl
      · exact ih _ (by omega) _ (by omega) rfl
    · rfl

/-- The bound on a page: its rows, and its payload bytes unless its first entry alone exceeds
them. -/
def PageBound (rows maxBytes : Nat) (page : List (Bytes × Bytes)) : Prop :=
  page.length ≤ rows ∧ (page.map payloadSize).sum ≤ max maxBytes ((page.map payloadSize).headD 0)

/-- The records of a page and the entries they stand for: a run of entries from `position` on. -/
theorem takeEntries_spec (h : file.Holds es) (maxBytes slots position : Nat)
    (first : Bool) (bytes : Nat)
    (hsum : bytes + ((es.drop position).map payloadSize).sum < usizeLimit) :
    ∃ page rest records, es.drop position = page ++ rest ∧
      file.takeEntries maxBytes es.length slots position first bytes = .ok records ∧
      file.payloads records = .ok page ∧ records.length = page.length ∧ page.length ≤ slots ∧
      (first = true → 0 < slots → position < es.length → page ≠ []) ∧
      (first = false → bytes + (page.map payloadSize).sum ≤ max maxBytes bytes) ∧
      (first = true → bytes = 0 →
        (page.map payloadSize).sum ≤ max maxBytes ((page.map payloadSize).headD 0)) := by
  induction slots generalizing position first bytes with
  | zero => exact ⟨[], es.drop position, [], rfl, rfl, rfl, rfl, le_rfl, by simp, by simp, by simp⟩
  | succ slots ih =>
    by_cases hlt : position < es.length
    · have hdrop : es.drop position = es[position] :: es.drop (position + 1) :=
        List.drop_eq_getElem_cons hlt
      obtain ⟨record, hrecord, hloc⟩ := h.entry _ _ (List.getElem?_eq_getElem hlt)
      have hsize : record.keyLen + record.valueLen = payloadSize es[position] := by
        rw [hloc.keyLen, hloc.valueLen, payloadSize]
      rw [hdrop, List.map_cons, List.sum_cons] at hsum
      by_cases hstop : first = false ∧ payloadSize es[position] > maxBytes - bytes
      · refine ⟨[], es.drop position, [], rfl, ?_, rfl, rfl, Nat.zero_le _, ?_, ?_, ?_⟩
        · simp [takeEntries, hlt, hrecord, hsize, hstop]
        · simp [hstop.1]
        · simp
        · simp
      · obtain ⟨page, rest, records, hsplit, htake, hload, hlen, hslots, -, hbound, -⟩ :=
          ih (position + 1) false (bytes + payloadSize es[position]) (by omega)
        have hpayload : file.payload record = .ok es[position] := by
          simp [payload, hloc.key, hloc.value]
        have hadd : checkedAdd bytes (payloadSize es[position]) =
            some (bytes + payloadSize es[position]) :=
          checkedAdd_eq_some.mpr ⟨by omega, rfl⟩
        have hbound := hbound rfl
        refine ⟨es[position] :: page, rest, record :: records, by rw [hdrop, hsplit]; rfl, ?_, ?_,
          by simp [hlen], by simpa using hslots, by simp, ?_, ?_⟩
        · simp [takeEntries, hlt, hrecord, hsize, hstop, hadd, htake]
        · simp [payloads, hpayload, hload]
        · intro hfirst
          simp only [hfirst, true_and, gt_iff_lt, not_lt] at hstop
          simp only [List.map_cons, List.sum_cons]
          omega
        · intro _ hzero
          simp only [List.map_cons, List.sum_cons, List.headD_cons]
          omega
    · refine ⟨[], es.drop position, [], rfl, ?_, rfl, rfl, Nat.zero_le _, ?_, ?_, ?_⟩
      · simp [takeEntries, hlt]
      · exact fun _ _ h => absurd h hlt
      · simp
      · simp

section Pages

section

variable (h : file.Holds es) (visitor : List (Bytes × Bytes) → Op StateError σ Unit)
include h

/-- The pages cut the entries in order. -/
theorem pageLoop_pages {rows : Nat} (maxBytes : Nat)
    (hrows : 0 < rows) (fuel offset : Nat) (hfuel : es.length - offset ≤ fuel) :
    ∃ pages, Paging.Cut (PageBound rows maxBytes) pages (es.drop offset) ∧
      file.pageLoop rows maxBytes es.length (keepGoing visitor) fuel offset =
          Op.forEach visitor pages := by
  induction fuel generalizing offset with
  | zero =>
    have hge : ¬ offset < es.length := by omega
    refine ⟨[], ?_, ?_⟩
    · rw [List.drop_eq_nil_of_le (by omega)]
      exact Paging.cut_nil _
    · rw [pageLoop, if_neg hge]
      rfl
  | succ fuel ih =>
    rw [pageLoop]
    split
    · rename_i hlt
      have hsum : 0 + ((es.drop offset).map payloadSize).sum < usizeLimit := by
        have hsub : ((es.drop offset).map payloadSize).Sublist (es.map payloadSize) :=
          (List.drop_sublist _ _).map _
        have := hsub.sum_le_sum (by simp)
        have hsize := h.size
        omega
      obtain ⟨page, rest, records, hsplit, htake, hload, hlen, hslots, hne, -, hbound⟩ :=
        takeEntries_spec h maxBytes rows offset true 0 hsum
      have hne := hne rfl hrows hlt
      have hpos : 0 < page.length := List.length_pos_iff.mpr hne
      have hrest : es.drop (offset + page.length) = rest := by
        rw [← List.drop_drop, hsplit, List.drop_left]
      obtain ⟨pages, hcut, hrun⟩ := ih (offset + page.length) (by omega)
      rw [hrest] at hcut
      refine ⟨page :: pages, ?_, ?_⟩
      · rw [hsplit]
        exact hcut.cons hne ⟨hslots, hbound rfl rfl⟩
      · simp only [htake, hload, hlen, Op.lift_ok, pure_bind, keepGoing_bind, if_true, hrun,
          Op.forEach_cons]
    · rename_i hge
      refine ⟨[], ?_, rfl⟩
      rw [List.drop_eq_nil_of_le (by omega)]
      exact Paging.cut_nil _

/-- A scan of the whole group hands the visitor a cut of its entries. -/
theorem visitPrefixAdmitted_pages {rows bytes : Nat} (hrows : 0 < rows) (hbytes : 0 < bytes) :
    ∃ pages, Paging.Cut (PageBound (min rows 1024) bytes) pages es ∧
      file.visitPrefixAdmitted file.group [] rows bytes visitor = Op.forEach visitor pages := by
  have hmin : 0 < min rows 1024 := by omega
  obtain ⟨pages, hcut, hrun⟩ := pageLoop_pages h visitor bytes hmin (es.length - 0) 0 le_rfl
  refine ⟨pages, by simpa using hcut, ?_⟩
  have hlower : file.lowerBound [] = .ok 0 := by
    rw [lowerBound, h.count, lowerBoundBetween_nil h 0 es.length le_rfl]
  have hbounds : ¬ (rows = 0 ∨ bytes = 0) := by omega
  simp only [visitPrefixAdmitted, visitPrefix, range, ne_eq, not_true_eq_false, if_false, hbounds,
    hlower, Op.lift_ok, pure_bind, prefixEnd, List.reverse_nil, List.dropWhile_nil, h.count]
  exact hrun

end

end Pages

end CanonicalFile

end StreamFusion.State
