import StreamFusion.Lib.Wire

/-!
# The canonical key-group snapshot

The state backends exchange a key group through one frame: the magic `SFS1`, a version, the key
group, the number of entries, and for each entry the length-prefixed key and value, all integers
little-endian in four bytes.  The frame has four code paths in `streamfusion-state-abi`:

* `encodeKeyGroupSnapshot` appends field after field to a growing vector;
* `validateKeyGroupSnapshot` walks over untrusted bytes and `decodeKeyGroupSnapshot` parses them a
  second time once the walk has succeeded;
* `Entries` is the borrowed iterator over a validated frame, whose reads `expect` to succeed;
* `SnapshotWriter` fills a vector whose exact size was measured and admitted beforehand.

All of them are compared with one closed form, `frame`.  The readers accept a slice exactly if it is
`frame g entries` for a list within the 32-bit limits `Fits`, and the writers produce exactly that.
-/

namespace StreamFusion.Snapshot

open Wire Cursor Except

/-- A key and its value. -/
abbrev Entry := Bytes × Bytes

/-- What a frame starts with. -/
def snapshotMagic : Bytes := [0x53, 0x46, 0x53, 0x31]

/-- The version of the format. -/
def snapshotVersion : UInt32 := 1

/-- The error of the snapshot codec, a message. -/
structure SnapshotError where
  message : String
  deriving DecidableEq, Repr

/-! ## Encoding -/

/-- Writes a length, if it fits. -/
def writeLen (output : Bytes) (value : Nat) (description : String) : Except SnapshotError Bytes :=
  if value < 2 ^ 32 then
    .ok (output ++ leBytes 4 value)
  else
    .error ⟨"StreamFusion state " ++ description ++ " exceeds 4 GiB"⟩

/-- Writes a key and its value. -/
def encodeEntry (output : Bytes) (entry : Entry) : Except SnapshotError Bytes := do
  let output ← writeLen output entry.1.length "key"
  let output ← writeLen (output ++ entry.1) entry.2.length "value"
  return output ++ entry.2

/-- Writes the frame of a key group. -/
def encodeKeyGroupSnapshot (keyGroup : UInt32) (entries : List Entry) :
    Except SnapshotError Bytes := do
  let output := snapshotMagic ++ leBytes 4 snapshotVersion.toNat ++ leBytes 4 keyGroup.toNat
  let output ← writeLen output entries.length "entry count"
  entries.foldlM encodeEntry output

/-! ## Reading -/

/-- The reader's position in the bytes of a checkpoint. -/
abbrev SnapshotInput := Cursor

namespace SnapshotInput

/-- Starts reading a frame. -/
def new (bytes : Slice) : SnapshotInput := ⟨bytes, 0⟩

/-- Are all bytes read? -/
def isEmpty (input : SnapshotInput) : Bool := input.offset == input.bytes.toBytes.length

/-- Takes so many bytes. -/
def readExact (input : SnapshotInput) (len : Nat) (description : String) :
    Except SnapshotError (Bytes × SnapshotInput) :=
  match checkedAdd input.offset len with
  | none => .error ⟨"StreamFusion state " ++ description ++ " length overflow"⟩
  | some _ =>
    match input.take? len with
    | none => .error ⟨"truncated StreamFusion state " ++ description⟩
    | some result => .ok result

/-- Reads a number. -/
def readU32 (input : SnapshotInput) (description : String) :
    Except SnapshotError (UInt32 × SnapshotInput) := do
  let (bytes, input) ← readExact input 4 description
  return (UInt32.ofNat (leNat bytes), input)

/-- Reads bytes behind their length. -/
def readBytes (input : SnapshotInput) (description : String) :
    Except SnapshotError (Bytes × SnapshotInput) := do
  let (len, input) ← readU32 input (description ++ " length")
  readExact input len.toNat description

end SnapshotInput

open SnapshotInput

/-- One entry of the validating walk; the payload is passed over, not copied. -/
def validateEntry (input : SnapshotInput) : Except SnapshotError SnapshotInput := do
  let (keyLen, input) ← readU32 input "key length"
  let (_, input) ← readExact input keyLen.toNat "key"
  let (valueLen, input) ← readU32 input "value length"
  let (_, input) ← readExact input valueLen.toNat "value"
  return input

/-- Passes over the entries. -/
def validateEntries : Nat → SnapshotInput → Except SnapshotError SnapshotInput
  | 0, input => .ok input
  | count + 1, input => do
    let input ← validateEntry input
    validateEntries count input

/-- The checks in front of the walk: magic, version, key group and a plausible entry count. -/
def validateHeader (expectedKeyGroup : UInt32) (bytes : Slice) :
    Except SnapshotError (Nat × SnapshotInput) := do
  let (magic, input) ← readExact (SnapshotInput.new bytes) 4 "magic"
  if magic ≠ snapshotMagic then
    .error ⟨"invalid StreamFusion state magic"⟩
  else
    let (version, input) ← readU32 input "version"
    if version ≠ snapshotVersion then
      .error ⟨"unsupported StreamFusion state version " ++ toString version⟩
    else
      let (keyGroup, input) ← readU32 input "key group"
      if keyGroup ≠ expectedKeyGroup then
        .error ⟨"state key group " ++ toString keyGroup ++ " does not match assigned group " ++
          toString expectedKeyGroup⟩
      else
        let (count, input) ← readU32 input "entry count"
        if count.toNat > (bytes.toBytes.length - 16) / 8 then
          .error ⟨"canonical snapshot entry count exceeds its byte length"⟩
        else
          .ok (count.toNat, input)

/-- Checks a frame and returns the number of its entries. -/
def validateKeyGroupSnapshot (expectedKeyGroup : UInt32) (bytes : Slice) :
    Except SnapshotError Nat := do
  let (count, input) ← validateHeader expectedKeyGroup bytes
  let input ← validateEntries count input
  if input.isEmpty then
    return count
  else
    .error ⟨"StreamFusion state has trailing bytes"⟩

/-- Reads a key and its value. -/
def readEntry (input : SnapshotInput) : Except SnapshotError (Entry × SnapshotInput) := do
  let (key, input) ← readBytes input "key"
  let (value, input) ← readBytes input "value"
  return ((key, value), input)

/-- Reads a frame. -/
def decodeKeyGroupSnapshot (expectedKeyGroup : UInt32) (bytes : Slice) :
    Except SnapshotError (List Entry) := do
  let count ← validateKeyGroupSnapshot expectedKeyGroup bytes
  let (entries, _) ← readMany readEntry count ⟨bytes, 16⟩
  return entries

/-! ## The borrowed entry iterator -/

/-- An abort of the running program, with its message. -/
structure Panic where
  message : String
  deriving DecidableEq, Repr

/-- The value of a computation that the program asserts to succeed. -/
def expect {α : Type} (result : Except SnapshotError α) (message : String) : Except Panic α :=
  match result with
  | .ok value => .ok value
  | .error _ => .error ⟨message⟩

/-- The entries of a checked frame that are still to come. -/
structure Entries where
  input : SnapshotInput
  remaining : Nat

variable {entry : Entry}

namespace Entries

/-- The next entry. -/
def next (entries : Entries) : Except Panic (Option (Entry × Entries)) :=
  if entries.remaining = 0 then
    .ok none
  else do
    let (keyLen, input) ← expect (readU32 entries.input "key length") "validated frame"
    let (key, input) ← expect (readExact input keyLen.toNat "key") "validated frame"
    let (valueLen, input) ← expect (readU32 input "value length") "validated frame"
    let (value, input) ← expect (readExact input valueLen.toNat "value") "validated frame"
    return some ((key, value), ⟨input, entries.remaining - 1⟩)

theorem remaining_lt_of_next {entries rest : Entries}
    (h : entries.next = .ok (some (entry, rest))) : rest.remaining < entries.remaining := by
  unfold next at h
  split at h
  · simp at h
  · simp only [bind_eq_ok] at h
    obtain ⟨_, -, _, -, _, -, _, -, h⟩ := h
    simp only [pure_eq_ok, Except.ok.injEq, Option.some.injEq, Prod.mk.injEq] at h
    rw [← h.2]
    show entries.remaining - 1 < entries.remaining
    omega

/-- Calls `next` until it answers `None`. -/
def collect (entries : Entries) : Except Panic (List Entry) :=
  match h : entries.next with
  | .error panic => .error panic
  | .ok none => .ok []
  | .ok (some (entry, rest)) =>
    have : rest.remaining < entries.remaining := remaining_lt_of_next h
    (rest.collect).map (entry :: ·)
termination_by entries.remaining

end Entries

/-- The entries of a frame, once it is checked. -/
def keyGroupSnapshotEntries (group : UInt32) (bytes : Slice) : Except SnapshotError Entries := do
  let remaining ← validateKeyGroupSnapshot group bytes
  return ⟨⟨bytes, 16⟩, remaining⟩

/-! ## The sized writer -/

/-- The header of a frame of this size. -/
def keyGroupSnapshotHeader (keyGroup : UInt32) (entries bytes : Nat) : Except SnapshotError Bytes :=
  if entries < 2 ^ 32 then
    if bytes < 16 ∨ (bytes - 16) / 8 < entries then
      .error ⟨"invalid canonical snapshot size"⟩
    else
      .ok (snapshotMagic ++ leBytes 4 snapshotVersion.toNat ++ leBytes 4 keyGroup.toNat ++
        leBytes 4 entries)
  else
    .error ⟨"canonical snapshot entry count exceeds UInt32"⟩

/-- A frame whose size was announced. -/
structure SnapshotWriter where
  bytes : Bytes
  expectedBytes : Nat
  remainingEntries : Nat

namespace SnapshotWriter

/-- Starts a frame. -/
def new (keyGroup : UInt32) (entries bytes : Nat) : Except SnapshotError SnapshotWriter := do
  let header ← keyGroupSnapshotHeader keyGroup entries bytes
  return ⟨header, bytes, entries⟩

/-- Adds an entry. -/
def append (writer : SnapshotWriter) (key value : Bytes) : Except SnapshotError SnapshotWriter :=
  if 2 ^ 32 ≤ key.length then
    .error ⟨"snapshot key exceeds UInt32"⟩
  else if 2 ^ 32 ≤ value.length then
    .error ⟨"snapshot value exceeds UInt32"⟩
  else
    match ((checkedAdd writer.bytes.length 8).bind (checkedAdd · key.length)).bind
        (checkedAdd · value.length) with
    | none => .error ⟨"canonical snapshot size overflow"⟩
    | some stop =>
      if writer.remainingEntries = 0 ∨ stop > writer.expectedBytes then
        .error ⟨"canonical snapshot exceeded its admitted size"⟩
      else
        .ok { writer with
          bytes := writer.bytes ++ leBytes 4 key.length ++ key ++ leBytes 4 value.length ++ value
          remainingEntries := writer.remainingEntries - 1 }

/-- The frame, if it is what was announced. -/
def finish (writer : SnapshotWriter) : Except SnapshotError Bytes :=
  if writer.remainingEntries ≠ 0 ∨ writer.bytes.length ≠ writer.expectedBytes then
    .error ⟨"canonical snapshot changed while being encoded"⟩
  else
    .ok writer.bytes

/-- A writer opened for `count` entries and `size` bytes, fed the entries and finished. -/
def writeAll (keyGroup : UInt32) (count size : Nat) (entries : List Entry) :
    Except SnapshotError Bytes := do
  let writer ← new keyGroup count size
  let writer ← entries.foldlM (fun writer entry => writer.append entry.1 entry.2) writer
  writer.finish

end SnapshotWriter

/-! ## The closed form of a frame -/

/-- The limits of the format: a 32-bit entry count and 32-bit lengths. -/
def EntryFits (entry : Entry) : Prop :=
  entry.1.length < 2 ^ 32 ∧ entry.2.length < 2 ^ 32

/-- The lengths of the entries fit in the format. -/
def Fits (entries : List Entry) : Prop :=
  entries.length < 2 ^ 32 ∧ ∀ entry ∈ entries, EntryFits entry

/-- Bytes behind their length. -/
def framed (bytes : Bytes) : Bytes := leBytes 4 bytes.length ++ bytes

/-- The stored form of an entry. -/
def entryBytes (entry : Entry) : Bytes := framed entry.1 ++ framed entry.2

/-- The stored form of a header. -/
def headerBytes (keyGroup : UInt32) (count : Nat) : Bytes :=
  snapshotMagic ++ leBytes 4 snapshotVersion.toNat ++ leBytes 4 keyGroup.toNat ++ leBytes 4 count

/-- The canonical frame of a list of entries. -/
def frame (keyGroup : UInt32) (entries : List Entry) : Bytes :=
  headerBytes keyGroup entries.length ++ entries.flatMap entryBytes

/-- The number of bytes of an entry in a frame. -/
def entrySize (entry : Entry) : Nat := 8 + entry.1.length + entry.2.length

/-- The size of a frame. -/
def frameSize (entries : List Entry) : Nat := 16 + (entries.map entrySize).sum

@[simp] theorem length_framed (bytes : Bytes) : (framed bytes).length = 4 + bytes.length := by
  simp [framed]

@[simp] theorem length_entryBytes (entry : Entry) : (entryBytes entry).length =
    entrySize entry := by
  simp only [entryBytes, List.length_append, length_framed, entrySize]
  omega

@[simp] theorem length_headerBytes (keyGroup : UInt32) (count : Nat) :
    (headerBytes keyGroup count).length = 16 := by
  simp [headerBytes, snapshotMagic]

@[simp] theorem length_frame (keyGroup : UInt32) (entries : List Entry) :
    (frame keyGroup entries).length = frameSize entries := by
  simp [frame, frameSize, List.length_flatMap]

variable {entries : List Entry}

@[simp] theorem fits_cons :
    (∀ e ∈ entry :: entries, EntryFits e) ↔ EntryFits entry ∧ ∀ e ∈ entries, EntryFits e := by
  simp

theorem eight_mul_length_le_sum_entrySize (entries : List Entry) :
    8 * entries.length ≤ (entries.map entrySize).sum := by
  induction entries with
  | nil => simp
  | cons entry entries ih =>
    simp only [List.length_cons, List.map_cons, List.sum_cons, entrySize]
    omega

/-! ### The encoder produces the frame -/

variable {output result : Bytes} {description : String}

theorem writeLen_eq_ok {value : Nat} : writeLen output value description = .ok result ↔
      value < 2 ^ 32 ∧ result = output ++ leBytes 4 value := by
  unfold writeLen
  split
  · rename_i h
    simp only [Except.ok.injEq, h, true_and]
    exact eq_comm
  · rename_i h
    simp only [reduceCtorEq, h, false_and]

theorem encodeEntry_eq_ok :
    encodeEntry output entry = .ok result ↔ EntryFits entry ∧ result = output ++
        entryBytes entry := by
  simp only [encodeEntry, bind_eq_ok, writeLen_eq_ok, pure_eq_ok, Except.ok.injEq]
  constructor
  · rintro ⟨_, ⟨hkey, rfl⟩, _, ⟨hvalue, rfl⟩, rfl⟩
    exact ⟨⟨hkey, hvalue⟩, by simp [entryBytes, framed]⟩
  · rintro ⟨⟨hkey, hvalue⟩, rfl⟩
    exact ⟨_, ⟨hkey, rfl⟩, _, ⟨hvalue, rfl⟩, by simp [entryBytes, framed]⟩

theorem encodeEntries_eq_ok : entries.foldlM encodeEntry output = .ok result ↔
      (∀ entry ∈ entries, EntryFits entry) ∧ result = output ++ entries.flatMap entryBytes := by
  induction entries generalizing output with
  | nil =>
    simp [eq_comm]
  | cons entry entries ih =>
    rw [List.foldlM_cons, bind_eq_ok]
    simp only [encodeEntry_eq_ok, ih, fits_cons, List.flatMap_cons]
    constructor
    · rintro ⟨_, ⟨hfits, rfl⟩, hrest, rfl⟩
      exact ⟨⟨hfits, hrest⟩, by simp⟩
    · rintro ⟨⟨hfits, hrest⟩, rfl⟩
      exact ⟨_, ⟨hfits, rfl⟩, hrest, by simp⟩

variable {keyGroup : UInt32}

/-- The encoder succeeds exactly within the limits of the format, and then writes the frame. -/
theorem encodeKeyGroupSnapshot_eq_ok {bytes : Bytes} :
    encodeKeyGroupSnapshot keyGroup entries = .ok bytes ↔
      Fits entries ∧ bytes = frame keyGroup entries := by
  simp only [encodeKeyGroupSnapshot, bind_eq_ok, writeLen_eq_ok, encodeEntries_eq_ok, Fits]
  constructor
  · rintro ⟨_, ⟨hcount, rfl⟩, hfits, rfl⟩
    exact ⟨⟨hcount, hfits⟩, rfl⟩
  · rintro ⟨⟨hcount, hfits⟩, rfl⟩
    exact ⟨_, ⟨hcount, rfl⟩, hfits, rfl⟩

/-! ### The readers accept the frame -/

variable {c' : SnapshotInput} {c : SnapshotInput}

namespace SnapshotInput

variable {xs : Bytes}

theorem readExact_eq_ok {len : Nat} :
    readExact c len description = .ok (xs, c') ↔ xs.length = len ∧ c.Reads xs c' := by
  rw [← take?_eq_some]
  unfold readExact
  by_cases hle : c.offset + len ≤ c.bytes.toBytes.length
  · rw [checkedAdd_of_le hle]
    cases c.take? len <;> simp
  · -- past the end of the slice both the checked addition and the subslice are refused
    have hnone : c.take? len = none := by rw [take?, if_neg hle]
    rw [hnone]
    split <;> simp

theorem readU32_eq_ok {n : UInt32} :
    readU32 c description = .ok (n, c') ↔ c.Reads (leBytes 4 n.toNat) c' := by
  simp only [readU32, bind_eq_ok, Prod.exists, readExact_eq_ok, pure_eq_ok,
    Except.ok.injEq, Prod.mk.injEq]
  exact reads_converted _ _ (fun _ => UInt32.toNat_ofNat_of_lt') n.toNat_lt UInt32.ofNat_toNat

theorem readBytes_eq_ok :
    readBytes c description = .ok (xs, c') ↔ xs.length < 2 ^ 32 ∧ c.Reads (framed xs) c' := by
  simp only [readBytes, bind_eq_ok, Prod.exists, readU32_eq_ok, readExact_eq_ok]
  exact reads_lengthPrefixed

end SnapshotInput

theorem readEntry_decodes : Decodes readEntry EntryFits entryBytes := by
  intro c entry c'
  simp only [readEntry, bind_eq_ok, Prod.exists, readBytes_eq_ok, pure_eq_ok,
    Except.ok.injEq, Prod.mk.injEq, entryBytes, reads_append]
  constructor
  · rintro ⟨key, d, ⟨hkey, hr⟩, value, d', ⟨hvalue, hr'⟩, rfl, rfl⟩
    exact ⟨⟨hkey, hvalue⟩, d, hr, hr'⟩
  · rintro ⟨⟨hkey, hvalue⟩, d, hr, hr'⟩
    exact ⟨entry.1, d, ⟨hkey, hr⟩, entry.2, c', ⟨hvalue, hr'⟩, rfl, rfl⟩

/-- The validating walk passes over exactly what the second parse copies. -/
theorem validateEntry_eq_readEntry (c : SnapshotInput) : validateEntry c =
    (readEntry c).map Prod.snd := by
  simp only [validateEntry, readEntry, readBytes, bind_assoc]
  have hkey : "key" ++ " length" = "key length" := by decide
  have hvalue : "value" ++ " length" = "value length" := by decide
  rw [hkey, hvalue]
  rcases readU32 c "key length" with _ | ⟨keyLen, c₁⟩
  · rfl
  rcases hk : readExact c₁ keyLen.toNat "key" with _ | ⟨key, c₂⟩
  · simp [hk, Except.map]
  rcases hl : readU32 c₂ "value length" with _ | ⟨valueLen, c₃⟩
  · simp [hk, hl, Except.map]
  rcases hv : readExact c₃ valueLen.toNat "value" with _ | ⟨value, c₄⟩
  · simp [hk, hl, hv, Except.map]
  · simp [hk, hl, hv, Except.map]

theorem validateEntries_eq_readMany (count : Nat) (c : SnapshotInput) :
    validateEntries count c = (readMany readEntry count c).map Prod.snd := by
  induction count generalizing c with
  | zero => rfl
  | succ count ih =>
    rw [validateEntries, validateEntry_eq_readEntry, readMany]
    rcases readEntry c with _ | ⟨entry, d⟩
    · rfl
    · simp only [Except.map, ok_bind, ih]
      rcases readMany readEntry count d with _ | ⟨entries, d'⟩ <;> rfl

variable {count : Nat}

theorem validateEntries_eq_ok (hc : c.offset ≤ c.bytes.toBytes.length) :
    validateEntries count c = .ok c' ↔ ∃ entries : List Entry, entries.length = count ∧
      (∀ entry ∈ entries, EntryFits entry) ∧ c.Reads (entries.flatMap entryBytes) c' := by
  rw [validateEntries_eq_readMany]
  constructor
  · intro h
    rcases hread : readMany readEntry count c with _ | ⟨entries, d⟩
    · simp [hread, Except.map] at h
    · obtain rfl : d = c' := by simpa [hread, Except.map] using h
      exact ⟨entries, (readEntry_decodes.readMany hc).mp hread⟩
  · rintro ⟨entries, h⟩
    rw [(readEntry_decodes.readMany hc).mpr h]
    rfl

variable {s : Slice}

/-- The header check passes exactly over the header of the expected group, and leaves the cursor
behind it. -/
theorem validateHeader_eq_ok : validateHeader keyGroup s = .ok (count, c) ↔ count < 2 ^ 32 ∧
      count ≤ (s.toBytes.length - 16) / 8 ∧
      (SnapshotInput.new s).Reads (headerBytes keyGroup count) c := by
  simp only [validateHeader, bind_eq_ok, Prod.exists, readExact_eq_ok, readU32_eq_ok,
    ite_error_eq_ok, ne_eq,
    not_not, Except.ok.injEq, Prod.mk.injEq, headerBytes, reads_append]
  constructor
  · rintro ⟨_, c₁, ⟨-, hmagic⟩, rfl, _, c₂, hversion, rfl, _, c₃, hgroup, rfl, n, _,
      hcount, hn, rfl, rfl⟩
    exact ⟨n.toNat_lt, by omega, c₃, ⟨c₂, ⟨c₁, hmagic, hversion⟩, hgroup⟩, hcount⟩
  · rintro ⟨hlt, hle, c₃, ⟨c₂, ⟨c₁, hmagic, hversion⟩, hgroup⟩, hcount⟩
    have hn : (UInt32.ofNat count).toNat = count := UInt32.toNat_ofNat_of_lt' hlt
    exact ⟨_, c₁, ⟨rfl, hmagic⟩, rfl, _, c₂, hversion, rfl, _, c₃, hgroup, rfl,
      UInt32.ofNat count, c,
      hn.symm ▸ hcount, by omega, hn, rfl⟩

/-- **Acceptance.**  A slice validates for a group exactly if it is the frame of some list of
entries, and the answer is the number of these entries. -/
theorem validateKeyGroupSnapshot_eq_ok : validateKeyGroupSnapshot keyGroup s = .ok count ↔
      ∃ entries, Fits entries ∧ s.toBytes = frame keyGroup entries ∧ entries.length = count := by
  simp only [validateKeyGroupSnapshot, bind_eq_ok, Prod.exists, validateHeader_eq_ok]
  constructor
  · rintro ⟨n, c, ⟨hlt, -, hheader⟩, c', hwalk, h⟩
    have hc : c.offset ≤ c.bytes.toBytes.length := hheader.bytes_eq ▸ hheader.offset_le
    obtain ⟨entries, rfl, hfits, hr⟩ := (validateEntries_eq_ok hc).mp hwalk
    split at h
    · rename_i hempty
      obtain rfl : entries.length = count := by simpa using h
      have hread : (SnapshotInput.new s).Reads (frame keyGroup entries) c' :=
        reads_append.mpr ⟨c, hheader, hr⟩
      have hend : c'.offset = s.toBytes.length := by
        have : c'.offset = c'.bytes.toBytes.length := by simpa [SnapshotInput.isEmpty] using hempty
        rw [this, hread.bytes_eq]
        rfl
      exact ⟨entries, ⟨hlt, hfits⟩, (reads_from_start.mp ⟨hread, hend⟩).1, rfl⟩
    · cases h
  · rintro ⟨entries, ⟨hlt, hfits⟩, hs, rfl⟩
    obtain ⟨hread, hend⟩ := reads_from_start.mpr ⟨hs, rfl⟩
    obtain ⟨c, hheader, hr⟩ := reads_append.mp hread
    have hc : c.offset ≤ c.bytes.toBytes.length := hheader.bytes_eq ▸ hheader.offset_le
    have hsize : s.toBytes.length = frameSize entries := by rw [hs, length_frame]
    have hcount : entries.length ≤ (s.toBytes.length - 16) / 8 := by
      have := eight_mul_length_le_sum_entrySize entries
      rw [hsize, frameSize]
      omega
    refine ⟨_, c, ⟨hlt, hcount, hheader⟩, _,
      (validateEntries_eq_ok hc).mpr ⟨entries, rfl, hfits, hr⟩, ?_⟩
    simp [SnapshotInput.isEmpty]

/-- Behind the header of a frame stand its entries. -/
theorem reads_entries_of_frame (hs : s.toBytes = frame keyGroup entries) :
    ∃ c', (mk s 16).Reads (entries.flatMap entryBytes) c' :=
  ⟨_, headerBytes keyGroup entries.length, [], by simp [hs, frame], by simp, rfl⟩

theorem offset_le_of_frame (hs : s.toBytes = frame keyGroup entries) : 16 ≤ s.toBytes.length := by
  simp [hs, frameSize]

/-- The decoder returns a list exactly on the frame of that list. -/
theorem decodeKeyGroupSnapshot_eq_ok : decodeKeyGroupSnapshot keyGroup s = .ok entries ↔
      Fits entries ∧ s.toBytes = frame keyGroup entries := by
  have decodes : ∀ {es : List Entry}, Fits es → s.toBytes = frame keyGroup es →
      decodeKeyGroupSnapshot keyGroup s = .ok es := by
    intro es hfits hs
    obtain ⟨c', hr⟩ := reads_entries_of_frame hs
    simp only [decodeKeyGroupSnapshot, bind_eq_ok, Prod.exists]
    exact ⟨_, validateKeyGroupSnapshot_eq_ok.mpr ⟨es, hfits, hs, rfl⟩, es, c',
      (readEntry_decodes.readMany (offset_le_of_frame hs)).mpr ⟨rfl, hfits.2, hr⟩, rfl⟩
  constructor
  · intro h
    have hvalidate := h
    simp only [decodeKeyGroupSnapshot, bind_eq_ok] at hvalidate
    obtain ⟨count, hcount, -⟩ := hvalidate
    obtain ⟨es, hfits, hs, -⟩ := validateKeyGroupSnapshot_eq_ok.mp hcount
    obtain rfl : entries = es := by simpa [h] using decodes hfits hs
    exact ⟨hfits, hs⟩
  · rintro ⟨hfits, hs⟩
    exact decodes hfits hs

variable {g g' : UInt32}

theorem headerBytes_injective {n n' : Nat} (hn : n < 2 ^ 32) (hn' : n' < 2 ^ 32)
    (h : headerBytes g n = headerBytes g' n') : g = g' ∧ n = n' := by
  obtain ⟨h, hcount⟩ := List.append_inj h (by simp)
  obtain ⟨-, hgroup⟩ := List.append_inj h (by simp)
  exact ⟨UInt32.toNat_inj.mp (leBytes_injective g.toNat_lt g'.toNat_lt hgroup),
    leBytes_injective hn hn' hcount⟩

/-- **Frames are prefix-free.**  A frame that starts with another frame is that frame. -/
theorem frame_prefix_free {entries' : List Entry} {rest : Bytes} (hfits : Fits entries)
    (hfits' : Fits entries')
    (hs : s.toBytes = frame g entries) (hs' : s.toBytes = frame g' entries' ++ rest) :
    g = g' ∧ entries = entries' ∧ rest = [] := by
  have hframes : headerBytes g entries.length ++ entries.flatMap entryBytes =
      headerBytes g' entries'.length ++ (entries'.flatMap entryBytes ++ rest) := by
    rw [← List.append_assoc]
    exact hs.symm.trans hs'
  obtain ⟨hheader, htail⟩ := List.append_inj hframes (by simp)
  obtain ⟨rfl, hlen⟩ := headerBytes_injective hfits.1 hfits'.1 hheader
  -- both lists are what the entry reader finds behind the header
  obtain ⟨c, hr⟩ := reads_entries_of_frame hs
  have hr' : ∃ c', (mk s 16).Reads (entries'.flatMap entryBytes) c' :=
    ⟨_, headerBytes g entries'.length, rest, by rw [hs', frame, List.append_assoc], by simp, rfl⟩
  obtain ⟨c', hr'⟩ := hr'
  have hoff := offset_le_of_frame hs
  have e := (readEntry_decodes.readMany hoff).mpr ⟨rfl, hfits.2, hr⟩
  have e' := (readEntry_decodes.readMany hoff).mpr ⟨hlen.symm, hfits'.2, hr'⟩
  obtain ⟨rfl, -⟩ : entries = entries' ∧ c = c' := by simpa using e.symm.trans e'
  refine ⟨rfl, rfl, ?_⟩
  simpa using htail

/-! ### The iterator never panics on a validated frame -/

namespace Entries

theorem expect_eq_ok {α : Type} {result : Except SnapshotError α} {message : String} {a : α} :
    expect result message = .ok a ↔ result = .ok a := by
  cases result <;> simp [expect]

/-- One step of the iterator in front of an entry. -/
theorem next_of_reads {n : Nat} (hfits : EntryFits entry) (hr : c.Reads (entryBytes entry) c') :
    (Entries.mk c (n + 1)).next = .ok (some (entry, ⟨c', n⟩)) := by
  simp only [entryBytes, framed, reads_append] at hr
  obtain ⟨c₂, ⟨c₁, hkeyLen, hkey⟩, c₃, hvalueLen, hvalue⟩ := hr
  have hk : (UInt32.ofNat entry.1.length).toNat = entry.1.length :=
    UInt32.toNat_ofNat_of_lt' hfits.1
  have hv : (UInt32.ofNat entry.2.length).toNat = entry.2.length :=
    UInt32.toNat_ofNat_of_lt' hfits.2
  simp only [next, Nat.add_eq_zero_iff, Nat.one_ne_zero, and_false, if_false, bind_eq_ok,
    Prod.exists, expect_eq_ok, readU32_eq_ok, readExact_eq_ok]
  exact ⟨UInt32.ofNat entry.1.length, c₁, hk.symm ▸ hkeyLen, entry.1, c₂, ⟨hk.symm, hkey⟩,
    UInt32.ofNat entry.2.length, c₃, hv.symm ▸ hvalueLen, entry.2, c', ⟨hv.symm, hvalue⟩, rfl⟩

/-- The entries of a checked frame are read one by one. -/
theorem collect_of_reads (hfits : ∀ entry ∈ entries, EntryFits entry)
    (hr : c.Reads (entries.flatMap entryBytes) c') :
    (Entries.mk c entries.length).collect = .ok entries := by
  induction entries generalizing c with
  | nil =>
    rw [collect]
    simp [next]
  | cons entry entries ih =>
    rw [List.flatMap_cons, reads_append] at hr
    obtain ⟨d, hr₁, hr₂⟩ := hr
    obtain ⟨hfit, hfits⟩ := fits_cons.mp hfits
    have hnext := next_of_reads (n := entries.length) hfit hr₁
    rw [collect]
    split
    · rename_i h
      simp [hnext] at h
    · rename_i h
      simp [hnext] at h
    · rename_i h
      obtain ⟨rfl, rfl⟩ : entry = _ ∧ Entries.mk d entries.length = _ := by
        simpa [hnext] using h
      rw [ih hfits hr₂]
      rfl

end Entries

/-! ### The sized writer produces the frame -/

namespace SnapshotWriter

variable {size : Nat} {writer : SnapshotWriter}

theorem new_eq_ok : new keyGroup count size = .ok writer ↔
      (count < 2 ^ 32 ∧ 16 + 8 * count ≤ size) ∧
          writer = ⟨headerBytes keyGroup count, size, count⟩ := by
  simp only [new, keyGroupSnapshotHeader, bind_eq_ok, pure_eq_ok, Except.ok.injEq]
  constructor
  · rintro ⟨header, h, rfl⟩
    split at h
    · split at h
      · cases h
      · obtain rfl : _ = header := Except.ok.inj h
        exact ⟨⟨by assumption, by omega⟩, rfl⟩
    · cases h
  · rintro ⟨⟨hcount, hsize⟩, rfl⟩
    refine ⟨headerBytes keyGroup count, ?_, rfl⟩
    rw [if_pos hcount, if_neg (by omega)]
    rfl

variable {writer' : SnapshotWriter}

/-- What fits in the announced frame is added. -/
theorem append_eq_ok : writer.append entry.1 entry.2 = .ok writer' ↔
      (EntryFits entry ∧ writer.bytes.length + entrySize entry < usizeLimit ∧
        writer.remainingEntries ≠ 0 ∧
        writer.bytes.length + entrySize entry ≤ writer.expectedBytes) ∧
      writer' = { writer with
        bytes := writer.bytes ++ entryBytes entry
        remainingEntries := writer.remainingEntries - 1 } := by
  unfold append EntryFits entrySize
  split
  · simp; omega
  split
  · simp; omega
  rw [checkedAdd_chain]
  by_cases hbound : writer.bytes.length + (8 + entry.1.length + entry.2.length) < usizeLimit
  · rw [checkedAdd_eq_some.mpr ⟨hbound, rfl⟩]
    simp only [gt_iff_lt]
    split
    · simp
      omega
    · simp only [Except.ok.injEq, entryBytes, framed, List.append_assoc]
      constructor
      · rintro rfl
        exact ⟨⟨⟨by omega, by omega⟩, hbound, by omega, by omega⟩, rfl⟩
      · rintro ⟨-, rfl⟩
        rfl
  · have hnone : checkedAdd writer.bytes.length (8 + entry.1.length + entry.2.length) = none :=
      if_neg hbound
    rw [hnone]
    simp [hbound]

/-- The writer's loop: it runs through exactly if every entry fits and the announced entries and
bytes are not exceeded. -/
theorem appendAll_eq_ok (hcount : writer.remainingEntries = entries.length)
    (hsize : writer.bytes.length < usizeLimit ∧ writer.bytes.length ≤ writer.expectedBytes) :
    entries.foldlM (fun writer entry => writer.append entry.1 entry.2) writer = .ok writer' ↔
      ((∀ entry ∈ entries, EntryFits entry) ∧
        writer.bytes.length + (entries.map entrySize).sum < usizeLimit ∧
        writer.bytes.length + (entries.map entrySize).sum ≤ writer.expectedBytes) ∧
      writer' = ⟨writer.bytes ++ entries.flatMap entryBytes, writer.expectedBytes, 0⟩ := by
  induction entries generalizing writer with
  | nil =>
    obtain ⟨bytes, expected, remaining⟩ := writer
    obtain rfl : remaining = 0 := hcount
    simpa [eq_comm] using fun _ => hsize
  | cons entry entries ih =>
    simp only [List.foldlM_cons, bind_eq_ok, append_eq_ok, fits_cons, List.map_cons,
      List.sum_cons, List.flatMap_cons]
    constructor
    · rintro ⟨_, ⟨⟨hfit, hlt, -, hle⟩, rfl⟩, hrest⟩
      have hstep := (ih (by simp [hcount]) (by simpa using ⟨hlt, hle⟩)).mp hrest
      obtain ⟨⟨hfits, hlt', hle'⟩, rfl⟩ := hstep
      simp only [List.length_append, length_entryBytes] at hlt' hle'
      exact ⟨⟨⟨hfit, hfits⟩, by omega, by omega⟩, by simp⟩
    · rintro ⟨⟨⟨hfit, hfits⟩, hlt, hle⟩, rfl⟩
      refine ⟨_, ⟨⟨hfit, by omega, by simp [hcount], by omega⟩, rfl⟩, ?_⟩
      rw [ih (by simp [hcount]) (by simp; omega)]
      refine ⟨⟨hfits, ?_, ?_⟩, by simp⟩ <;> simp <;> omega

/-- The sized writer succeeds exactly if the entries fit the format and the announced size is the
size of the frame, and then returns the frame. -/
theorem writeAll_eq_ok {bytes : Bytes} (hsize : size < usizeLimit) :
    writeAll keyGroup entries.length size entries = .ok bytes ↔
      Fits entries ∧ size = frameSize entries ∧ bytes = frame keyGroup entries := by
  have hmin := eight_mul_length_le_sum_entrySize entries
  simp only [writeAll, bind_eq_ok, new_eq_ok, Fits]
  constructor
  · rintro ⟨_, ⟨⟨hcount, hle⟩, rfl⟩, writer, hloop, hfinish⟩
    rw [appendAll_eq_ok rfl (by simp; omega)] at hloop
    obtain ⟨⟨hfits, -, -⟩, rfl⟩ := hloop
    simp only [finish] at hfinish
    split at hfinish
    · cases hfinish
    · rename_i hdone
      obtain rfl := Except.ok.inj hfinish
      have hlen : (frame keyGroup entries).length = size := by
        by_contra hne
        exact hdone (Or.inr hne)
      exact ⟨⟨hcount, hfits⟩, by rw [← hlen, length_frame], rfl⟩
  · rintro ⟨⟨hcount, hfits⟩, rfl, rfl⟩
    refine ⟨_, ⟨⟨hcount, by simp only [frameSize]; omega⟩, rfl⟩,
      ⟨frame keyGroup entries, frameSize entries, 0⟩, ?_, ?_⟩
    · have hheader : 16 ≤ frameSize entries := Nat.le_add_right _ _
      rw [appendAll_eq_ok rfl (by simp; omega)]
      exact ⟨⟨hfits, by simpa [frameSize] using hsize, by simp [frameSize]⟩, rfl⟩
    · rw [finish, if_neg (by simp)]

end SnapshotWriter

/-! ## Faithfulness -/

/-- **The canonical frame is a faithful format.**  For every key group:

1. every list within the 32-bit limits has an encoding, and the decoder returns the list from it;
2. the validator and the decoder accept a slice exactly if it is the encoding of some list for the
   group; in particular they reject every proper prefix and every proper extension of an encoding,
   and every encoding for another group;
3. the sized writer, opened with the exact size, writes the encoder's bytes;
4. on every accepted slice the borrowed iterator runs to its end without a panic and yields the list
   the decoder returns. -/
theorem key_group_snapshot_faithful (g : UInt32) :
    (∀ entries, Fits entries → ∃ bytes, encodeKeyGroupSnapshot g entries = .ok bytes) ∧
    (∀ entries (s : Slice), encodeKeyGroupSnapshot g entries = .ok s.toBytes →
      decodeKeyGroupSnapshot g s = .ok entries) ∧
    (∀ s : Slice, (∃ count, validateKeyGroupSnapshot g s = .ok count) ↔
      ∃ entries, encodeKeyGroupSnapshot g entries = .ok s.toBytes) ∧
    (∀ s : Slice, (∃ entries, decodeKeyGroupSnapshot g s = .ok entries) ↔
      ∃ entries, encodeKeyGroupSnapshot g entries = .ok s.toBytes) ∧
    (∀ entries (s t : Slice) (extra : Bytes), encodeKeyGroupSnapshot g entries = .ok s.toBytes →
      extra ≠ [] → s.toBytes = t.toBytes ++ extra ∨ t.toBytes = s.toBytes ++ extra →
      (∀ count, validateKeyGroupSnapshot g t ≠ .ok count) ∧ ∀ es,
        decodeKeyGroupSnapshot g t ≠ .ok es) ∧
    (∀ entries (s : Slice) (g' : UInt32), encodeKeyGroupSnapshot g' entries = .ok s.toBytes →
      g' ≠ g → (∀ count, validateKeyGroupSnapshot g s ≠ .ok count) ∧
        ∀ es, decodeKeyGroupSnapshot g s ≠ .ok es) ∧
    (∀ entries (s : Slice), encodeKeyGroupSnapshot g entries = .ok s.toBytes →
      SnapshotWriter.writeAll g entries.length s.toBytes.length entries = .ok s.toBytes) ∧
    (∀ (s : Slice) (count : Nat), validateKeyGroupSnapshot g s = .ok count →
      ∃ iterator entries, keyGroupSnapshotEntries g s = .ok iterator ∧
        iterator.collect = .ok entries ∧ decodeKeyGroupSnapshot g s = .ok entries) := by
  have accepts_iff : ∀ s : Slice, (∃ count, validateKeyGroupSnapshot g s = .ok count) ↔
      ∃ entries, encodeKeyGroupSnapshot g entries = .ok s.toBytes := by
    intro s
    simp only [validateKeyGroupSnapshot_eq_ok, encodeKeyGroupSnapshot_eq_ok]
    constructor
    · rintro ⟨_, entries, hfits, hs, -⟩
      exact ⟨entries, hfits, hs⟩
    · rintro ⟨entries, hfits, hs⟩
      exact ⟨_, entries, hfits, hs, rfl⟩
  have decodes_iff : ∀ s : Slice, (∃ entries, decodeKeyGroupSnapshot g s = .ok entries) ↔
      ∃ entries, encodeKeyGroupSnapshot g entries = .ok s.toBytes := by
    intro s
    simp only [decodeKeyGroupSnapshot_eq_ok, encodeKeyGroupSnapshot_eq_ok]
  have rejects : ∀ s : Slice, (∀ entries, encodeKeyGroupSnapshot g entries ≠ .ok s.toBytes) →
      (∀ count, validateKeyGroupSnapshot g s ≠ .ok count) ∧ ∀ es,
          decodeKeyGroupSnapshot g s ≠ .ok es := by
    intro s hnone
    constructor
    · intro count hcount
      obtain ⟨entries, h⟩ := (accepts_iff s).mp ⟨count, hcount⟩
      exact hnone entries h
    · intro es hes
      obtain ⟨entries, h⟩ := (decodes_iff s).mp ⟨es, hes⟩
      exact hnone entries h
  refine ⟨?_, ?_, accepts_iff, decodes_iff, ?_, ?_, ?_, ?_⟩
  · intro entries hfits
    exact ⟨_, encodeKeyGroupSnapshot_eq_ok.mpr ⟨hfits, rfl⟩⟩
  · intro entries s h
    exact decodeKeyGroupSnapshot_eq_ok.mpr (encodeKeyGroupSnapshot_eq_ok.mp h)
  · intro entries s t extra h hextra hst
    apply rejects t
    intro entries' h'
    obtain ⟨hfits, hs⟩ := encodeKeyGroupSnapshot_eq_ok.mp h
    obtain ⟨hfits', ht⟩ := encodeKeyGroupSnapshot_eq_ok.mp h'
    rcases hst with hst | hst
    · exact hextra (frame_prefix_free hfits hfits' hs (hst.trans (by rw [ht]))).2.2
    · exact hextra (frame_prefix_free hfits' hfits ht (hst.trans (by rw [hs]))).2.2
  · intro entries s g' h hne
    apply rejects s
    intro entries' h'
    obtain ⟨hfits, hs⟩ := encodeKeyGroupSnapshot_eq_ok.mp h
    obtain ⟨hfits', hs'⟩ := encodeKeyGroupSnapshot_eq_ok.mp h'
    exact hne (frame_prefix_free hfits hfits' hs (by rw [hs', List.append_nil])).1
  · intro entries s h
    obtain ⟨hfits, hs⟩ := encodeKeyGroupSnapshot_eq_ok.mp h
    rw [SnapshotWriter.writeAll_eq_ok s.length_lt_usizeLimit]
    exact ⟨hfits, by rw [hs, length_frame], hs⟩
  · intro s count h
    obtain ⟨entries, hfits, hs, rfl⟩ := validateKeyGroupSnapshot_eq_ok.mp h
    obtain ⟨c', hr⟩ := reads_entries_of_frame hs
    refine ⟨⟨⟨s, 16⟩, entries.length⟩, entries, ?_, ?_, ?_⟩
    · simp [keyGroupSnapshotEntries, h]
    · exact Entries.collect_of_reads hfits.2 hr
    · exact decodeKeyGroupSnapshot_eq_ok.mpr ⟨hfits, hs⟩

end StreamFusion.Snapshot
