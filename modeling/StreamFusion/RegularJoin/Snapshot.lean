import StreamFusion.RegularJoin.PagedCodec

/-!
# Validating a snapshot of the regular join

The validator goes over the manifests of a snapshot once, looks up what each names and counts; a
record that no manifest names shows only in the count.  The count is right because a record belongs
to one manifest and is named there once, so what has been counted is a set of records of the
snapshot, and it is all of them exactly if it has as many.
-/

namespace StreamFusion.RegularJoin

open State Wire Except List

/-! ## One manifest of a snapshot -/

/-- The record of a reference is there and decodes. -/
def Resolves (get : Bytes → Option Bytes) (key : Bytes) (manifest : Manifest)
    (reference : Side × Nat) : Prop :=
  ∃ bytes rows, get (entryKey key reference.1 reference.2 manifest.layout) = some bytes ∧
    decodeEntry bytes reference.2 (manifest.nextRowId reference.1) manifest.layout = .ok rows

/-- A manifest decodes to a state that is not empty, and so does every record that it names. -/
def Decodes (get : Bytes → Option Bytes) (key : Bytes) (manifest : Manifest) : Prop :=
  manifest.Live ∧ ∀ reference ∈ manifest.external, Resolves get key manifest reference

variable {entries : Records} {key : Bytes} {manifest : Manifest} {reference : Side × Nat}

theorem validateReference_eq_ok :
    validateReference entries key reference.1 reference.2 (manifest.nextRowId reference.1)
      manifest.layout =
        .ok () ↔
      Resolves (lookup entries) key manifest reference := by
  rw [validateReference, Resolves]
  rcases lookup entries (entryKey key reference.1 reference.2 manifest.layout) with _ | bytes
  · simp
  · simp only [validatePage, bind_eq_ok, Option.some.injEq]
    constructor
    · rintro ⟨_, -, rows, hrows, -⟩
      exact ⟨bytes, rows, rfl, hrows⟩
    · rintro ⟨_, rows, rfl, hrows⟩
      obtain ⟨⟨count, hcount⟩, -⟩ := decodeEntry_spec hrows
      exact ⟨count, hcount, rows, hrows, trivial⟩

/-- The keys of the records that a manifest record accounts for. -/
def recordKeys (record : Bytes × Bytes) : List Bytes :=
  manifestKey record.1 ::
    match decodeManifest record.2 with
    | .ok manifest => manifest.external.map fun reference =>
      entryKey record.1 reference.1 reference.2 manifest.layout
    | .error _ => []

variable {record : Bytes × Bytes}

theorem length_recordKeys (h : decodeManifest record.2 = .ok manifest) :
    (recordKeys record).length = 1 + manifest.external.length := by
  rw [recordKeys, h, length_cons, length_map, Nat.add_comm]

variable {count : Nat}

theorem visitRecord_eq_ok : visitManifestEntries record.2
    (validateReference entries record.1) = .ok count ↔
      (∃ manifest, decodeManifest record.2 = .ok manifest ∧
        Decodes (lookup entries) record.1 manifest) ∧
        1 + count = (recordKeys record).length := by
  rw [visitManifestEntries_eq_ok]
  simp only [validateReference_eq_ok]
  constructor
  · rintro ⟨manifest, hdecode, hlive, hresolves, rfl⟩
    exact ⟨⟨manifest, hdecode, hlive, hresolves⟩, (length_recordKeys hdecode).symm⟩
  · rintro ⟨⟨manifest, hdecode, hlive, hresolves⟩, hcount⟩
    rw [length_recordKeys hdecode] at hcount
    exact ⟨manifest, hdecode, hlive, hresolves, Nat.add_left_cancel hcount⟩

/-! ## The rows of a manifest -/

theorem mapM_rows_ok {entry : Nat → Result StoredRows} {ids : List Nat}
    (h : ∀ id ∈ ids, ∃ rows, entry id = .ok rows ∧ rows ≠ []) :
    ∃ pages, ids.mapM entry = .ok pages ∧ (pages.flatten = [] ↔ ids = []) := by
  obtain ⟨pages, hpages⟩ := exists_mapM_eq_ok.mpr fun id hmem => (h id hmem).imp fun _ => And.left
  refine ⟨pages, hpages, ?_⟩
  cases mapM_eq_ok.mp hpages with
  | nil => exact ⟨fun _ => rfl, fun _ => rfl⟩
  | cons hrows _ =>
    obtain ⟨rows, hrows', hne⟩ := h _ mem_cons_self
    obtain rfl := ok.inj (hrows'.symm.trans hrows)
    simp [hne]

variable {entry : Side → Nat → Result StoredRows}

/-- A state is read if every record gives rows, and it is empty only if the manifest stands for no
row. -/
theorem manifestState_ok
    (h : ∀ reference ∈ manifest.external, ∃ rows,
      entry reference.1 reference.2 = .ok rows ∧ rows ≠ []) :
    ∃ state, manifestState entry manifest = .ok state ∧
      (¬ (state.rows .left = [] ∧ state.rows .right = []) ↔ manifest.Live) := by
  rw [manifestState]
  rcases hinline : manifest.inline with _ | rows
  · rw [external_of_none hinline] at h
    rw [live_of_none hinline]
    have hside (side : Side) := @mapM_rows_ok (entry side) (manifest.pages side).iter
      fun id hmem => h (side, id) (mem_references.mpr hmem)
    obtain ⟨left, hleft, hleftNil⟩ := hside .left
    obtain ⟨right, hright, hrightNil⟩ := hside .right
    refine ⟨_, bind_eq_ok.mpr ⟨left, hleft, bind_eq_ok.mpr ⟨right, hright, rfl⟩⟩, ?_⟩
    show ¬ (left.flatten = [] ∧ right.flatten = []) ↔ _
    rw [hleftNil, hrightNil, Manifest.references, Ne, append_eq_nil_iff,
      map_eq_nil_iff, map_eq_nil_iff]
  · refine ⟨_, rfl, ?_⟩
    rw [Manifest.Live, hinline]

theorem mapM_congr {entry entry' : Nat → Result StoredRows} {ids : List Nat}
    (h : ∀ id ∈ ids, entry id = entry' id) : ids.mapM entry = ids.mapM entry' := by
  induction ids with
  | nil => rfl
  | cons id ids ih =>
    obtain ⟨hid, hids⟩ := forall_mem_cons.mp h
    rw [mapM_cons, mapM_cons, hid, ih hids]

theorem manifestState_congr {entry' : Side → Nat → Result StoredRows}
    (h : ∀ reference ∈ manifest.external,
      entry reference.1 reference.2 = entry' reference.1 reference.2) :
    manifestState entry manifest = manifestState entry' manifest := by
  rw [manifestState, manifestState]
  rcases hinline : manifest.inline with _ | rows
  · rw [external_of_none hinline] at h
    have hside (side : Side) :
        (manifest.pages side).iter.mapM (entry side) =
            (manifest.pages side).iter.mapM (entry' side) :=
      mapM_congr fun id hmem => h (side, id) (mem_references.mpr hmem)
    rw [gather, gather, hside, hside]
  · rfl

theorem manifestState_eq_ok {state : JoinState Bytes}
    (h : manifestState entry manifest = .ok state) :
    ∀ reference ∈ manifest.external, ∃ rows, entry reference.1 reference.2 = .ok rows := by
  rw [manifestState] at h
  rcases hinline : manifest.inline with _ | rows
  · rw [hinline] at h
    obtain ⟨left, hleft, htail⟩ := bind_eq_ok.mp h
    obtain ⟨right, hright, -⟩ := bind_eq_ok.mp htail
    rw [external_of_none hinline]
    rintro ⟨side, id⟩ hmem
    rw [mem_references] at hmem
    cases side
    · exact exists_mapM_eq_ok.mp ⟨left, hleft⟩ id hmem
    · exact exists_mapM_eq_ok.mp ⟨right, hright⟩ id hmem
  · rw [Manifest.external, hinline]
    exact forall_mem_nil _

variable {get : Bytes → Option Bytes}

theorem referencedRows_eq_ok :
    (∃ rows, referencedRows get key manifest reference.1 reference.2 = .ok rows) ↔
      Resolves get key manifest reference := by
  rw [Resolves]
  simp only [referencedRows]
  rcases get (entryKey key reference.1 reference.2 manifest.layout) with _ | bytes <;> simp

/-- A record that resolves is loaded as it is decoded, and has a row. -/
theorem Resolves.loadEntry (h : Resolves get key manifest reference) :
    ∃ rows, referencedRows get key manifest reference.1 reference.2 = .ok rows ∧ rows ≠ [] ∧
      RegularJoin.loadEntry get key manifest reference.1 reference.2 = .ok rows := by
  obtain ⟨bytes, rows, hget, hrows⟩ := h
  obtain ⟨⟨count, hcount⟩, hne⟩ := decodeEntry_spec hrows
  refine ⟨rows, ?_, hne, ?_⟩
  · rw [referencedRows, hget]
    exact hrows
  · rw [RegularJoin.loadEntry, hget]
    exact bind_eq_ok.mpr ⟨count, hcount, hrows⟩

variable {value : Bytes}

/-- A manifest that decodes is loaded as a snapshot decodes it. -/
theorem Decodes.state
    (hmanifest : decodeManifest value = .ok manifest) (h : Decodes (lookup entries) key manifest) :
    ∃ state, decodeRecord entries key value = .ok (state, 1 + manifest.external.length) ∧
      (lookup entries (manifestKey key) = some value →
          loadState (lookup entries) key = .ok state) := by
  have hload := fun reference hmem => (h.2 reference hmem).loadEntry
  obtain ⟨state, hstate, hlive⟩ := manifestState_ok fun reference hmem =>
    (hload reference hmem).imp fun _ hrows => ⟨hrows.1, hrows.2.1⟩
  refine ⟨state, ?_, fun hlookup => ?_⟩
  · have hmagic := isManifest_of_decodeManifest hmanifest
    rw [decodeRecord, if_neg (not_not_intro hmagic), hmanifest, ok_bind, hstate, ok_bind,
      if_neg (hlive.mpr h.1)]
  · rw [loadState, hlookup]
    dsimp only
    rw [manifestWorkspace_of_decodeManifest hmanifest, ok_bind, hmanifest, ok_bind, ← hstate]
    refine manifestState_congr fun reference hmem => ?_
    obtain ⟨rows, hdecoded, -, hloaded⟩ := hload reference hmem
    rw [hdecoded, hloaded]

/-- A record that is read has all its entries. -/
theorem decodeRecord_eq_ok
    {state : JoinState Bytes} (h : decodeRecord entries record.1 record.2 = .ok (state, count)) :
    (∃ manifest, decodeManifest record.2 = .ok manifest ∧
      Decodes (lookup entries) record.1 manifest) ∧
      count = (recordKeys record).length := by
  rw [decodeRecord] at h
  split at h
  · cases h
  obtain ⟨manifest, hmanifest, htail⟩ := bind_eq_ok.mp h
  obtain ⟨state', hstate, hlive⟩ := bind_eq_ok.mp htail
  split at hlive
  · cases hlive
  rename_i hne
  obtain ⟨rfl, rfl⟩ := Prod.mk.inj (ok.inj hlive)
  have hresolves := fun reference hmem =>
    referencedRows_eq_ok.mp (manifestState_eq_ok hstate reference hmem)
  obtain ⟨state'', hstate', hlive'⟩ := manifestState_ok fun reference hmem =>
    (hresolves reference hmem).loadEntry.imp fun _ hrows => ⟨hrows.1, hrows.2.1⟩
  obtain rfl := ok.inj (hstate.symm.trans hstate')
  exact ⟨⟨manifest, hmanifest, hlive'.mp hne, hresolves⟩, (length_recordKeys hmanifest).symm⟩

/-! ## A whole snapshot -/

theorem mem_of_lookup (h : lookup entries key = some value) : (key, value) ∈ entries := by
  obtain ⟨entry, hfind, rfl⟩ := Option.map_eq_some_iff.mp h
  obtain rfl : entry.1 = key := by simpa using List.find?_some hfind
  exact mem_of_find?_eq_some hfind

theorem lookup_of_mem (hnodup : (entries.map Prod.fst).Nodup)
    (h : (key, value) ∈ entries) : lookup entries key = some value := by
  rw [lookup, Option.map_eq_some_iff]
  refine ⟨(key, value), ?_, rfl⟩
  rcases hfind : entries.find? fun entry => entry.1 = key with _ | entry
  · simpa using List.find?_eq_none.mp hfind _ h
  · have hkey : entry.1 = key := by simpa using List.find?_some hfind
    rw [hfind, inj_on_of_nodup_map hnodup (mem_of_find?_eq_some hfind) h hkey]

variable {stored : Bytes}

theorem logicalKey_eq_some : logicalKey stored = some key ↔ stored = manifestKey key := by
  cases stored with
  | nil => simp [logicalKey, manifestKey]
  | cons tag stored =>
    rw [logicalKey, manifestKey, List.cons.injEq]
    split
    · rename_i htag
      simp [htag]
    · rename_i htag
      simp [htag]

theorem mem_manifestRecords : (key, value) ∈ manifestRecords entries ↔
    (manifestKey key, value) ∈ entries := by
  simp [manifestRecords, logicalKey_eq_some, Prod.ext_iff]

/-- A manifest names each of its records once. -/
theorem nodup_external (h : decodeManifest value = .ok manifest) : manifest.external.Nodup := by
  have hiter (side : Side) : (manifest.pages side).iter.Nodup :=
    (decodeManifest_ordered h side).increasing.imp Nat.ne_of_lt
  rw [Manifest.external]
  split
  · exact nodup_nil
  · refine nodup_append.mpr ⟨(hiter .left).map (Prod.mk_right_injective _),
      (hiter .right).map (Prod.mk_right_injective _), ?_⟩
    intro reference hleft reference' hright heq
    obtain ⟨_, _, rfl⟩ := mem_map.mp hleft
    obtain ⟨_, _, rfl⟩ := mem_map.mp hright
    cases heq

theorem external_lt (h : decodeManifest value = .ok manifest)
    (hmem : reference ∈ manifest.external) : reference.2 < 2 ^ 64 := by
  rw [Manifest.external] at hmem
  split at hmem
  · cases hmem
  · exact (decodeManifest_ordered h reference.1).bounded reference.2 (mem_references.mp hmem)

theorem mem_recordKeys : stored ∈ recordKeys record ↔ stored = manifestKey record.1 ∨
      ∃ manifest, decodeManifest record.2 = .ok manifest ∧ ∃ reference ∈ manifest.external,
          entryKey record.1 reference.1 reference.2 manifest.layout = stored := by
  rw [recordKeys, mem_cons]
  rcases decodeManifest record.2 with _ | manifest <;> simp

theorem nodup_recordKeys (record : Bytes × Bytes) : (recordKeys record).Nodup := by
  refine nodup_cons.mpr ⟨?_, ?_⟩
  · rcases decodeManifest record.2 with _ | manifest
    · exact not_mem_nil
    · intro hmem
      obtain ⟨_, _, heq⟩ := mem_map.mp hmem
      exact entryKey_ne_manifestKey _ _ _ _ _ heq
  · rcases hdecode : decodeManifest record.2 with _ | manifest
    · exact nodup_nil
    · refine (nodup_external hdecode).map_on ?_
      intro reference hmem reference' hmem' heq
      obtain ⟨-, hside, hid⟩ :=
        entryKey_injective (external_lt hdecode hmem) (external_lt hdecode hmem') heq
      exact Prod.ext hside hid

theorem recordKeys_key {record' : Bytes × Bytes} (h : stored ∈ recordKeys record)
    (h' : stored ∈ recordKeys record') : record.1 = record'.1 := by
  rw [mem_recordKeys] at h h'
  rcases h with rfl | ⟨manifest, hdecode, reference, hmem, rfl⟩
  · rcases h' with hkey | ⟨_, -, _, -, heq⟩
    · exact (List.cons.inj hkey).2
    · exact (entryKey_ne_manifestKey _ _ _ _ _ heq).elim
  · rcases h' with heq | ⟨manifest', hdecode', reference', hmem', heq⟩
    · exact (entryKey_ne_manifestKey _ _ _ _ _ heq).elim
    · exact (entryKey_injective (external_lt hdecode' hmem') (external_lt hdecode hmem) heq).1.symm

theorem nodup_manifestKeys (hnodup : (entries.map Prod.fst).Nodup) :
    ((manifestRecords entries).map Prod.fst).Nodup := by
  have hmap : (manifestRecords entries).map Prod.fst =
      (entries.map Prod.fst).filterMap logicalKey := by
    rw [manifestRecords, map_filterMap, filterMap_map]
    congr 1
    funext entry
    cases hkey : logicalKey entry.1 <;> simp [hkey]
  rw [hmap]
  refine hnodup.filterMap ?_
  intro stored stored' key hkey hkey'
  rw [logicalKey_eq_some.mp hkey, logicalKey_eq_some.mp hkey']

theorem nodup_recordKeys_flatMap (hnodup : (entries.map Prod.fst).Nodup) :
    ((manifestRecords entries).flatMap recordKeys).Nodup := by
  rw [nodup_flatMap]
  refine ⟨fun record _ => nodup_recordKeys record, ?_⟩
  refine (pairwise_map.mp (nodup_manifestKeys hnodup)).imp ?_
  intro record record' hne stored hmem hmem'
  exact hne (recordKeys_key hmem hmem')

/-- Every join state of a snapshot decodes, and every record belongs to one of them. -/
structure Complete (entries : Records) : Prop where
  nodup : (entries.map Prod.fst).Nodup
  decodes : ∀ record ∈ manifestRecords entries,
    ∃ manifest, decodeManifest record.2 = .ok manifest ∧ Decodes (lookup entries) record.1 manifest
  referenced : ∀ entry ∈ entries, ∃ record ∈ manifestRecords entries, entry.1 ∈ recordKeys record

/-- A record that is accounted for is there. -/
theorem recordKeys_subset (hdecodes : ∀ record ∈ manifestRecords entries,
      ∃ manifest, decodeManifest record.2 = .ok manifest ∧
        Decodes (lookup entries) record.1 manifest) :
    (manifestRecords entries).flatMap recordKeys ⊆ entries.map Prod.fst := by
  intro stored hmem
  obtain ⟨record, hrecord, hstored⟩ := mem_flatMap.mp hmem
  rcases mem_recordKeys.mp hstored with rfl | ⟨manifest, hmanifest, reference, hreference, rfl⟩
  · exact mem_map.mpr ⟨_, mem_manifestRecords.mp hrecord, rfl⟩
  · obtain ⟨manifest', hmanifest', -, hresolves⟩ := hdecodes record hrecord
    obtain rfl := ok.inj (hmanifest.symm.trans hmanifest')
    obtain ⟨bytes, _, hlookup, -⟩ := hresolves reference hreference
    exact mem_map.mpr ⟨_, mem_of_lookup hlookup, rfl⟩

/-- Counting the records that are accounted for tells whether one is not. -/
theorem complete_iff : Complete entries ↔ (entries.map Prod.fst).Nodup ∧
    (∀ record ∈ manifestRecords entries,
        ∃ manifest, decodeManifest record.2 = .ok manifest ∧
          Decodes (lookup entries) record.1 manifest) ∧
      ((manifestRecords entries).flatMap recordKeys).length = entries.length := by
  constructor
  · rintro ⟨hnodup, hdecodes, hreferenced⟩
    refine ⟨hnodup, hdecodes, ?_⟩
    have hsubset : entries.map Prod.fst ⊆ (manifestRecords entries).flatMap recordKeys := by
      intro stored hmem
      obtain ⟨entry, hentry, rfl⟩ := mem_map.mp hmem
      exact mem_flatMap.mpr (hreferenced entry hentry)
    have hle := ((nodup_recordKeys_flatMap hnodup).subperm (recordKeys_subset hdecodes)).length_le
    have hge := (hnodup.subperm hsubset).length_le
    rw [length_map] at hle hge
    exact Nat.le_antisymm hle hge
  · rintro ⟨hnodup, hdecodes, hlength⟩
    refine ⟨hnodup, hdecodes, fun entry hentry => ?_⟩
    have hperm :=
      ((nodup_recordKeys_flatMap hnodup).subperm (recordKeys_subset hdecodes)).perm_of_length_le
      (by rw [length_map, hlength])
    exact mem_flatMap.mp (hperm.mem_iff.mpr (mem_map_of_mem hentry))

theorem sum_eq_length_recordKeys {β : Type} {decode : Bytes × Bytes → Result β} {weight : β → Nat}
    (hweight : ∀ record b, decode record = .ok b → weight b = (recordKeys record).length)
    {records : Records} {decoded : List β} (h : records.mapM decode = .ok decoded) :
    (decoded.map weight).sum = (records.flatMap recordKeys).length := by
  induction mapM_eq_ok.mp h with
  | nil => rfl
  | cons hb hbs ih =>
    rw [map_cons, sum_cons, flatMap_cons, length_append, hweight _ _ hb, ih (mapM_eq_ok.mpr hbs)]

theorem perm_manifestRecords (entries : Records) :
    (manifestRecords (sortRecords entries)).Perm (manifestRecords entries) :=
  (perm_insertionSort _ entries).filterMap _

/-- The check accepts the complete checkpoints. -/
theorem validateSnapshot_eq_ok : validateSnapshot entries = .ok () ↔ Complete entries := by
  have hperm := perm_manifestRecords entries
  have hlength := (hperm.flatMap_right recordKeys).length_eq
  rw [complete_iff, validateSnapshot]
  split
  · rename_i hdup
    simp [hdup]
  rename_i hnodup
  rw [not_not] at hnodup
  rw [bind_eq_ok, ← hlength]
  constructor
  · rintro ⟨visited, hvisited, hconsumed⟩
    have hsum := sum_eq_length_recordKeys (fun _ _ h => (visitRecord_eq_ok.mp h).2) hvisited
    split at hconsumed
    · rename_i hcount
      refine ⟨hnodup, fun record hmem => ?_, hsum.symm.trans hcount⟩
      obtain ⟨_, hvisit⟩ := exists_mapM_eq_ok.mp ⟨visited, hvisited⟩ record (hperm.mem_iff.mpr hmem)
      exact (visitRecord_eq_ok.mp hvisit).1
    · cases hconsumed
  · rintro ⟨-, hdecodes, hcount⟩
    obtain ⟨visited, hvisited⟩ := exists_mapM_eq_ok.mpr fun record hmem => by
      obtain ⟨manifest, hmanifest, hdecode⟩ := hdecodes record (hperm.mem_iff.mp hmem)
      exact ⟨_, visitRecord_eq_ok.mpr ⟨⟨manifest, hmanifest, hdecode⟩,
        (length_recordKeys hmanifest).symm⟩⟩
    have hsum := sum_eq_length_recordKeys (fun _ _ h => (visitRecord_eq_ok.mp h).2) hvisited
    exact ⟨visited, hvisited, if_pos (hsum.trans hcount)⟩

/-- A manifest record of a snapshot with its state, and how many records that takes. -/
theorem decodeKeyed_eq_ok {decoded : (Bytes × JoinState Bytes) × Nat} : (do
      let (state, consumed) ← decodeRecord entries record.1 record.2
      .ok ((record.1, state), consumed) : Result _) = .ok decoded ↔
      decoded.1.1 = record.1 ∧ decodeRecord entries record.1 record.2 =
          .ok (decoded.1.2, decoded.2) := by
  rw [bind_eq_ok]
  obtain ⟨⟨key, state⟩, consumed⟩ := decoded
  constructor
  · rintro ⟨⟨state', consumed'⟩, hdecode, hpair⟩
    cases hpair
    exact ⟨rfl, hdecode⟩
  · rintro ⟨rfl, hdecode⟩
    exact ⟨_, hdecode, rfl⟩

/-- The complete checkpoints can be read. -/
theorem decodeEntries_eq_ok : (∃ states, decodeEntries entries = .ok states) ↔
    Complete entries := by
  rw [complete_iff, decodeEntries]
  split
  · rename_i hdup
    simp [hdup]
  rename_i hnodup
  rw [not_not] at hnodup
  constructor
  · rintro ⟨states, hstates⟩
    obtain ⟨decoded, hdecoded, hconsumed⟩ := bind_eq_ok.mp hstates
    have hsum := sum_eq_length_recordKeys
      (fun _ _ h => (decodeRecord_eq_ok (decodeKeyed_eq_ok.mp h).2).2) hdecoded
    split at hconsumed
    · rename_i hcount
      refine ⟨hnodup, fun record hmem => ?_, hsum.symm.trans hcount⟩
      obtain ⟨_, hdecode⟩ := exists_mapM_eq_ok.mp ⟨decoded, hdecoded⟩ record hmem
      exact (decodeRecord_eq_ok (decodeKeyed_eq_ok.mp hdecode).2).1
    · cases hconsumed
  · rintro ⟨-, hdecodes, hcount⟩
    obtain ⟨decoded, hdecoded⟩ := exists_mapM_eq_ok.mpr fun record hmem => by
      obtain ⟨manifest, hmanifest, hdecode⟩ := hdecodes record hmem
      obtain ⟨state, hstate, -⟩ := hdecode.state hmanifest
      exact ⟨((record.1, state), _), decodeKeyed_eq_ok.mpr ⟨rfl, hstate⟩⟩
    have hsum := sum_eq_length_recordKeys
      (fun _ _ h => (decodeRecord_eq_ok (decodeKeyed_eq_ok.mp h).2).2) hdecoded
    exact ⟨_, bind_eq_ok.mpr ⟨decoded, hdecoded, if_pos (hsum.trans hcount)⟩⟩

theorem exists_mem_of_mapM {α β : Type} {decode : α → Result β} {records : List α}
    {decoded : List β}
    (h : records.mapM decode = .ok decoded) {record : α} (hmem : record ∈ records) :
    ∃ b ∈ decoded, decode record = .ok b := by
  induction mapM_eq_ok.mp h with
  | nil => cases hmem
  | cons hb hbs ih =>
    rcases mem_cons.mp hmem with rfl | hmem
    · exact ⟨_, mem_cons_self, hb⟩
    · obtain ⟨b, hmem', hb'⟩ := ih (mapM_eq_ok.mpr hbs) hmem
      exact ⟨b, mem_cons_of_mem _ hmem', hb'⟩

theorem mem_decodeEntries {states : List (Bytes × JoinState Bytes)}
    (h : decodeEntries entries = .ok states) {state : JoinState Bytes}
    (hmem : (manifestKey key, value) ∈ entries)
    (hrecord : decodeRecord entries key value = .ok (state, count)) :
    (key, state) ∈ states := by
  rw [decodeEntries] at h
  split at h
  · cases h
  obtain ⟨decoded, hdecoded, hconsumed⟩ := bind_eq_ok.mp h
  split at hconsumed
  · obtain rfl := ok.inj hconsumed
    obtain ⟨⟨⟨key', state'⟩, count'⟩, hdecoded, hdecode⟩ :=
      exists_mem_of_mapM hdecoded (mem_manifestRecords.mpr hmem)
    obtain ⟨rfl, hrecord'⟩ := decodeKeyed_eq_ok.mp hdecode
    obtain ⟨rfl, rfl⟩ := Prod.mk.inj (ok.inj (hrecord.symm.trans hrecord'))
    exact mem_map_of_mem hdecoded
  · cases hconsumed

/-- The state of a key is loaded from records that are complete, as it is decoded from them. -/
theorem Complete.loadState (h : Complete entries) (key : Bytes) :
    ∃ state, RegularJoin.loadState (lookup entries) key = .ok state ∧
      ∀ value, (manifestKey key, value) ∈ entries →
        ∃ count, decodeRecord entries key value = .ok (state, count) := by
  rcases hlookup : lookup entries (manifestKey key) with _ | value
  · refine ⟨_, by rw [RegularJoin.loadState, hlookup], fun value hmem => ?_⟩
    rw [lookup_of_mem h.nodup hmem] at hlookup
    cases hlookup
  · obtain ⟨manifest, hmanifest, hdecodes⟩ :=
      h.decodes (key, value) (mem_manifestRecords.mpr (mem_of_lookup hlookup))
    obtain ⟨state, hrecord, hload⟩ := hdecodes.state hmanifest
    refine ⟨state, hload hlookup, fun value' hmem => ?_⟩
    obtain rfl := Option.some.inj (hlookup.symm.trans (lookup_of_mem h.nodup hmem))
    exact ⟨_, hrecord⟩

/-- **A snapshot is accepted exactly if all of it decodes.**  The one pass of the validator agrees
with the decoder of a whole snapshot, and after a restore that it let pass every key loads, as the
decoder has it. -/
theorem validateSnapshot_exact (entries : Records) :
    (validateSnapshot entries = .ok () ↔ Complete entries) ∧
      (validateSnapshot entries = .ok () ↔ ∃ states, decodeEntries entries = .ok states) ∧
      (validateSnapshot entries = .ok () → ∀ key, ∃ state,
        loadState (lookup entries) key = .ok state ∧
        ∀ states, decodeEntries entries = .ok states → ∀ value, (manifestKey key, value) ∈ entries →
          (key, state) ∈ states) := by
  refine ⟨validateSnapshot_eq_ok, validateSnapshot_eq_ok.trans decodeEntries_eq_ok.symm, ?_⟩
  intro hvalid key
  obtain ⟨state, hload, hrecord⟩ := (validateSnapshot_eq_ok.mp hvalid).loadState key
  refine ⟨state, hload, fun states hstates value hmem => ?_⟩
  obtain ⟨count, hdecode⟩ := hrecord value hmem
  exact mem_decodeEntries hstates hmem hdecode

/-- One row of one key, in a record of its own. -/
def rowSnapshot : Records :=
  [(manifestKey [7],
    rowsMagic ++ ([0, 0] ++ (leBytes 8 1 ++ (leBytes 8 0 ++ (leBytes 8 1 ++ (leBytes 8 0 ++
      (leBytes 8 1 ++ leBytes 8 0))))))),
    (rowKey [7] .left 0,
      pageMagic ++ (leBytes 4 1 ++ (leBytes 8 0 ++ (leBytes 4 3 ++ (leBytes 4 1 ++ [42])))))]

theorem validateSnapshot_exact_one_row : validateSnapshot rowSnapshot = .ok () ∧
    Complete rowSnapshot ∧
      ∃ state, loadState (lookup rowSnapshot) [7] = .ok state ∧
        ∀ states, decodeEntries rowSnapshot = .ok states → ([7], state) ∈ states := by
  have hvalid : validateSnapshot rowSnapshot = .ok () := by rfl
  obtain ⟨hcomplete, -, hload⟩ := validateSnapshot_exact rowSnapshot
  obtain ⟨state, hstate, hmem⟩ := hload hvalid [7]
  exact ⟨hvalid, hcomplete.mp hvalid, state, hstate, fun states h => hmem states h _ mem_cons_self⟩

end StreamFusion.RegularJoin
