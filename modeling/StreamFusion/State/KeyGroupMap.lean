import StreamFusion.Lib.HashTable
import StreamFusion.Lib.SortedEntries
import StreamFusion.State.Backend

/-!
# A key group of the hash backend

A key group of `MemoryKeyedState` is a directory of 64 shards, allocated with the first insertion,
and a shard is a hash table of packed entries, the key in front and the value behind it.  The
group's routing hash names the shard of a key, and inside the shard the key is found through the
shard's own hash; both hash functions are seeded at random and are arbitrary here, and so is the
table (`HashTable`).

The shards of a group together hold each key at most once, in the shard its routing hash names
(`KeyGroupMap.Valid`).  Then a lookup is governed by two equations, one for insertion and one for
removal, and the packed entries of all shards are exactly the bindings a lookup can see.
-/

namespace StreamFusion.State

open Wire List

/-! ## Packed entries -/

/-- A key and its value in one allocation. -/
structure PackedEntry where
  bytes : Bytes
  keyLen : Nat
  keyLen_le : keyLen ≤ bytes.length

namespace PackedEntry

/-- Packs a key and its value. -/
def new (key value : Bytes) : PackedEntry := ⟨key ++ value, key.length, by simp⟩

/-- The key. -/
def key (entry : PackedEntry) : Bytes := entry.bytes.take entry.keyLen

/-- The value. -/
def value (entry : PackedEntry) : Bytes := entry.bytes.drop entry.keyLen

/-- A value of the same length is copied into place, any other value is packed anew. -/
def update (entry : PackedEntry) (key value : Bytes) : PackedEntry :=
  if h : entry.value.length = value.length then
    ⟨entry.bytes.take entry.keyLen ++ value, entry.keyLen, by
      have := entry.keyLen_le
      simp
      omega⟩
  else
    new key value

@[simp] theorem key_new (key value : Bytes) : (new key value).key = key := by
  simp [new, PackedEntry.key]

@[simp] theorem value_new (key value : Bytes) : (new key value).value = value := by
  simp [new, PackedEntry.value]

theorem key_update (entry : PackedEntry) (value : Bytes) :
    (entry.update entry.key value).key = entry.key := by
  have := entry.keyLen_le
  unfold update
  split
  · simp [key, Nat.min_eq_left this]
  · simp

theorem value_update (entry : PackedEntry) (key value : Bytes) :
    (entry.update key value).value = value := by
  have := entry.keyLen_le
  unfold update
  split
  · simp [PackedEntry.value, Nat.min_eq_left this]
  · simp

end PackedEntry

/-! ## Shards -/

variable {H : HashTable PackedEntry}

/-- A hash table and its hash function. -/
structure Shard (H : HashTable PackedEntry) where
  table : H.Table
  hasher : Bytes → UInt64

namespace Shard

/-- The hash of an entry. -/
def hashOf (shard : Shard H) (entry : PackedEntry) : UInt64 := shard.hasher entry.key

/-- A shard without entries. -/
def new (hasher : Bytes → UInt64) : Shard H := ⟨H.empty, hasher⟩

/-- Makes room. -/
def reserve (shard : Shard H) (additions : Nat) : Shard H :=
  { shard with table := H.reserve shard.table additions shard.hashOf }

/-- The entry of a key. -/
def find (shard : Shard H) (key : Bytes) : Option PackedEntry :=
  H.find shard.table (shard.hasher key) fun entry => entry.key == key

/-- Sets the value of a key. -/
def insert (shard : Shard H) (key value : Bytes) : Shard H :=
  let hash := shard.hasher key
  match shard.find key with
  | some _ =>
    { shard with
      table := H.update shard.table hash (fun entry => entry.key == key) (·.update key value) }
  | none =>
    { shard with table := H.insertUnique shard.table hash (.new key value) shard.hashOf }

/-- Removes a key. -/
def remove (shard : Shard H) (key : Bytes) : Shard H :=
  { shard with table := H.remove shard.table (shard.hasher key) fun entry => entry.key == key }

/-- The entries in the order of the table. -/
def entries (shard : Shard H) : List PackedEntry := H.iter shard.table

/-- Entries are stored under their hash and no key occurs twice. -/
structure Valid (shard : Shard H) : Prop where
  hashed : H.Hashed shard.hashOf shard.table
  distinct : (shard.entries.map PackedEntry.key).Nodup

theorem hashOf_of_key_beq (shard : Shard H) (key : Bytes) (entry : PackedEntry)
    (h : (entry.key == key) = true) : shard.hashOf entry = shard.hasher key := by
  rw [hashOf, beq_iff_eq.mp h]

variable {shard : Shard H} {key : Bytes} {entry : PackedEntry}

section

variable (hv : shard.Valid)
include hv

theorem find_eq_some :
    shard.find key = some entry ↔ entry ∈ shard.entries ∧ entry.key = key := by
  have some_spec : ∀ {e}, shard.find key = some e → e ∈ shard.entries ∧ e.key = key := by
    intro e h
    have := H.find_some hv.hashed (shard.hashOf_of_key_beq key) h
    exact ⟨this.1, by simpa using this.2⟩
  constructor
  · exact some_spec
  · rintro ⟨hmem, rfl⟩
    rcases h : shard.find entry.key with _ | found
    · have := H.find_none hv.hashed (shard.hashOf_of_key_beq entry.key) h entry hmem
      simp at this
    · obtain ⟨hfound, hkey⟩ := some_spec h
      rw [inj_on_of_nodup_map hv.distinct hfound hmem hkey]

theorem find_eq_none : shard.find key = none ↔ ∀ entry ∈ shard.entries, entry.key ≠ key := by
  rw [Option.eq_none_iff_forall_ne_some]
  constructor
  · intro h entry hmem hkey
    exact h entry ((find_eq_some hv).mpr ⟨hmem, hkey⟩)
  · intro h entry hfind
    obtain ⟨hmem, hkey⟩ := (find_eq_some hv).mp hfind
    exact h entry hmem hkey

/-- What insertion does to the entries of a shard. -/
theorem insert_spec (key value : Bytes) :
    (shard.insert key value).Valid ∧ (shard.insert key value).hasher = shard.hasher ∧
      ∃ entry rest, entry.key = key ∧ entry.value = value ∧ (∀ other ∈ rest, other.key ≠ key) ∧
        (∀ other, other ∈ rest ↔ other ∈ shard.entries ∧ other.key ≠ key) ∧
        (shard.insert key value).entries.Perm (entry :: rest) := by
  rcases hfind : shard.find key with _ | old
  · -- a new key: the packed entry joins the others
    have hins : shard.insert key value = { shard with
        table := H.insertUnique shard.table (shard.hasher key) (.new key value) shard.hashOf } := by
      simp only [insert, hfind]
    have hhash : shard.hashOf (.new key value) = shard.hasher key := by simp [hashOf]
    have hperm : (shard.insert key value).entries.Perm (.new key value :: shard.entries) := by
      rw [hins]
      exact H.iter_insertUnique hv.hashed hhash
    have hnone := (find_eq_none hv).mp hfind
    refine ⟨⟨?_, ?_⟩,
      by rw [hins], .new key value, shard.entries, by simp, by simp, hnone, ?_, hperm⟩
    · rw [hins]
      exact H.hashed_insertUnique hv.hashed hhash
    · refine (hperm.map PackedEntry.key).nodup_iff.mpr ?_
      simpa using ⟨hnone, hv.distinct⟩
    · exact fun other => ⟨fun h => ⟨h, hnone other h⟩, fun h => h.1⟩
  · -- a known key: its entry is overwritten in place
    have hins : shard.insert key value = { shard with
        table := H.update shard.table (shard.hasher key) (fun entry => entry.key == key)
          (·.update key value) } := by
      simp only [insert, hfind]
    obtain ⟨-, rfl⟩ := (find_eq_some hv).mp hfind
    have hkey := old.key_update value
    have hhash : shard.hashOf (old.update old.key value) = shard.hasher old.key := by
      rw [hashOf, hkey]
    obtain ⟨rest, hrest, hperm⟩ := H.iter_update (f := (·.update old.key value)) hv.hashed
      (shard.hashOf_of_key_beq old.key) hfind hhash
    have hdistinct : old.key ∉ rest.map PackedEntry.key ∧ (rest.map PackedEntry.key).Nodup := by
      have := (hrest.map PackedEntry.key).nodup_iff.mp hv.distinct
      simpa using this
    have hne : ∀ other ∈ rest, other.key ≠ old.key := by
      intro other hother heq
      exact hdistinct.1 (heq ▸ mem_map_of_mem hother)
    have hperm' : (shard.insert old.key value).entries.Perm (old.update old.key value :: rest) := by
      rw [hins]
      exact hperm
    refine ⟨⟨?_, ?_⟩, by rw [hins], old.update old.key value, rest, hkey,
      old.value_update _ _, hne, ?_, hperm'⟩
    · rw [hins]
      exact H.hashed_update (f := (·.update old.key value)) hv.hashed
        (shard.hashOf_of_key_beq old.key) hfind hhash
    · refine (hperm'.map PackedEntry.key).nodup_iff.mpr ?_
      simpa [hkey] using hdistinct
    · intro other
      have hmem : other ∈ shard.entries ↔ other = old ∨ other ∈ rest :=
        hrest.mem_iff.trans mem_cons
      constructor
      · exact fun h => ⟨hmem.mpr (Or.inr h), hne other h⟩
      · rintro ⟨h, hother⟩
        rcases hmem.mp h with rfl | h
        · exact absurd rfl hother
        · exact h

theorem valid_insert (key value : Bytes) :
    (shard.insert key value).Valid := (insert_spec hv key value).1

end

variable {value : Bytes}

theorem mem_entries_insert (hv : shard.Valid) (h : entry ∈ (shard.insert key value).entries) :
    entry.key = key ∨ entry ∈ shard.entries := by
  obtain ⟨-, -, new, rest, hkey, -, -, hrest, hperm⟩ := insert_spec hv key value
  rcases mem_cons.mp (hperm.mem_iff.mp h) with rfl | h
  · exact Or.inl hkey
  · exact Or.inr ((hrest entry).mp h).1

/-- The lookup that `find` and the value of the found entry make. -/
def get (shard : Shard H) (key : Bytes) : Option Bytes := (shard.find key).map PackedEntry.value

theorem get_eq_some (hv : shard.Valid) :
    shard.get key = some value ↔ ∃ entry ∈ shard.entries, entry.key = key ∧
        entry.value = value := by
  simp only [get, Option.map_eq_some_iff, find_eq_some hv]
  constructor
  · rintro ⟨entry, ⟨hmem, hkey⟩, hvalue⟩
    exact ⟨entry, hmem, hkey, hvalue⟩
  · rintro ⟨entry, hmem, hkey, hvalue⟩
    exact ⟨entry, ⟨hmem, hkey⟩, hvalue⟩

@[simp] theorem entries_new (hasher : Bytes → UInt64) : (new hasher : Shard H).entries = [] :=
  H.iter_empty

theorem valid_new (hasher : Bytes → UInt64) : (new hasher : Shard H).Valid :=
  ⟨H.hashed_empty _, by simp⟩

@[simp] theorem get_new (hasher : Bytes → UInt64) (key : Bytes) :
    (new hasher : Shard H).get key = none := by
  rw [get, (find_eq_none (valid_new hasher)).mpr (by simp), Option.map_none]

section

variable (hv : shard.Valid)
include hv

theorem reserve_perm (additions : Nat) : (shard.reserve additions).entries.Perm shard.entries :=
  H.iter_reserve hv.hashed

theorem valid_reserve (additions : Nat) : (shard.reserve additions).Valid :=
  ⟨H.hashed_reserve hv.hashed,
    ((reserve_perm hv additions).map PackedEntry.key).nodup_iff.mpr hv.distinct⟩

theorem get_reserve (additions : Nat) (key : Bytes) : (shard.reserve additions).get key =
    shard.get key := by
  ext value
  rw [get_eq_some (valid_reserve hv additions), get_eq_some hv]
  simp only [(reserve_perm hv additions).mem_iff]

/-- An insertion changes one key. -/
theorem get_insert (key value k : Bytes) :
    (shard.insert key value).get k = if k = key then some value else shard.get k := by
  obtain ⟨hv', -, new, rest, hkey, hvalue, -, hrest, hperm⟩ := insert_spec hv key value
  ext v
  rw [get_eq_some hv']
  split
  · rename_i hk
    constructor
    · rintro ⟨entry, hmem, hek, rfl⟩
      rcases mem_cons.mp (hperm.mem_iff.mp hmem) with rfl | hmem
      · rw [hvalue]
      · exact absurd (hek.trans hk) ((hrest entry).mp hmem).2
    · intro hv
      obtain rfl : value = v := by simpa using hv
      exact ⟨new, hperm.mem_iff.mpr mem_cons_self, hkey.trans hk.symm, hvalue⟩
  · rename_i hk
    rw [get_eq_some hv]
    constructor
    · rintro ⟨entry, hmem, rfl, rfl⟩
      rcases mem_cons.mp (hperm.mem_iff.mp hmem) with rfl | hmem
      · exact absurd hkey hk
      · exact ⟨entry, ((hrest entry).mp hmem).1, rfl, rfl⟩
    · rintro ⟨entry, hmem, rfl, rfl⟩
      exact ⟨entry, hperm.mem_iff.mpr (mem_cons_of_mem _ ((hrest entry).mpr ⟨hmem, hk⟩)),
        rfl, rfl⟩

/-- What removal does to the entries of a shard. -/
theorem remove_spec (key : Bytes) : (shard.remove key).Valid ∧
      ∀ entry, entry ∈ (shard.remove key).entries ↔ entry ∈ shard.entries ∧ entry.key ≠ key := by
  have hhashed : H.Hashed shard.hashOf (shard.remove key).table := H.hashed_remove hv.hashed
  rcases hfind : shard.find key with _ | old
  · have htable : (shard.remove key).entries = shard.entries :=
      congrArg H.iter (H.remove_of_find_none hfind)
    have hnone := (find_eq_none hv).mp hfind
    refine ⟨⟨hhashed, by rw [htable]; exact hv.distinct⟩, fun entry => ?_⟩
    rw [htable]
    exact ⟨fun h => ⟨h, hnone entry h⟩, fun h => h.1⟩
  · have hperm : shard.entries.Perm (old :: (shard.remove key).entries) :=
      H.iter_remove hv.hashed (shard.hashOf_of_key_beq key) hfind
    obtain ⟨-, rfl⟩ := (find_eq_some hv).mp hfind
    have hdistinct : old.key ∉ (shard.remove old.key).entries.map PackedEntry.key ∧
        ((shard.remove old.key).entries.map PackedEntry.key).Nodup := by
      have := (hperm.map PackedEntry.key).nodup_iff.mp hv.distinct
      simpa using this
    refine ⟨⟨hhashed, hdistinct.2⟩, fun entry => ?_⟩
    have hmem : entry ∈ shard.entries ↔ entry = old ∨ entry ∈ (shard.remove old.key).entries :=
      hperm.mem_iff.trans mem_cons
    constructor
    · intro h
      refine ⟨hmem.mpr (Or.inr h), fun heq => hdistinct.1 ?_⟩
      exact mem_map.mpr ⟨entry, h, heq⟩
    · rintro ⟨h, hne⟩
      rcases hmem.mp h with rfl | h
      · exact absurd rfl hne
      · exact h

/-- A removal changes one key. -/
theorem get_remove (key k : Bytes) : (shard.remove key).get k = if k =
    key then none else shard.get k := by
  obtain ⟨hv', hmem⟩ := remove_spec hv key
  ext v
  rw [get_eq_some hv']
  simp only [hmem]
  split
  · rename_i hk
    simp only [reduceCtorEq, iff_false]
    rintro ⟨entry, ⟨-, hne⟩, hek, -⟩
    exact hne (hek.trans hk)
  · rename_i hk
    rw [get_eq_some hv]
    constructor
    · rintro ⟨entry, ⟨h, -⟩, hek, hev⟩
      exact ⟨entry, h, hek, hev⟩
    · rintro ⟨entry, h, rfl, hev⟩
      exact ⟨entry, ⟨h, hk⟩, rfl, hev⟩

end

end Shard

/-! ## Key groups -/

/-- The number of shards. -/
def shardCount : Nat := 64

/-- One key group: the routing hash, the hash functions its shards will be given, and the shard
directory, which stays empty until the first insertion is admitted. -/
structure KeyGroupMap (H : HashTable PackedEntry) where
  routing : Bytes → UInt64
  seeds : Nat → Bytes → UInt64
  shards : List (Shard H)

namespace KeyGroupMap

/-- A map without shards. -/
def withHasher (routing : Bytes → UInt64) (seeds : Nat → Bytes → UInt64) : KeyGroupMap H :=
  ⟨routing, seeds, []⟩

/-- The shard of a key. -/
def shardIndex (map : KeyGroupMap H) (key : Bytes) : Nat :=
  (map.routing key).toNat &&& (shardCount - 1)

/-- The group with all its shards, each of them empty. -/
def withDirectory (map : KeyGroupMap H) : KeyGroupMap H :=
  { map with shards := (List.range shardCount).map fun i => Shard.new (map.seeds i) }

/-- Allocates the shard directory, if that has not happened yet. -/
def openDirectory (admission : Admission) (request : Nat) :
    Op StateError (KeyGroupMap H) Unit := fun map =>
  if map.shards.isEmpty then
    match admission.request request with
    | .ok () => (.ok (), map.withDirectory)
    | .error error => (.error error, map)
  else
    (.ok (), map)

/-- Makes room in a shard, if the host grants it. -/
def growShard (index additions : Nat) (admission : Admission) (request : Nat) :
    Op StateError (KeyGroupMap H) Unit := fun map =>
  match map.shards[index]? with
  | none => (.error (.panic "index out of bounds"), map)
  | some shard =>
    match admission.request request with
    | .ok () => (.ok (), { map with shards := map.shards.set index (shard.reserve additions) })
    | .error error => (.error error, map)

/-- The first request is for the directory, the second for the table of the shard. -/
def reserveShard (index additions : Nat) (admission : Admission) (request : Nat) :
    Op StateError (KeyGroupMap H) Unit := do
  openDirectory admission request
  growShard index additions admission (request + 1)

/-- The value of a key. -/
def get (map : KeyGroupMap H) (key : Bytes) : Option Bytes :=
  (map.shards[map.shardIndex key]?).bind fun shard => shard.get key

/-- Has the key a value? -/
def containsKey (map : KeyGroupMap H) (key : Bytes) : Bool := (map.get key).isSome

/-- The caller has reserved the shard; without a directory the indexing panics. -/
def insert (key value : Bytes) : Op StateError (KeyGroupMap H) Unit := fun map =>
  match map.shards[map.shardIndex key]? with
  | none => (.error (.panic "index out of bounds"), map)
  | some shard =>
    (.ok (), { map with shards := map.shards.set (map.shardIndex key) (shard.insert key value) })

/-- Removes a key. -/
def removeBytes (map : KeyGroupMap H) (key : Bytes) : KeyGroupMap H :=
  match map.shards[map.shardIndex key]? with
  | none => map
  | some shard => { map with shards := map.shards.set (map.shardIndex key) (shard.remove key) }

/-- The entries, shard by shard. -/
def entries (map : KeyGroupMap H) : List PackedEntry := map.shards.flatMap Shard.entries

/-- The number of entries. -/
def len (map : KeyGroupMap H) : Nat := (map.shards.map fun shard => shard.entries.length).sum

/-- The keys and values, shard by shard. -/
def iter (map : KeyGroupMap H) : List (Bytes × Bytes) :=
  map.entries.map fun entry => (entry.key, entry.value)

/-- The directory is empty or complete, its shards are valid, and every entry lies in the shard that
the routing hash of its key names. -/
structure Valid (map : KeyGroupMap H) : Prop where
  directory : map.shards = [] ∨ map.shards.length = shardCount
  shard : ∀ (i : Nat) (shard : Shard H), map.shards[i]? = some shard → shard.Valid
  routed : ∀ (i : Nat) (shard : Shard H), map.shards[i]? = some shard → ∀ entry ∈ shard.entries,
    map.shardIndex entry.key = i

theorem shardIndex_lt (map : KeyGroupMap H) (key : Bytes) : map.shardIndex key < shardCount :=
  Nat.lt_of_le_of_lt Nat.and_le_right (by decide)

section

variable (routing : Bytes → UInt64) (seeds : Nat → Bytes → UInt64)

theorem valid_withHasher :
    (withHasher routing seeds : KeyGroupMap H).Valid :=
  ⟨Or.inl rfl, by simp [withHasher], by simp [withHasher]⟩

@[simp] theorem get_withHasher
    (key : Bytes) : (withHasher routing seeds : KeyGroupMap H).get key = none := by
  simp [withHasher, get]

end

variable {map : KeyGroupMap H} {i : Nat} {new : Shard H}

/-- Replacing the shard at `i` by a valid one with entries that belong there. -/
theorem valid_set (hv : map.Valid)
    (hnew : new.Valid) (hrouted : ∀ entry ∈ new.entries, map.shardIndex entry.key = i) :
    { map with shards := map.shards.set i new }.Valid := by
  refine ⟨?_, ?_, ?_⟩
  · simpa using hv.directory
  all_goals
    intro j shard hj
    simp only [List.getElem?_set] at hj
    split at hj
  · split at hj
    · obtain rfl : new = shard := by simpa using hj
      exact hnew
    · cases hj
  · exact hv.shard j shard hj
  · rename_i heq
    split at hj
    · obtain rfl : new = shard := by simpa using hj
      exact heq ▸ hrouted
    · cases hj
  · exact hv.routed j shard hj

/-- A lookup after the shard at `i` was replaced. -/
theorem get_set (map : KeyGroupMap H) {old : Shard H}
    (hold : map.shards[i]? = some old) (key : Bytes) :
    { map with shards := map.shards.set i new }.get key =
      if map.shardIndex key = i then new.get key else map.get key := by
  have hlt : i < map.shards.length := by
    by_contra hge
    simp [List.getElem?_eq_none (Nat.le_of_not_lt hge)] at hold
  have hindex : { map with shards := map.shards.set i new }.shardIndex key = map.shardIndex key :=
    rfl
  rw [get, hindex]
  split
  · rename_i h
    simp [h, hlt]
  · rename_i h
    rw [List.getElem?_set_ne (Ne.symm h), get]

variable {map' : KeyGroupMap H} {key value : Bytes}

theorem insert_eq_ok (h : insert key value map = (.ok (), map')) :
    ∃ shard, map.shards[map.shardIndex key]? = some shard ∧
      map' =
        { map with shards := map.shards.set (map.shardIndex key) (shard.insert key value) } := by
  unfold insert at h
  split at h
  · simp at h
  · rename_i shard hshard
    exact ⟨shard, hshard, by simpa using h.symm⟩

theorem valid_insert (hv : map.Valid) (h : insert key value map = (.ok (), map')) : map'.Valid := by
  obtain ⟨shard, hshard, rfl⟩ := insert_eq_ok h
  have hs := hv.shard _ _ hshard
  refine valid_set hv (Shard.valid_insert hs key value) ?_
  intro entry hentry
  rcases Shard.mem_entries_insert hs hentry with rfl | hentry
  · rfl
  · exact hv.routed _ _ hshard entry hentry

/-- Only the lookup of `key` notices a change of its shard that only lookups of `key` notice. -/
theorem get_set_shard {shard : Shard H} (hshard : map.shards[map.shardIndex key]? = some shard)
    {answer : Option Bytes} (hnew : ∀ k,
      new.get k = if k = key then answer else shard.get k) (k : Bytes) :
    { map with shards := map.shards.set (map.shardIndex key) new }.get k =
      if k = key then answer else map.get k := by
  rw [get_set map hshard, hnew]
  by_cases hk : k = key
  · simp [hk]
  · split
    · rename_i hindex
      rw [get, hindex, hshard, Option.bind_some]
    · rfl

theorem get_insert (hv : map.Valid) (h : insert key value map = (.ok (), map')) (k : Bytes) :
    map'.get k = if k = key then some value else map.get k := by
  obtain ⟨shard, hshard, rfl⟩ := insert_eq_ok h
  exact get_set_shard hshard (fun k => Shard.get_insert (hv.shard _ _ hshard) ..) k

/-- A removal changes one key of the map. -/
theorem removeBytes_spec (hv : map.Valid) (key : Bytes) :
    (map.removeBytes key).Valid ∧ (map.removeBytes key).shards.length = map.shards.length ∧
      ∀ k, (map.removeBytes key).get k = if k = key then none else map.get k := by
  unfold removeBytes
  split
  · rename_i hnone
    refine ⟨hv, rfl, fun k => ?_⟩
    split
    · rename_i hk
      rw [hk, get, hnone, Option.bind_none]
    · rfl
  · rename_i shard hshard
    have hs := hv.shard _ _ hshard
    obtain ⟨hs', hmem⟩ := Shard.remove_spec hs key
    refine ⟨valid_set hv hs' ?_, by simp, get_set_shard hshard fun k => Shard.get_remove hs ..⟩
    exact fun entry hentry => hv.routed _ _ hshard entry ((hmem entry).mp hentry).1

/-- An entry is stored in a group exactly if a lookup finds its value under its key. -/
theorem get_eq_some (hv : map.Valid) : map.get key = some value ↔ (key, value) ∈ map.iter := by
  simp only [get, iter, entries, Option.bind_eq_some_iff, mem_map, mem_flatMap, Prod.mk.injEq]
  constructor
  · rintro ⟨shard, hshard, hget⟩
    obtain ⟨entry, hmem, hkey, hvalue⟩ := (Shard.get_eq_some (hv.shard _ _ hshard)).mp hget
    exact ⟨entry, ⟨shard, mem_of_getElem? hshard, hmem⟩, hkey, hvalue⟩
  · rintro ⟨entry, ⟨shard, hshard, hmem⟩, rfl, rfl⟩
    obtain ⟨i, hi⟩ := mem_iff_getElem?.mp hshard
    rw [hv.routed i shard hi entry hmem]
    exact ⟨shard, hi, (Shard.get_eq_some (hv.shard _ _ hi)).mpr ⟨entry, hmem, rfl, rfl⟩⟩

/-- No key has two entries. -/
theorem nodup_keys (hv : map.Valid) : (map.iter.map Prod.fst).Nodup := by
  have hkeys : map.iter.map Prod.fst = map.shards.flatMap fun s =>
      s.entries.map PackedEntry.key := by
    simp [iter, entries, map_flatMap, Function.comp_def]
  rw [hkeys, nodup_flatMap]
  constructor
  · intro shard hshard
    obtain ⟨i, hi⟩ := mem_iff_getElem?.mp hshard
    exact (hv.shard i shard hi).distinct
  · rw [pairwise_iff_getElem]
    intro i j hi hj hlt key hmem hmem'
    obtain ⟨entry, hentry, rfl⟩ := mem_map.mp hmem
    obtain ⟨entry', hentry', hkey⟩ := mem_map.mp hmem'
    have h₁ := hv.routed i _ (List.getElem?_eq_getElem hi) entry hentry
    have h₂ := hv.routed j _ (List.getElem?_eq_getElem hj) entry' hentry'
    rw [hkey] at h₂
    omega

theorem len_eq (map : KeyGroupMap H) : map.len = map.iter.length := by
  simp [len, iter, entries, length_flatMap]

/-! ### Reserving shards

A reservation may move every entry of a table, and a denied one may leave the directory behind; in
either case a lookup answers as before. -/

/-- Two states of a group that no lookup tells apart, the second with at least the first's
directory. -/
structure SameContents (map map' : KeyGroupMap H) : Prop where
  valid : map'.Valid
  get_eq : ∀ k, map'.get k = map.get k
  directory : map.shards ≠ [] → map'.shards ≠ []

theorem SameContents.refl (hv : map.Valid) : SameContents map map :=
  ⟨hv, fun _ => rfl, id⟩

theorem SameContents.trans {map'' : KeyGroupMap H} (h : SameContents map map')
    (h' : SameContents map' map'') : SameContents map map'' :=
  ⟨h'.valid, fun k => (h'.get_eq k).trans (h.get_eq k), fun hne => h'.directory (h.directory hne)⟩

theorem sameContents_withDirectory (hempty : map.shards = []) :
    SameContents map map.withDirectory := by
  have hshard : ∀ (i : Nat) (shard : Shard H), map.withDirectory.shards[i]? = some shard →
      ∃ hasher, shard = Shard.new hasher := by
    intro i shard hi
    obtain ⟨_, -, rfl⟩ := mem_map.mp (mem_of_getElem? hi)
    exact ⟨_, rfl⟩
  refine ⟨⟨Or.inr (by simp [withDirectory]), ?_, ?_⟩, ?_, fun hne => absurd hempty hne⟩
  · intro i shard hi
    obtain ⟨hasher, rfl⟩ := hshard i shard hi
    exact Shard.valid_new hasher
  · intro i shard hi entry hentry
    obtain ⟨hasher, rfl⟩ := hshard i shard hi
    simp at hentry
  · intro k
    have hnone : map.get k = none := by simp [get, hempty]
    rw [hnone, get, Option.bind_eq_none_iff]
    intro shard hs
    obtain ⟨hasher, rfl⟩ := hshard _ shard hs
    simp

variable {admission : Admission} {request : Nat} {result : Except StateError Unit}

theorem openDirectory_spec (hv : map.Valid)
    (h : openDirectory admission request map = (result, map')) :
    SameContents map map' ∧ (result = .ok () → map'.shards ≠ []) := by
  unfold openDirectory at h
  split at h
  · rename_i hempty
    split at h
    · obtain ⟨rfl, rfl⟩ := Prod.mk.inj h
      exact ⟨sameContents_withDirectory (by simpa using hempty), fun _ =>
        by simp [withDirectory, shardCount]⟩
    · obtain ⟨rfl, rfl⟩ := Prod.mk.inj h
      exact ⟨.refl hv, by simp⟩
  · rename_i hne
    obtain ⟨rfl, rfl⟩ := Prod.mk.inj h
    exact ⟨.refl hv, fun _ => by simpa using hne⟩

variable {index additions : Nat}

/-- Growing a shard keeps the contents. -/
theorem growShard_spec (hv : map.Valid)
    (h : growShard index additions admission request map = (result, map')) :
    SameContents map map' := by
  unfold growShard at h
  split at h
  · obtain ⟨-, rfl⟩ := Prod.mk.inj h
    exact .refl hv
  · rename_i shard hshard
    split at h
    · obtain ⟨-, rfl⟩ := Prod.mk.inj h
      have hs := hv.shard _ _ hshard
      refine ⟨valid_set hv (Shard.valid_reserve hs additions) ?_, ?_, by simp⟩
      · intro entry hentry
        exact hv.routed _ _ hshard entry ((Shard.reserve_perm hs additions).mem_iff.mp hentry)
      · intro k
        rw [get_set map hshard, Shard.get_reserve hs]
        split
        · rename_i hindex
          rw [get, hindex, hshard, Option.bind_some]
        · rfl
    · obtain ⟨-, rfl⟩ := Prod.mk.inj h
      exact .refl hv

/-- Making room keeps the contents. -/
theorem reserveShard_spec (hv : map.Valid)
    (h : reserveShard index additions admission request map = (result, map')) :
    SameContents map map' ∧ (result = .ok () → map'.shards ≠ []) := by
  rcases hopen : openDirectory admission request map with ⟨_ | ⟨⟩, map₁⟩
  · rw [reserveShard, Op.bind_of_error hopen] at h
    obtain ⟨rfl, rfl⟩ := Prod.mk.inj h
    exact ⟨(openDirectory_spec hv hopen).1, by simp⟩
  · rw [reserveShard, Op.bind_of_ok hopen] at h
    obtain ⟨hsame, hne⟩ := openDirectory_spec hv hopen
    have hgrow := growShard_spec hsame.valid h
    exact ⟨hsame.trans hgrow, fun _ => hgrow.directory (hne rfl)⟩

/-- With enough memory a reservation of an existing shard succeeds. -/
theorem reserveShard_succeeds (hv : map.Valid) (hindex : index < shardCount)
    (additions request : Nat) :
    ∃ map', reserveShard index additions .all request map = (.ok (), map') := by
  obtain ⟨map₁, hopen⟩ : ∃ map₁, openDirectory .all request map = (.ok (), map₁) := by
    unfold openDirectory
    split
    · exact ⟨_, rfl⟩
    · exact ⟨_, rfl⟩
  obtain ⟨hsame, hne⟩ := openDirectory_spec hv hopen
  have hlen : map₁.shards.length = shardCount :=
    hsame.valid.directory.resolve_left (hne rfl)
  obtain ⟨shard, hshard⟩ : ∃ shard, map₁.shards[index]? = some shard :=
    ⟨_, List.getElem?_eq_getElem (by omega)⟩
  exact ⟨_, by rw [reserveShard, Op.bind_of_ok hopen, growShard, hshard]; rfl⟩

end KeyGroupMap

end StreamFusion.State
