import StreamFusion.State.Memory
import StreamFusion.State.OrderedMemory

/-!
# Two backends, one map

A history of write batches denotes a map: all mutations in order, the last write to a key winning.
Both in-memory backends represent exactly that map, whatever the hash functions, the shard placement
and the cuts between batches were.  Reads and snapshots are functions of the map alone, so they
agree between the backends and forget the history.
-/

namespace StreamFusion.State

open Wire OrderedMemoryKeyedState

variable {H : HashTable PackedEntry}

/-- A call of `write_batch`: its mutations and the host's answers to its memory requests. -/
abbrev WriteCall := List StateMutation × Admission

/-- A history of calls, one after the other; it succeeds if all of its calls do. -/
def runWrites {S : Type} (write : List StateMutation → Admission → Op StateError S Unit)
    (calls : List WriteCall) : Op StateError S Unit :=
  Op.forEach (fun call => write call.1 call.2) calls

/-- The mutations of all calls. -/
def mutationsOf (calls : List WriteCall) : List StateMutation := (calls.map Prod.fst).flatten

variable {calls : List WriteCall}

/-- A batch that acts as its mutations extends to histories. -/
theorem runWrites_simulates {S : Type}
    {write : List StateMutation → Admission → Op StateError S Unit} (rel : S → StateMap → Prop)
    (hwrite : ∀ mutations admission s s' map, rel s map →
      write mutations admission s = (.ok (), s') → rel s' (map.applyAll mutations))
    {s s' : S} {map : StateMap} (h : rel s map)
    (hrun : runWrites write calls s = (.ok (), s')) :
    rel s' (map.applyAll (mutationsOf calls)) := by
  have := Op.forEach_ok_induction (fun (map : StateMap) (call : WriteCall) =>
    map.applyAll call.1) rel
    (fun call s s' map h hcall => hwrite call.1 call.2 s s' map h hcall) h hrun
  simpa [mutationsOf, StateMap.applyAll, List.foldl_flatten, List.foldl_map] using this

namespace MemoryKeyedState

/-- The calls apply their mutations in order. -/
theorem runWrites_spec {m₀ m : MemoryKeyedState H} (hv : m₀.Valid)
    (h : runWrites writeBatch calls m₀ = (.ok (), m)) :
    m.Valid ∧ SameRange m₀ m ∧ m.toMap = m₀.toMap.applyAll (mutationsOf calls) := by
  refine runWrites_simulates (fun (s : MemoryKeyedState H) map => s.Valid ∧
    SameRange m₀ s ∧ s.toMap = map)
    ?_ ⟨hv, ⟨rfl, rfl⟩, rfl⟩ h
  rintro mutations admission s s' _ ⟨hs, hrange, rfl⟩ hwrite
  obtain ⟨hs', hrange', hmap⟩ := writeBatch_simulates hs hwrite
  exact ⟨hs', hrange.trans hrange', hmap⟩

end MemoryKeyedState

namespace OrderedMemoryKeyedState

/-- The calls apply their mutations in order. -/
theorem runWrites_spec {o₀ o : OrderedMemoryKeyedState}
    (h : runWrites writeBatch calls o₀ = (.ok (), o)) :
    (o.first = o₀.first ∧ o.groups.length = o₀.groups.length) ∧
      o.toMap = o₀.toMap.applyAll (mutationsOf calls) := by
  refine runWrites_simulates (fun (s : OrderedMemoryKeyedState) map =>
      (s.first = o₀.first ∧ s.groups.length = o₀.groups.length) ∧ s.toMap = map)
    ?_ ⟨⟨rfl, rfl⟩, rfl⟩ h
  rintro mutations admission s s' _ ⟨⟨hfirst, hlen⟩, rfl⟩ hwrite
  obtain ⟨⟨hfirst', hlen'⟩, hmap⟩ := writeBatch_simulates hwrite
  exact ⟨⟨hfirst'.trans hfirst, hlen'.trans hlen⟩, hmap⟩

end OrderedMemoryKeyedState

/-- The groups of a range are the owned ones. -/
theorem exists_groupIndex_iff {first last g : UInt32} (hle : first ≤ last) :
    (∃ i, groupIndex first (last.toNat - first.toNat + 1) g = .ok i) ↔ first ≤ g ∧ g ≤ last := by
  simp only [groupIndex_eq_ok, UInt32.le_iff_toNat_le] at *
  constructor
  · rintro ⟨i, hi, hg⟩
    omega
  · intro hg
    exact ⟨g.toNat - first.toNat, by omega, by omega⟩

/-- **The hash backend and the ordered backend represent the same map.**  Start both over the same
key groups and apply the same batches successfully.  Then

* both represent the map of all mutations, applied one by one;
* a batched read of owned keys answers from that map in both, and any batched read gives the same
  outcome in both;
* snapshots of an owned group are byte-identical, whatever the host answered; with enough memory
  either backend returns a frame exactly if it is the canonical frame of the group's contents. -/
theorem hash_and_ordered_backends_agree (hashers : Hashers) (first last : UInt32)
    (m₀ m : MemoryKeyedState H) (o₀ o : OrderedMemoryKeyedState) (a a' : Admission)
    (calls calls' : List WriteCall)
    (hm₀ : MemoryKeyedState.new hashers first last a = .ok m₀)
    (ho₀ : new first last a' = .ok o₀)
    (hm : runWrites MemoryKeyedState.writeBatch calls m₀ = (.ok (), m))
    (ho : runWrites writeBatch calls' o₀ = (.ok (), o))
    (hcalls : calls.map Prod.fst = calls'.map Prod.fst) :
    let map := StateMap.empty.applyAll (mutationsOf calls)
    (m.toMap = map ∧ o.toMap = map) ∧
    (∀ keys : List StateKey, (∀ key ∈ keys, first ≤ key.keyGroup ∧ key.keyGroup ≤ last) →
      m.getBatch keys .all = .ok (keys.map fun key => map key.keyGroup key.key) ∧
        o.getBatch keys .all = .ok (keys.map fun key => map key.keyGroup key.key)) ∧
    (∀ keys admission, m.getBatch keys admission = o.getBatch keys admission) ∧
    (∀ g, first ≤ g → g ≤ last → ∀ frame frame' admission admission',
      m.snapshotKeyGroup g admission = .ok frame → o.snapshotKeyGroup g admission' = .ok frame' →
        frame = frame') ∧
    ∀ g, first ≤ g → g ≤ last → ∀ frame,
      (m.snapshotKeyGroup g .all = .ok frame ↔ CanonicalSnapshot (map g) g frame) ∧
        (o.snapshotKeyGroup g .all = .ok frame ↔ CanonicalSnapshot (map g) g frame) := by
  intro map
  obtain ⟨hv₀, hmap₀, hfirst₀, hlen₀, hle⟩ := MemoryKeyedState.new_eq_ok hm₀
  obtain ⟨hmap₀', hfirst₀', hlen₀', -⟩ := new_eq_ok ho₀
  obtain ⟨hv, hrange, hmapm⟩ := MemoryKeyedState.runWrites_spec hv₀ hm
  obtain ⟨⟨hfirst', hlen'⟩, hmapo⟩ := runWrites_spec ho
  have hmapm : m.toMap = map := by rw [hmapm, hmap₀]
  have hmapo : o.toMap = map := by rw [hmapo, hmap₀', mutationsOf, ← hcalls]; rfl
  have hfirst : m.firstKeyGroup = first := hrange.1.trans hfirst₀
  have hlen : m.groups.length = last.toNat - first.toNat + 1 := hrange.2.trans hlen₀
  rw [hfirst₀'] at hfirst'
  rw [hlen₀'] at hlen'
  have howned := @exists_groupIndex_iff first last
  -- a lookup depends on the owned range and on the map only
  have hlookup : m.lookup = o.lookup := by
    funext key
    rw [m.lookup_eq, o.lookup_eq, hfirst, hlen, hfirst', hlen', hmapm, hmapo]
  refine ⟨⟨hmapm, hmapo⟩, ?_, ?_, ?_, ?_⟩
  · intro keys hkeys
    have hread : ∀ key ∈ keys, o.lookup key = .ok (map key.keyGroup key.key) := by
      intro key hkey
      obtain ⟨i, hi⟩ := (howned hle).mpr (hkeys key hkey)
      rw [o.lookup_eq, hfirst', hlen', hi, hmapo]
      rfl
    have hall := lookupAll_of_ok hread
    refine ⟨?_, hall⟩
    show lookupAll m.lookup keys = _
    rw [hlookup]
    exact hall
  · intro keys admission
    rw [MemoryKeyedState.getBatch, getBatch, hlookup]
  · intro g _ _ frame frame' admission admission'
    rw [MemoryKeyedState.snapshotKeyGroup_eq_ok hv, snapshotKeyGroup_eq_ok, hmapm, hmapo]
    exact fun h h' => h.2.2.unique h'.2.2
  · intro g hg hg' frame
    have hg := (howned hle).mpr ⟨hg, hg'⟩
    rw [MemoryKeyedState.snapshotKeyGroup_eq_ok hv, snapshotKeyGroup_eq_ok,
      hmapm, hmapo, hfirst, hlen, hfirst', hlen']
    simp [hg]

/-- Two batches over two groups that insert, delete, reinsert and overwrite. -/
def twoBatches : List WriteCall :=
  [([⟨⟨3, [1]⟩, some [7, 7]⟩, ⟨⟨4, [2]⟩, some [8]⟩, ⟨⟨3, [1]⟩, none⟩], .all),
    ([⟨⟨3, [1]⟩, some [5]⟩, ⟨⟨4, [2]⟩, none⟩, ⟨⟨3, [1]⟩, some [9]⟩], .all)]

/-- A hash backend over the groups 3 and 4 that routes keys by their length. -/
def lengthRouted : MemoryKeyedState (HashTable.buckets PackedEntry) :=
  ⟨3, (List.range 2).map fun _ => .withHasher (fun key => key.length.toUInt64) fun _ _ => 0⟩

theorem hash_and_ordered_backends_agree_two_batches :
    (runWrites MemoryKeyedState.writeBatch twoBatches lengthRouted).2.toMap =
      (runWrites writeBatch twoBatches ⟨3, [∅, ∅]⟩).2.toMap := by
  obtain ⟨⟨hm, ho⟩, -⟩ := hash_and_ordered_backends_agree
    ⟨fun _ key => key.length.toUInt64, fun _ _ _ => 0⟩ 3 4 lengthRouted
    (runWrites MemoryKeyedState.writeBatch twoBatches lengthRouted).2 ⟨3, [∅, ∅]⟩
    (runWrites writeBatch twoBatches ⟨3, [∅, ∅]⟩).2 .all .all
    twoBatches twoBatches rfl rfl (Prod.ext (by decide +kernel) (by dsimp only))
      (Prod.ext (by decide) rfl) rfl
  exact hm.trans ho.symm

/-! ## Writes that fail -/

/-- No read tells two states of the hash backend apart: not the values of keys, not batched reads,
not snapshots, and scans walk over the same entries, maybe in another order. -/
structure Unchanged (m m' : MemoryKeyedState H) : Prop where
  valid : m'.Valid
  toMap_eq : m'.toMap = m.toMap
  getBatch_eq : ∀ keys a, m'.getBatch keys a = m.getBatch keys a
  snapshot_iff : ∀ g a frame, m'.snapshotKeyGroup g a = .ok frame ↔
    m.snapshotKeyGroup g a = .ok frame
  scan_perm : ∀ g map map', m.group g = .ok map → m'.group g = .ok map' → map'.iter.Perm map.iter

/-- Reads depend on the range and on the represented map only. -/
theorem Unchanged.of_toMap_eq {m m' : MemoryKeyedState H} (hv : m.Valid) (hv' : m'.Valid)
    (hrange : MemoryKeyedState.SameRange m m') (hmap : m'.toMap = m.toMap) : Unchanged m m' := by
  have hlookup : m'.lookup = m.lookup := by
    funext key
    rw [m'.lookup_eq, m.lookup_eq, hrange.groupIndex_eq, hmap]
  refine ⟨hv', hmap, ?_, ?_, ?_⟩
  · intro keys a
    rw [MemoryKeyedState.getBatch, MemoryKeyedState.getBatch, hlookup]
  · intro g a frame
    rw [MemoryKeyedState.snapshotKeyGroup_eq_ok hv', MemoryKeyedState.snapshotKeyGroup_eq_ok hv,
      hrange.groupIndex_eq, hmap]
  · intro g map map' hg hg'
    have hvalid := MemoryKeyedState.valid_of_group hv hg
    have hvalid' := MemoryKeyedState.valid_of_group hv' hg'
    refine (List.perm_ext_iff_of_nodup (.of_map _ (KeyGroupMap.nodup_keys hvalid'))
      (.of_map _ (KeyGroupMap.nodup_keys hvalid))).mpr ?_
    rintro ⟨k, v⟩
    rw [← KeyGroupMap.get_eq_some hvalid', ← KeyGroupMap.get_eq_some hvalid,
      ← MemoryKeyedState.toMap_of_group hg', ← MemoryKeyedState.toMap_of_group hg, hmap]

/-- A batch over an owned group and one that is not. -/
def strayBatch : List StateMutation := [⟨⟨3, [1]⟩, some [7]⟩, ⟨⟨9, [1]⟩, some [8]⟩]

/-- A batch that deletes a key and puts it again.  The growth that is asked for before the batch
does not count the key, so the table may grow for it; the settling request is then for more
memory. -/
def rewriteBatch : List StateMutation := [⟨⟨3, [1]⟩, none⟩, ⟨⟨3, [1]⟩, some [8]⟩]

end StreamFusion.State
