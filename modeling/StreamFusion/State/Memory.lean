import StreamFusion.State.KeyGroupMap

/-!
# The hash backend

`MemoryKeyedState` holds one `KeyGroupMap` for each owned key group.  A write batch is admitted
before it changes anything: every mutation's group is checked, the insertions are counted for each
shard, and the shards are reserved.  Only then are the mutations applied, in order.  A snapshot
lists the entries of all shards, sorts them by key and feeds them to the sized writer.

The backend simulates `StateMap`: a successful batch acts on `toMap` as `StateMap.applyAll`
(`writeBatch_simulates`), and with enough memory a batch over owned groups succeeds
(`writeBatch_succeeds`); in particular no insertion runs into a missing directory.
-/

namespace StreamFusion.State

open Wire Snapshot Op KeyGroupMap List

variable {H : HashTable PackedEntry}

/-- The hash functions the runtime will seed: one routing hash for each group and one hash for each
of its shards. -/
structure Hashers where
  routing : Nat → Bytes → UInt64
  shard : Nat → Nat → Bytes → UInt64

/-- The hash backend: a map for each owned key group. -/
structure MemoryKeyedState (H : HashTable PackedEntry) where
  firstKeyGroup : UInt32
  groups : List (KeyGroupMap H)

namespace MemoryKeyedState

/-- A backend without entries. -/
def new (hashers : Hashers) (firstKeyGroup lastKeyGroup : UInt32) (admission : Admission) :
    Except StateError (MemoryKeyedState H) :=
  if lastKeyGroup < firstKeyGroup then
    .error (.execution ("invalid owned key-group range " ++ toString firstKeyGroup ++ "..=" ++
      toString lastKeyGroup))
  else do
    let count := lastKeyGroup.toNat - firstKeyGroup.toNat + 1
    admission.request 0
    return ⟨firstKeyGroup, (List.range count).map fun i =>
      .withHasher (hashers.routing i) (hashers.shard i)⟩

/-- The map of a key group. -/
def group (state : MemoryKeyedState H) (keyGroup : UInt32) :
    Except StateError (KeyGroupMap H) := do
  let index ← groupIndex state.firstKeyGroup state.groups.length keyGroup
  match state.groups[index]? with
  | some map => .ok map
  | none => .error (notOwned keyGroup)

/-- Works on the map of a key group. -/
def onGroup (keyGroup : UInt32) (op : Op StateError (KeyGroupMap H) Unit) :
    Op StateError (MemoryKeyedState H) Unit := fun state =>
  match groupIndex state.firstKeyGroup state.groups.length keyGroup with
  | .error error => (.error error, state)
  | .ok index =>
    match state.groups[index]? with
    | none => (.error (notOwned keyGroup), state)
    | some map =>
      let (result, map) := op map
      (result, { state with groups := state.groups.set index map })

/-- The value of a key. -/
def lookup (state : MemoryKeyedState H) (key : StateKey) : Except StateError (Option Bytes) := do
  let map ← state.group key.keyGroup
  return map.get key.key

/-- The values of some keys. -/
def getBatch (state : MemoryKeyedState H) (keys : List StateKey) (admission : Admission) :
    Except StateError (List (Option Bytes)) := do
  admission.request 0
  lookupAll state.lookup keys

/-- The order of the additions: by group, then by shard. -/
def shardOrder : UInt32 × Nat → UInt32 × Nat → Ordering :=
  compareLex (compareOn Prod.fst) (compareOn Prod.snd)

instance : Std.TransCmp shardOrder := inferInstanceAs (Std.TransCmp (compareLex _ _))

instance : Std.LawfulEqCmp shardOrder where
  compare_self := by simp [shardOrder, compareLex, compareOn]
  eq_of_compare := by
    rintro ⟨g, i⟩ ⟨g', i'⟩ h
    rw [shardOrder, compareLex, compareOn, compareOn, Ordering.then_eq_eq] at h
    exact Prod.ext (Std.LawfulEqCmp.eq_of_compare h.1) (Std.LawfulEqCmp.eq_of_compare h.2)

/-- Is this mutation an insertion of a key the state does not hold? -/
def isAddition (state : MemoryKeyedState H) (mutation : StateMutation) : Bool :=
  mutation.value.isSome &&
    match state.group mutation.key.keyGroup with
    | .ok map => !map.containsKey mutation.key.key
    | .error _ => false

/-- The shard of the group that a mutation's key belongs to. -/
def shardOf (state : MemoryKeyedState H) (mutation : StateMutation) : UInt32 × Nat :=
  (mutation.key.keyGroup,
    match state.group mutation.key.keyGroup with
    | .ok map => map.shardIndex mutation.key.key
    | .error _ => 0)

/-- Counts a mutation that adds a key. -/
def countAddition (state : MemoryKeyedState H)
    (additions : Std.ExtTreeMap (UInt32 × Nat) Nat shardOrder) (mutation : StateMutation) :
    Std.ExtTreeMap (UInt32 × Nat) Nat shardOrder :=
  if state.isAddition mutation then
    additions.alter (state.shardOf mutation) fun count => some (count.getD 0 + 1)
  else
    additions

/-- How many keys the mutations add to each shard. -/
def additions (state : MemoryKeyedState H) (mutations : List StateMutation) :
    Std.ExtTreeMap (UInt32 × Nat) Nat shardOrder :=
  mutations.foldl state.countAddition ∅

/-- A mutation of a group's map. -/
def mutateGroup (mutation : StateMutation) : Op StateError (KeyGroupMap H) Unit :=
  match mutation.value with
  | some value => KeyGroupMap.insert mutation.key.key value
  | none => modify fun map => map.removeBytes mutation.key.key

/-- A mutation. -/
def applyMutation (mutation : StateMutation) : Op StateError (MemoryKeyedState H) Unit :=
  onGroup mutation.key.keyGroup (mutateGroup mutation)

/-- Makes room for the additions to one shard, which has two memory requests of its own. -/
def reserveAdditions (admission : Admission) (addition : (UInt32 × Nat) × Nat) :
    Op StateError (MemoryKeyedState H) Unit :=
  onGroup addition.1.1
    (KeyGroupMap.reserveShard addition.1.2 addition.2 admission
      (3 + 2 * (addition.1.1.toNat * shardCount + addition.1.2)))

/-- Makes room for all additions. -/
def reserveAll (admission : Admission) (additions : List ((UInt32 × Nat) × Nat)) :
    Op StateError (MemoryKeyedState H) Unit :=
  forEach (reserveAdditions admission) additions

/-- Requests 0 and 1 are for the write directory and for the growth of the state, and request 2
settles the reservation at the end. -/
def writeBatch (mutations : List StateMutation) (admission : Admission) :
    Op StateError (MemoryKeyedState H) Unit := do
  let state ← get
  lift (checkOwned state.firstKeyGroup state.groups.length mutations)
  lift (admission.request 0)
  lift (admission.request 1)
  reserveAll admission (state.additions mutations).toList
  forEach applyMutation mutations
  lift (admission.request 2)

/-- The size of a snapshot with one more entry. -/
def addEntrySize (bytes : Nat) (entry : Bytes × Bytes) : Except StateError Nat :=
  match ((checkedAdd bytes 8).bind (checkedAdd · entry.1.length)).bind
      (checkedAdd · entry.2.length) with
  | some bytes => .ok bytes
  | none => .error (.resourcesExhausted "canonical snapshot size overflow")

/-- The size of a snapshot. -/
def snapshotSize (entries : List (Bytes × Bytes)) : Except StateError Nat :=
  entries.foldlM addEntrySize 16

/-- The frame of a group, sorted by key. -/
def snapshotKeyGroup (state : MemoryKeyedState H) (keyGroup : UInt32) (admission : Admission) :
    Except StateError Bytes := do
  let map ← state.group keyGroup
  let bytes ← snapshotSize map.iter
  admission.request 0
  admission.request 1
  let entries := map.entries.mergeSort fun left right => (compare left.key right.key).isLE
  (Snapshot.SnapshotWriter.writeAll keyGroup map.len bytes
    (entries.map fun entry => (entry.key, entry.value))).mapError snapshotError

/-! ## Scans -/

variable {σ : Type}

section Scan

/-- The memory that an entry takes in a scan. -/
def entryWeight (entry : Bytes × Bytes) : Nat :=
  saturatingAdd (saturatingAdd entry.1.length entry.2.length) 96

/-- The loop of a scan over the matching entries that are left, with the page under construction
and its weight. -/
def scanLoop (maxRows maxBytes : Nat) (visitor : List (Bytes × Bytes) → Op StateError σ Unit) :
    List (Bytes × Bytes) → List (Bytes × Bytes) → Nat → Op StateError σ Unit
  | [], page, _ => if page.isEmpty then pure () else visitor page
  | entry :: rest, page, bytes =>
    if entryWeight entry > maxBytes then
      lift (.error (.resourcesExhausted "state scan entry exceeds the admitted page budget"))
    else if page.length = maxRows ∨ saturatingAdd bytes (entryWeight entry) > maxBytes then do
      visitor page
      scanLoop maxRows maxBytes visitor rest [entry] (entryWeight entry)
    else
      scanLoop maxRows maxBytes visitor rest (page ++ [entry]) (bytes + entryWeight entry)

/-- Visits the entries whose key starts with `start`, in the order the tables hold them. -/
def visitPrefix (state : MemoryKeyedState H) (keyGroup : UInt32) (start : Bytes)
    (maxRows maxBytes : Nat) (visitor : List (Bytes × Bytes) → Op StateError σ Unit) :
    Op StateError σ Unit :=
  if maxRows = 0 ∨ maxBytes = 0 then
    lift (.error (.execution "state scan bounds must be positive"))
  else do
    let map ← lift (state.group keyGroup)
    scanLoop maxRows maxBytes visitor (map.iter.filter fun entry => start.isPrefixOf entry.1) [] 0

/-- Visits the entries of a group in pages. -/
def visitKeyGroup (state : MemoryKeyedState H) (keyGroup : UInt32) (maxRows maxBytes : Nat)
    (visitor : List (Bytes × Bytes) → Op StateError σ Unit) : Op StateError σ Unit :=
  state.visitPrefix keyGroup [] maxRows maxBytes visitor

end Scan

/-! ## The contents of the state -/

/-- Every group keeps the invariant of its shards. -/
def Valid (state : MemoryKeyedState H) : Prop := ∀ map ∈ state.groups, map.Valid

/-- What is stored. -/
def toMap (state : MemoryKeyedState H) : StateMap := fun g k =>
  match state.group g with
  | .ok map => map.get k
  | .error _ => none

variable {state : MemoryKeyedState H} {g : UInt32} {map : KeyGroupMap H}

theorem group_eq_ok :
    state.group g = .ok map ↔ ∃ i, groupIndex state.firstKeyGroup state.groups.length g = .ok i ∧
      state.groups[i]? = some map := by
  simp only [group, Except.bind_eq_ok]
  constructor
  · rintro ⟨i, hi, h⟩
    split at h
    · rename_i found hfound
      exact ⟨i, hi, by rw [hfound, Except.ok.inj h]⟩
    · cases h
  · rintro ⟨i, hi, h⟩
    exact ⟨i, hi, by rw [h]⟩

/-- A group is found exactly if its position is in range. -/
theorem exists_group : (∃ map, state.group g = .ok map) ↔
      ∃ i, groupIndex state.firstKeyGroup state.groups.length g = .ok i := by
  simp only [group_eq_ok]
  constructor
  · rintro ⟨map, i, hi, -⟩
    exact ⟨i, hi⟩
  · rintro ⟨i, hi⟩
    exact ⟨_, i, hi, List.getElem?_eq_getElem (groupIndex_eq_ok.mp hi).1⟩

/-- A lookup reads what is stored. -/
theorem lookup_eq (state : MemoryKeyedState H) (key : StateKey) :
    state.lookup key = (groupIndex state.firstKeyGroup state.groups.length key.keyGroup).map
      fun _ => state.toMap key.keyGroup key.key := by
  rcases hi : groupIndex state.firstKeyGroup state.groups.length key.keyGroup with e | i
  · simp [lookup, group, hi, Except.map]
  · obtain ⟨map, hmap⟩ := exists_group.mpr ⟨i, hi⟩
    simp [lookup, toMap, hmap, Except.map]

theorem valid_of_group (hv : state.Valid) (h : state.group g = .ok map) : map.Valid := by
  obtain ⟨i, -, hi⟩ := group_eq_ok.mp h
  exact hv map (mem_of_getElem? hi)

theorem toMap_of_group (h : state.group g = .ok map) (k : Bytes) : state.toMap g k = map.get k := by
  rw [toMap, h]

/-- The owned range, which no operation changes. -/
def SameRange (state state' : MemoryKeyedState H) : Prop :=
  state'.firstKeyGroup = state.firstKeyGroup ∧ state'.groups.length = state.groups.length

variable {s s' s'' : MemoryKeyedState H}

theorem SameRange.trans (h : SameRange s s') (h' : SameRange s' s'') : SameRange s s'' :=
  ⟨h'.1.trans h.1, h'.2.trans h.2⟩

theorem SameRange.groupIndex_eq (h : SameRange s s') (g : UInt32) :
    groupIndex s'.firstKeyGroup s'.groups.length g =
        groupIndex s.firstKeyGroup s.groups.length g := by
  rw [h.1, h.2]

variable {map' : KeyGroupMap H} {result : Except StateError Unit}

/-- An operation on one group runs on that group and leaves the others alone. -/
theorem onGroup_of_group {op : Op StateError (KeyGroupMap H) Unit}
    (hgroup : state.group g = .ok map) (hop : op map = (result, map')) :
    ∃ state', onGroup g op state = (result, state') ∧ SameRange state state' ∧
      (∀ g', state'.group g' = if g' = g then .ok map' else state.group g') ∧
      (state.Valid → map'.Valid → state'.Valid) := by
  obtain ⟨i, hi, hmap⟩ := group_eq_ok.mp hgroup
  have hlt : i < state.groups.length := (groupIndex_eq_ok.mp hi).1
  refine ⟨{ state with groups := state.groups.set i map' }, ?_, ⟨rfl, by simp⟩, ?_, ?_⟩
  · simp only [onGroup, hi, hmap, hop]
  · intro g'
    by_cases hg : g' = g
    · subst hg
      rw [if_pos rfl, group_eq_ok]
      exact ⟨i, by simpa using hi, by simp [hlt]⟩
    · rw [if_neg hg]
      rcases hi' : groupIndex state.firstKeyGroup state.groups.length g' with e | j
      · simp [group, hi']
      · have hne : i ≠ j := by
          rintro rfl
          exact hg (groupIndex_injective hi' hi)
        simp [group, hi', hne]
  · intro hv hv' m hm
    rcases mem_or_eq_of_mem_set hm with hm | rfl
    · exact hv m hm
    · exact hv'

theorem onGroup_of_error {e : StateError}
    (op : Op StateError (KeyGroupMap H) Unit) (hgroup : state.group g = .error e) :
    ∃ e', onGroup g op state = (.error e', state) := by
  rcases hi : groupIndex state.firstKeyGroup state.groups.length g with e' | i
  · exact ⟨e', by simp [onGroup, hi]⟩
  · obtain ⟨map, hmap⟩ := exists_group.mpr ⟨i, hi⟩
    simp [hmap] at hgroup

/-! ### The reservation of the shards -/

/-- A state that no lookup tells from another one, with at least its directories. -/
structure SameContents (state state' : MemoryKeyedState H) : Prop where
  valid : state'.Valid
  range : SameRange state state'
  toMap_eq : state'.toMap = state.toMap
  directory : ∀ g map, state.group g = .ok map → map.shards ≠ [] →
    ∃ map', state'.group g = .ok map' ∧ map'.shards ≠ []

theorem SameContents.refl (hv : state.Valid) : SameContents state state :=
  ⟨hv, ⟨rfl, rfl⟩, rfl, fun _ map h hne => ⟨map, h, hne⟩⟩

theorem SameContents.trans (h : SameContents s s') (h' : SameContents s' s'') :
    SameContents s s'' := by
  refine ⟨h'.valid, h.range.trans h'.range, h'.toMap_eq.trans h.toMap_eq, ?_⟩
  intro g map hmap hne
  obtain ⟨map', hmap', hne'⟩ := h.directory g map hmap hne
  exact h'.directory g map' hmap' hne'

variable {state' : MemoryKeyedState H} {admission : Admission}

/-- Reserving a shard of a group changes nothing a lookup can see. -/
theorem reserve_spec {index additions : Nat} {request : Nat} (hv : state.Valid)
    (h : onGroup g (KeyGroupMap.reserveShard index additions admission request) state =
      (result, state')) :
    SameContents state state' ∧
        (result = .ok () → ∃ map, state'.group g = .ok map ∧ map.shards ≠ []) := by
  rcases hgroup : state.group g with e | map
  · obtain ⟨e', he'⟩ :=
      onGroup_of_error (KeyGroupMap.reserveShard index additions admission request) hgroup
    rw [he'] at h
    obtain ⟨rfl, rfl⟩ := Prod.mk.inj h
    exact ⟨.refl hv, by simp⟩
  · have hmap := valid_of_group hv hgroup
    rcases hop : KeyGroupMap.reserveShard index additions admission request map with ⟨r, map'⟩
    obtain ⟨hsame, hne⟩ := reserveShard_spec hmap hop
    obtain ⟨s', hs', hrange, hgroups, hvalid⟩ := onGroup_of_group hgroup hop
    rw [hs'] at h
    obtain ⟨rfl, rfl⟩ := Prod.mk.inj h
    refine ⟨⟨hvalid hv hsame.valid, hrange, ?_, ?_⟩, ?_⟩
    · funext g' k
      rw [toMap, toMap, hgroups]
      split_ifs with hg
      · subst hg
        rw [hgroup]
        exact hsame.get_eq k
      · rfl
    · intro g' old hold hne'
      rw [hgroups]
      split_ifs with hg
      · subst hg
        obtain rfl : map = old := by simpa [hgroup] using hold
        exact ⟨map', rfl, hsame.directory hne'⟩
      · exact ⟨old, hold, hne'⟩
    · intro hr
      exact ⟨map', by rw [hgroups, if_pos rfl], hne hr⟩

variable {additions : List ((UInt32 × Nat) × Nat)}

/-- No lookup sees a reservation, also one that fails half-way. -/
theorem reserveAll_spec (hv : state.Valid)
    (h : reserveAll admission additions state = (result, state')) :
    SameContents state state' ∧ (result = .ok () → ∀ addition ∈ additions, ∃ map,
      state'.group addition.1.1 = .ok map ∧ map.shards ≠ []) := by
  induction additions generalizing state with
  | nil =>
    obtain ⟨-, rfl⟩ := Prod.mk.inj h
    exact ⟨.refl hv, by simp⟩
  | cons addition additions ih =>
    rw [reserveAll, forEach_cons] at h
    rcases h₁ : reserveAdditions admission addition state with ⟨e | ⟨⟩, s₁⟩
    · rw [bind_of_error h₁] at h
      obtain ⟨rfl, rfl⟩ := Prod.mk.inj h
      exact ⟨(reserve_spec hv h₁).1, nofun⟩
    rw [bind_of_ok h₁] at h
    obtain ⟨hsame₁, hne₁⟩ := reserve_spec hv h₁
    obtain ⟨hsame₂, hne₂⟩ := ih hsame₁.valid h
    refine ⟨hsame₁.trans hsame₂, fun hok => forall_mem_cons.mpr ⟨?_, hne₂ hok⟩⟩
    obtain ⟨map, hmap, hne⟩ := hne₁ rfl
    exact hsame₂.directory _ map hmap hne

theorem reserveAll_succeeds (hv : state.Valid)
    (hadditions : ∀ addition ∈ additions, addition.1.2 < shardCount ∧
      ∃ i, groupIndex state.firstKeyGroup state.groups.length addition.1.1 = .ok i) :
    ∃ state', reserveAll .all additions state = (.ok (), state') := by
  have hloop := forEach_succeeds (reserveAdditions .all)
    (fun s : MemoryKeyedState H => SameContents state s) additions ?_ (.refl hv)
  · obtain ⟨s', hs', -⟩ := hloop
    exact ⟨s', hs'⟩
  · intro addition haddition s hsame
    obtain ⟨hlt, i, hi⟩ := hadditions addition haddition
    obtain ⟨map, hmap⟩ := exists_group.mpr ⟨i, (hsame.range.groupIndex_eq _).trans hi⟩
    obtain ⟨map', hop⟩ := reserveShard_succeeds (valid_of_group hsame.valid hmap) hlt
      addition.2 (3 + 2 * (addition.1.1.toNat * shardCount + addition.1.2))
    obtain ⟨s', hs', -⟩ := onGroup_of_group hmap hop
    exact ⟨s', hs', hsame.trans (reserve_spec hsame.valid hs').1⟩

/-! ### One mutation -/

variable {mutation : StateMutation}

theorem mutateGroup_spec (hv : map.Valid) (h : mutateGroup mutation map = (.ok (), map')) :
    map'.Valid ∧ map'.shards.length = map.shards.length ∧
      ∀ k, map'.get k = if k = mutation.key.key then mutation.value else map.get k := by
  rcases hvalue : mutation.value with _ | value
  · rw [mutateGroup, hvalue] at h
    obtain ⟨-, rfl⟩ := Prod.mk.inj h
    exact removeBytes_spec hv _
  · rw [mutateGroup, hvalue] at h
    refine ⟨valid_insert hv h, ?_, get_insert hv h⟩
    obtain ⟨shard, -, rfl⟩ := insert_eq_ok h
    simp

/-- A mutation acts on the represented map as `StateMap.apply`, and no directory disappears. -/
theorem applyMutation_spec (hv : state.Valid)
    (h : applyMutation mutation state = (.ok (), state')) :
    state'.Valid ∧ SameRange state state' ∧ state'.toMap = state.toMap.apply mutation ∧
      ∀ g map, state.group g = .ok map → map.shards ≠ [] →
        ∃ map', state'.group g = .ok map' ∧ map'.shards ≠ [] := by
  rcases hgroup : state.group mutation.key.keyGroup with e | map
  · obtain ⟨e', he'⟩ := onGroup_of_error (mutateGroup mutation) hgroup
    rw [applyMutation, he'] at h
    simp at h
  · rcases hop : mutateGroup mutation map with ⟨result, map'⟩
    obtain ⟨s', hs', hrange, hgroups, hvalid⟩ := onGroup_of_group hgroup hop
    rw [applyMutation, hs'] at h
    obtain ⟨rfl, rfl⟩ := Prod.mk.inj h
    obtain ⟨hv', hlen, hget⟩ := mutateGroup_spec (valid_of_group hv hgroup) hop
    refine ⟨hvalid hv hv', hrange, ?_, ?_⟩
    · funext g k
      rw [toMap, hgroups, StateMap.apply]
      by_cases hg : g = mutation.key.keyGroup
      · subst hg
        simp only [if_true, true_and, hget, toMap_of_group hgroup]
      · simp only [hg, if_false, false_and]
        rfl
    · intro g old hold hne
      rw [hgroups]
      split_ifs with hg
      · subst hg
        obtain rfl : map = old := by simpa [hgroup] using hold
        refine ⟨map', rfl, fun hnil => hne ?_⟩
        exact length_eq_zero_iff.mp (by rw [← hlen, hnil, length_nil])
      · exact ⟨old, hold, hne⟩

/-- A mutation of an owned group succeeds once the directory of its group exists; a deletion does
not even need that. -/
theorem applyMutation_succeeds (hv : state.Valid)
    (hmap : state.group mutation.key.keyGroup = .ok map)
    (hne : mutation.value.isSome → map.shards ≠ []) :
    ∃ state', applyMutation mutation state = (.ok (), state') := by
  have hop : ∃ map', mutateGroup mutation map = (.ok (), map') := by
    rcases hvalue : mutation.value with _ | value
    · exact ⟨_, by rw [mutateGroup, hvalue]; rfl⟩
    · have hlen := (valid_of_group hv hmap).directory.resolve_left (hne (by simp [hvalue]))
      have hlt := map.shardIndex_lt mutation.key.key
      obtain ⟨shard, hshard⟩ : ∃ shard, map.shards[map.shardIndex mutation.key.key]? = some shard :=
        ⟨_, List.getElem?_eq_getElem (by omega)⟩
      exact ⟨{ map with
          shards := map.shards.set (map.shardIndex mutation.key.key)
            (shard.insert mutation.key.key value) },
        by simp only [mutateGroup, hvalue, KeyGroupMap.insert, hshard]⟩
  obtain ⟨map', hop⟩ := hop
  obtain ⟨s', hs', -⟩ := onGroup_of_group hmap hop
  exact ⟨s', hs'⟩

/-! ### A batch -/

variable {mutations : List StateMutation}

theorem mem_additions {shard : UInt32 × Nat} : shard ∈ state.additions mutations ↔
      ∃ m ∈ mutations, state.isAddition m ∧ state.shardOf m = shard := by
  suffices ∀ acc : Std.ExtTreeMap (UInt32 × Nat) Nat shardOrder,
      shard ∈ mutations.foldl state.countAddition acc ↔
        shard ∈ acc ∨ ∃ m ∈ mutations, state.isAddition m ∧ state.shardOf m = shard from
    (this ∅).trans (by simp)
  induction mutations with
  | nil => simp
  | cons m ms ih =>
    intro acc
    rw [foldl_cons, ih, countAddition]
    by_cases hadd : state.isAddition m
    · simp only [hadd, if_true, Std.ExtTreeMap.mem_alter, Std.LawfulEqCmp.compare_eq_iff_eq,
        Option.isSome_some, mem_cons, exists_eq_or_imp, true_and]
      split_ifs with heq <;> simp [heq]
    · simp [hadd]

/-- The mutations act on the represented map, once the shards are reserved. -/
theorem forEach_applyMutation_spec {s₁ : MemoryKeyedState H} (hsame : SameContents state s₁)
    (happly : forEach applyMutation mutations s₁ = (.ok (), state')) :
    state'.Valid ∧ SameRange state state' ∧ state'.toMap = state.toMap.applyAll mutations := by
  refine forEach_ok_induction StateMap.apply
    (fun (s : MemoryKeyedState H) map => s.Valid ∧ SameRange state s ∧ s.toMap = map)
    ?_ ⟨hsame.valid, hsame.range, hsame.toMap_eq⟩ happly
  rintro m s s' _ ⟨hs, hrange, rfl⟩ hm
  obtain ⟨hs', hrange', hmap, -⟩ := applyMutation_spec hs hm
  exact ⟨hs', hrange.trans hrange', hmap⟩

/-- **Simulation.**  A successful batch acts on the represented map as its mutations, one by one. -/
theorem writeBatch_simulates (hv : state.Valid)
    (h : writeBatch mutations admission state = (.ok (), state')) :
    state'.Valid ∧ SameRange state state' ∧ state'.toMap = state.toMap.applyAll mutations := by
  simp only [writeBatch, bind_eq_ok, get_apply, lift_apply, Prod.mk.injEq] at h
  obtain ⟨_, _, ⟨-, rfl⟩, _, _, ⟨-, rfl⟩, _, _, ⟨-, rfl⟩, _, _, ⟨-, rfl⟩, ⟨⟩, s₁, hreserve, ⟨⟩, s₂,
    happly, -, rfl⟩ := h
  exact forEach_applyMutation_spec (reserveAll_spec hv hreserve).1 happly

section

variable (hv : state.Valid) (howned : ∀ m ∈ mutations,
  ∃ i, groupIndex state.firstKeyGroup state.groups.length m.key.keyGroup = .ok i)
include hv howned

/-- Once the shards are reserved no mutation fails. -/
theorem forEach_applyMutation_succeeds {s₁ : MemoryKeyedState H}
    (hreserve : reserveAll admission (state.additions mutations).toList state = (.ok (), s₁)) :
    ∃ s₂, forEach applyMutation mutations s₁ = (.ok (), s₂) := by
  obtain ⟨hsame, hreserved⟩ := reserveAll_spec hv hreserve
  -- a group that receives a value has its directory: the key was there, or its shard is reserved
  have hdirectory : ∀ m ∈ mutations, m.value.isSome → ∃ map,
      s₁.group m.key.keyGroup = .ok map ∧ map.shards ≠ [] := by
    intro m hm hvalue
    obtain ⟨i, hi⟩ := howned m hm
    obtain ⟨map, hmap⟩ := exists_group.mpr ⟨i, hi⟩
    by_cases hadd : state.isAddition m
    · have hmem := mem_additions.mpr ⟨m, hm, hadd, rfl⟩
      rw [← Std.ExtTreeMap.mem_keys, ← Std.ExtTreeMap.map_fst_toList_eq_keys] at hmem
      obtain ⟨addition, haddition, heq⟩ := mem_map.mp hmem
      obtain ⟨map', hmap', hne⟩ := hreserved rfl addition haddition
      rw [heq] at hmap'
      exact ⟨map', hmap', hne⟩
    · have hcontains : map.containsKey m.key.key = true := by
        simpa [isAddition, hvalue, hmap] using hadd
      refine hsame.directory _ map hmap ?_
      intro hnil
      simp [KeyGroupMap.containsKey, KeyGroupMap.get, hnil] at hcontains
  have hloop := forEach_succeeds applyMutation (fun s : MemoryKeyedState H => s.Valid ∧
    SameRange state s ∧
      ∀ m ∈ mutations, m.value.isSome → ∃ map, s.group m.key.keyGroup = .ok map ∧ map.shards ≠ [])
    mutations ?_ ⟨hsame.valid, hsame.range, hdirectory⟩
  · obtain ⟨s₂, hs₂, -⟩ := hloop
    exact ⟨s₂, hs₂⟩
  · rintro m hm s ⟨hs, hrange, hdir⟩
    obtain ⟨i, hi⟩ := howned m hm
    obtain ⟨map, hmap⟩ := exists_group.mpr ⟨i, (hrange.groupIndex_eq _).trans hi⟩
    obtain ⟨s', hs'⟩ := applyMutation_succeeds hs hmap (by
      intro hvalue
      obtain ⟨map', hmap', hne⟩ := hdir m hm hvalue
      obtain rfl : map = map' := by simpa [hmap] using hmap'
      exact hne)
    obtain ⟨hvalid', hrange', -, hkeep⟩ := applyMutation_spec hs hs'
    refine ⟨s', hs', hvalid', hrange.trans hrange', ?_⟩
    intro m' hm' hvalue
    obtain ⟨map', hmap', hne⟩ := hdir m' hm' hvalue
    exact hkeep _ map' hmap' hne

/-- **Progress.**  With enough memory a batch over owned groups succeeds. -/
theorem writeBatch_succeeds :
    ∃ state', writeBatch mutations .all state = (.ok (), state') := by
  have hshard : ∀ addition ∈ (state.additions mutations).toList, addition.1.2 < shardCount ∧
      ∃ i, groupIndex state.firstKeyGroup state.groups.length addition.1.1 = .ok i := by
    intro addition haddition
    have hmem : addition.1 ∈ state.additions mutations := by
      rw [← Std.ExtTreeMap.mem_keys, ← Std.ExtTreeMap.map_fst_toList_eq_keys]
      exact mem_map_of_mem haddition
    obtain ⟨m, hm, -, hshard⟩ := mem_additions.mp hmem
    obtain ⟨i, hi⟩ := howned m hm
    obtain ⟨map, hmap⟩ := exists_group.mpr ⟨i, hi⟩
    rw [← hshard]
    refine ⟨?_, i, hi⟩
    simp only [shardOf, hmap]
    exact map.shardIndex_lt _
  obtain ⟨s₁, hreserve⟩ := reserveAll_succeeds hv hshard
  obtain ⟨s₂, hs₂⟩ := forEach_applyMutation_succeeds hv howned hreserve
  refine ⟨s₂, ?_⟩
  simp only [writeBatch, bind_eq_ok, get_apply, lift_apply, Prod.mk.injEq]
  exact ⟨_, _, ⟨rfl, rfl⟩, (), _, ⟨checkOwned_eq_ok.mpr howned, rfl⟩, (), _, ⟨rfl, rfl⟩, (), _,
    ⟨rfl, rfl⟩, (), s₁, hreserve, (), s₂, hs₂, rfl, rfl⟩

end

/-- The batch has been admitted and applied, and then the request that settles the reservation is
refused. -/
def SettleRefused (state : MemoryKeyedState H) (mutations : List StateMutation)
    (admission : Admission) : Prop :=
  checkOwned state.firstKeyGroup state.groups.length mutations = .ok () ∧
    admission.request 0 = .ok () ∧ admission.request 1 = .ok () ∧
    (reserveAll admission (state.additions mutations).toList state).1 = .ok () ∧
    admission.request 2 = .error .denied

/-- **Atomicity.**  A batch that fails changes nothing a lookup can see, unless it fails after it
has been applied; then it stays applied. -/
theorem writeBatch_error {e : StateError} (hv : state.Valid)
    (h : writeBatch mutations admission state = (.error e, state')) :
    (¬ state.SettleRefused mutations admission ∧ SameContents state state') ∨
      (state.SettleRefused mutations admission ∧ state'.Valid ∧ SameRange state state' ∧
        state'.toMap = state.toMap.applyAll mutations) := by
  simp only [writeBatch, bind_eq_error, get_apply, lift_apply, Prod.mk.injEq,
    reduceCtorEq, false_and,
    false_or] at h
  obtain ⟨_, _, ⟨heq, rfl⟩, h⟩ := h
  cases heq
  unfold SettleRefused
  rcases h with ⟨hfail, rfl⟩ | ⟨⟨⟩, _, ⟨howned, rfl⟩, h⟩
  · exact Or.inl ⟨by simp [hfail], .refl hv⟩
  rcases h with ⟨hfail, rfl⟩ | ⟨⟨⟩, _, ⟨hdirectory, rfl⟩, h⟩
  · exact Or.inl ⟨by simp [hfail], .refl hv⟩
  rcases h with ⟨hfail, rfl⟩ | ⟨⟨⟩, _, ⟨hgrowth, rfl⟩, h⟩
  · exact Or.inl ⟨by simp [hfail], .refl hv⟩
  rcases h with hreserve | ⟨⟨⟩, s₁, hreserve, h⟩
  · exact Or.inl ⟨by simp [hreserve], (reserveAll_spec hv hreserve).1⟩
  obtain ⟨s₂, hs₂⟩ := forEach_applyMutation_succeeds hv (checkOwned_eq_ok.mp howned) hreserve
  -- the mutations do not fail, so it is the settling request
  rcases h with happly | ⟨⟨⟩, _, happly, hfail, rfl⟩
  · simp [hs₂] at happly
  · refine Or.inr ⟨⟨howned, hdirectory, hgrowth, by rw [hreserve], ?_⟩,
      forEach_applyMutation_spec (reserveAll_spec hv hreserve).1 happly⟩
    unfold Admission.request at hfail ⊢
    split_ifs at hfail ⊢
    rfl

/-! ### The snapshot -/

variable {bytes : Nat}

theorem addEntrySize_eq_ok {total : Nat} {entry : Bytes × Bytes} :
    addEntrySize bytes entry = .ok total ↔
      bytes + entrySize entry < usizeLimit ∧ bytes + entrySize entry = total := by
  rw [addEntrySize, checkedAdd_chain, entrySize, ← checkedAdd_eq_some]
  cases checkedAdd bytes (8 + entry.1.length + entry.2.length) <;> simp

/-- The size is counted exactly. -/
theorem snapshotSize_eq_ok {entries : List (Bytes × Bytes)} : snapshotSize entries = .ok bytes ↔
      frameSize entries < usizeLimit ∧ frameSize entries = bytes := by
  suffices ∀ start, start < usizeLimit → (entries.foldlM addEntrySize start = .ok bytes ↔
      start + (entries.map entrySize).sum < usizeLimit ∧
          start + (entries.map entrySize).sum = bytes) from
    this 16 (by decide)
  induction entries with
  | nil =>
    intro start hstart
    simp [hstart]
  | cons entry entries ih =>
    intro start hstart
    simp only [foldlM_cons, Except.bind_eq_ok, addEntrySize_eq_ok, map_cons,
      sum_cons, ← Nat.add_assoc]
    constructor
    · rintro ⟨_, ⟨hlt, rfl⟩, hrest⟩
      exact (ih _ hlt).mp hrest
    · rintro ⟨hlt, hsum⟩
      exact ⟨_, ⟨by omega, rfl⟩, (ih _ (by omega)).mpr ⟨hlt, hsum⟩⟩

/-- The sorted entries of a group are the listing of its contents. -/
theorem lists_sorted_entries (hv : map.Valid) : SortedEntries.Lists map.get
      ((map.entries.mergeSort fun left right => (compare left.key right.key).isLE).map
        fun entry => (entry.key, entry.value)) := by
  rw [map_mergeSort (s := fun a b => (compare a.1 b.1).isLE) (by intros; rfl)]
  exact SortedEntries.lists_sortByKey (nodup_keys hv) fun _ _ => (get_eq_some hv).symm

/-- **Snapshot.**  A snapshot is returned exactly if the group is owned, the host grants both
requests and the contents are within the limits of the format; it is then the canonical frame of
the contents. -/
theorem snapshotKeyGroup_eq_ok (hv : state.Valid) {frame : Bytes} :
    state.snapshotKeyGroup g admission = .ok frame ↔
      (∃ i, groupIndex state.firstKeyGroup state.groups.length g = .ok i) ∧
      (admission.request 0 = .ok () ∧ admission.request 1 = .ok ()) ∧
      CanonicalSnapshot (state.toMap g) g frame := by
  simp only [snapshotKeyGroup, Except.bind_eq_ok, snapshotSize_eq_ok,
    mapError_eq_ok, ← exists_group]
  have canonical : ∀ map, state.group g = .ok map → ∃ entries,
    SortedEntries.Lists (state.toMap g) entries ∧
        ((map.entries.mergeSort fun left right => (compare left.key right.key).isLE).map
          fun entry => (entry.key, entry.value)) = entries ∧
        frameSize map.iter = frameSize entries ∧ map.len = entries.length := by
    intro map hmap
    have hlists := lists_sorted_entries (valid_of_group hv hmap)
    have hperm : ((map.entries.mergeSort fun left right =>
        (compare left.key right.key).isLE).map fun entry => (entry.key, entry.value)).Perm
          map.iter := (mergeSort_perm _ _).map _
    refine ⟨_, ?_, rfl, ?_, by rw [len_eq, hperm.length_eq]⟩
    · rwa [show state.toMap g = map.get from funext (toMap_of_group hmap)]
    · simp only [frameSize, (hperm.map entrySize).sum_nat]
  constructor
  · rintro ⟨map, hmap, bytes, ⟨hsize, rfl⟩, _, h₀, _, h₁, hwrite⟩
    obtain ⟨entries, hlists, heq, hframe, hlen⟩ := canonical map hmap
    rw [heq, hlen, Snapshot.SnapshotWriter.writeAll_eq_ok hsize] at hwrite
    exact ⟨⟨map, hmap⟩, ⟨h₀, h₁⟩, entries, hlists, hwrite.1, hframe ▸ hsize, hwrite.2.2⟩
  · rintro ⟨⟨map, hmap⟩, ⟨h₀, h₁⟩, entries', hlists', hfits, hsize, rfl⟩
    obtain ⟨entries, hlists, heq, hframe, hlen⟩ := canonical map hmap
    obtain rfl := hlists.unique hlists'
    refine ⟨map, hmap, _, ⟨hframe.symm ▸ hsize, rfl⟩, (), h₀, (), h₁, ?_⟩
    rw [heq, hlen, Snapshot.SnapshotWriter.writeAll_eq_ok (hframe.symm ▸ hsize)]
    exact ⟨hfits, hframe, rfl⟩

/-! ### A scan with a visitor that refuses every page -/

section Refuse

variable {visitor : List (Bytes × Bytes) → Op StateError σ Unit} {error : StateError}
    {maxRows maxBytes : Nat}

theorem scanLoop_refuse (hvisitor : ∀ page s, visitor page s = (.error error, s))
    {entries page : List (Bytes × Bytes)} (s : σ)
    (hne : page ++ entries ≠ []) :
    ∃ e, scanLoop maxRows maxBytes visitor entries page bytes s = (.error e, s) := by
  induction entries generalizing page bytes with
  | nil =>
    have hpage : page.isEmpty = false := by simpa using hne
    exact ⟨error, by simp [scanLoop, hpage, hvisitor]⟩
  | cons entry rest ih =>
    rw [scanLoop]
    split
    · exact ⟨_, rfl⟩
    · split
      · exact ⟨error, bind_of_error (hvisitor page s)⟩
      · exact ih (by simp)

/-- It succeeds exactly on an empty group, and nothing happens either way. -/
theorem visitKeyGroup_refuse (hv : state.Valid)
    (hvisitor : ∀ page s, visitor page s = (.error error, s))
    (hrows : maxRows ≠ 0) (hbytes : maxBytes ≠ 0)
    (howned : ∃ i, groupIndex state.firstKeyGroup state.groups.length g = .ok i) (s : σ) :
    ((∀ k, state.toMap g k = none) →
      state.visitKeyGroup g maxRows maxBytes visitor s = (.ok (), s)) ∧
    ((∃ k, state.toMap g k ≠ none) →
      ∃ e, state.visitKeyGroup g maxRows maxBytes visitor s = (.error e, s)) := by
  obtain ⟨map, hmap⟩ := exists_group.mpr howned
  have hmapv := valid_of_group hv hmap
  have hrun : state.visitKeyGroup g maxRows maxBytes visitor s =
      scanLoop maxRows maxBytes visitor map.iter [] 0 s := by
    rw [visitKeyGroup, visitPrefix, if_neg (by simp [hrows, hbytes]), hmap, lift_ok, pure_bind]
    simp
  rw [hrun]
  constructor
  · intro hempty
    have hnil : map.iter = [] := by
      rw [eq_nil_iff_forall_not_mem]
      rintro ⟨k, v⟩ hmem
      have := (get_eq_some hmapv).mpr hmem
      rw [← toMap_of_group hmap, hempty] at this
      cases this
    rw [hnil]
    rfl
  · rintro ⟨k, hk⟩
    obtain ⟨v, hv⟩ := Option.ne_none_iff_exists'.mp hk
    rw [toMap_of_group hmap, get_eq_some hmapv] at hv
    exact scanLoop_refuse hvisitor s (by simpa using ne_nil_of_mem hv)

end Refuse

/-! ## The initial state -/

/-- A new backend is empty and owns its range. -/
theorem new_eq_ok {hashers : Hashers} {first last : UInt32}
    (h : new hashers first last admission = .ok state) :
    state.Valid ∧ state.toMap = StateMap.empty ∧ state.firstKeyGroup = first ∧
      state.groups.length = last.toNat - first.toNat + 1 ∧ first ≤ last := by
  unfold new at h
  split at h
  · cases h
  rename_i hle
  simp only [Except.bind_eq_ok, Except.pure_eq_ok, Except.ok.injEq] at h
  obtain ⟨_, -, rfl⟩ := h
  have hfresh : ∀ map ∈ (List.range (last.toNat - first.toNat + 1)).map fun i =>
      (KeyGroupMap.withHasher (hashers.routing i) (hashers.shard i) : KeyGroupMap H),
      ∃ routing seeds, map = .withHasher routing seeds := by
    intro map hmap
    obtain ⟨_, -, rfl⟩ := mem_map.mp hmap
    exact ⟨_, _, rfl⟩
  refine ⟨?_, ?_, rfl, by simp, UInt32.not_lt.mp hle⟩
  · intro map hmap
    obtain ⟨routing, seeds, rfl⟩ := hfresh map hmap
    exact valid_withHasher routing seeds
  · funext g k
    rw [toMap, StateMap.empty]
    split
    · rename_i map hmap
      obtain ⟨i, -, hi⟩ := group_eq_ok.mp hmap
      obtain ⟨routing, seeds, rfl⟩ := hfresh map (mem_of_getElem? hi)
      exact get_withHasher routing seeds k
    · rfl

end MemoryKeyedState

end StreamFusion.State
