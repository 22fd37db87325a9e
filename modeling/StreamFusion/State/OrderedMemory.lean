import StreamFusion.Lib.Paging
import StreamFusion.State.Backend

/-!
# The ordered backend

`OrderedMemoryKeyedState` keeps one ordered map for each owned key group, for operators that scan
ranges of keys.  Its entries come out in key order, so a snapshot needs no sorting, and a range scan
visits the entries between two keys in pages bounded by rows and by bytes.

As the hash backend does, it simulates `StateMap`, and it makes progress whenever the host has
memory.
-/

namespace StreamFusion.State

open Wire List Op

/-- The entries of a group by key. -/
abbrev Group := Std.ExtTreeMap Bytes Bytes

/-- The ordered backend: a map for each owned key group. -/
structure OrderedMemoryKeyedState where
  first : UInt32
  groups : List Group

namespace OrderedMemoryKeyedState

/-- A backend without entries. -/
def new (first last : UInt32) (admission : Admission) : Except StateError OrderedMemoryKeyedState :=
  if last < first then
    .error (.execution "invalid ordered key-group range")
  else do
    let count := last.toNat - first.toNat + 1
    admission.request 0
    return ⟨first, List.replicate count ∅⟩

/-- The index of a key group. -/
def index (state : OrderedMemoryKeyedState) (group : UInt32) : Except StateError Nat :=
  groupIndex state.first state.groups.length group

/-- The map of a key group. -/
def group (state : OrderedMemoryKeyedState) (group : UInt32) : Except StateError Group := do
  let index ← state.index group
  match state.groups[index]? with
  | some map => .ok map
  | none => .error (.panic "index out of bounds")

/-- The value of a key. -/
def lookup (state : OrderedMemoryKeyedState) (key : StateKey) :
    Except StateError (Option Bytes) := do
  let map ← state.group key.keyGroup
  return map[key.key]?

/-- The values of some keys. -/
def getBatch (state : OrderedMemoryKeyedState) (keys : List StateKey) (admission : Admission) :
    Except StateError (List (Option Bytes)) := do
  admission.request 0
  lookupAll state.lookup keys

/-- A mutation of a group's map. -/
def mutateGroup (mutation : StateMutation) (map : Group) : Group :=
  match mutation.value with
  | some value => map.insert mutation.key.key value
  | none => map.erase mutation.key.key

/-- A mutation. -/
def applyMutation (mutation : StateMutation) : Op StateError OrderedMemoryKeyedState Unit :=
  fun state =>
    match state.index mutation.key.keyGroup with
    | .error error => (.error error, state)
    | .ok index =>
      (.ok (), { state with groups := state.groups.modify index (mutateGroup mutation) })

/-- The complete batch is admitted before the first mutation is applied. -/
def writeBatch (mutations : List StateMutation) (admission : Admission) :
    Op StateError OrderedMemoryKeyedState Unit := do
  let state ← get
  lift (checkOwned state.first state.groups.length mutations)
  lift (admission.request 0)
  forEach applyMutation mutations
  lift (admission.request 1)

/-- The frame of a group. -/
def snapshotKeyGroup (state : OrderedMemoryKeyedState) (group : UInt32) (admission : Admission) :
    Except StateError Bytes := do
  let map ← state.group group
  let entries := map.toList
  let bytes := entries.foldl
    (fun bytes entry => saturatingAdd bytes (8 + entry.1.length + entry.2.length)) 16
  admission.request 0
  (Snapshot.SnapshotWriter.writeAll group entries.length bytes entries).mapError snapshotError

/-! ## Range scans -/

variable {σ : Type}

section Range

/-- The memory that an entry takes in a scan. -/
def entryWeight (entry : Bytes × Bytes) : Nat :=
  saturatingAdd (saturatingAdd entry.1.length entry.2.length) 100

/-- The loop of a range scan over the entries that are left, with the page under construction and
its weight.  The visitor answers whether it wants to see more. -/
def rangeLoop (maxRows maxBytes : Nat) (allowLargeEntry : Bool)
    (visitor : List (Bytes × Bytes) → Op StateError σ Bool) :
    List (Bytes × Bytes) → List (Bytes × Bytes) → Nat → Op StateError σ Bool
  | [], page, _ =>
    if page.isEmpty then
      pure true
    else do
      let _ ← visitor page
      pure true
  | entry :: rest, page, bytes =>
    if page.length = maxRows then do
      let more ← visitor page
      if more then
        if entryWeight entry > maxBytes ∧ allowLargeEntry = false then
          lift (.error (.resourcesExhausted
            "state scan entry exceeds the admitted page budget"))
        else
          rangeLoop maxRows maxBytes allowLargeEntry visitor rest [entry] (entryWeight entry)
      else
        pure false
    else if entryWeight entry > maxBytes ∧ allowLargeEntry = false then
      lift (.error (.resourcesExhausted "state scan entry exceeds the admitted page budget"))
    else if page ≠ [] ∧ saturatingAdd bytes (entryWeight entry) > maxBytes then do
      let more ← visitor page
      if more then
        rangeLoop maxRows maxBytes allowLargeEntry visitor rest [entry] (entryWeight entry)
      else
        pure false
    else
      rangeLoop maxRows maxBytes allowLargeEntry visitor rest (page ++ [entry])
        (bytes + entryWeight entry)

/-- The entries of a map from `start` on and, if there is an `stop`, before it. -/
def between (map : Group) (start : Bytes) (stop : Option Bytes) : List (Bytes × Bytes) :=
  map.toList.filter fun entry =>
    (compare start entry.1).isLE &&
      match stop with
      | some stop => (compare entry.1 stop).isLT
      | none => true

/-- Visits the entries between two keys in pages, until the visitor stops. -/
def range (state : OrderedMemoryKeyedState) (group : UInt32) (start : Bytes) (stop : Option Bytes)
    (maxRows maxBytes : Nat) (allowLargeEntry : Bool)
    (visitor : List (Bytes × Bytes) → Op StateError σ Bool) : Op StateError σ Bool := do
  let map ← lift (state.group group)
  if maxRows = 0 ∨ maxBytes = 0 then
    lift (.error (.execution "state scan bounds must be positive"))
  else if stop.any fun stop => (compare start stop).isGE then
    pure true
  else
    rangeLoop maxRows maxBytes allowLargeEntry visitor (between map start stop) [] 0

/-- Visits the entries between two keys in pages. -/
def visitRange (state : OrderedMemoryKeyedState) (group : UInt32) (start : Bytes)
    (stop : Option Bytes) (maxRows maxBytes : Nat)
    (visitor : List (Bytes × Bytes) → Op StateError σ Bool) : Op StateError σ Unit := do
  let _ ← state.range group start stop maxRows maxBytes false visitor
  pure ()

/-- Visits the entries of a group in pages. -/
def visitKeyGroup (state : OrderedMemoryKeyedState) (group : UInt32) (rows bytes : Nat)
    (visitor : List (Bytes × Bytes) → Op StateError σ Unit) : Op StateError σ Unit :=
  state.visitRange group [] none rows bytes (keepGoing visitor)

/-- Visits the entries whose keys start like this. -/
def visitPrefix (state : OrderedMemoryKeyedState) (group : UInt32) (start : Bytes)
    (rows bytes : Nat) (visitor : List (Bytes × Bytes) → Op StateError σ Unit) :
    Op StateError σ Unit :=
  state.visitRange group start (prefixEnd start) rows bytes (keepGoing visitor)

/-- The payloads already belong to the state, so only the page descriptors are admitted and the byte
limit is dropped. -/
def visitPrefixAdmitted (state : OrderedMemoryKeyedState) (group : UInt32) (start : Bytes)
    (rows : Nat) (admission : Admission)
    (visitor : List (Bytes × Bytes) → Op StateError σ Unit) : Op StateError σ Unit := do
  lift (admission.request 0)
  state.visitPrefix group start rows (usizeLimit - 1) visitor

end Range

/-! ## The contents of the state -/

/-- What is stored. -/
def toMap (state : OrderedMemoryKeyedState) : StateMap := fun g k =>
  match state.group g with
  | .ok map => map[k]?
  | .error _ => none

variable {state : OrderedMemoryKeyedState} {g : UInt32} {map : Group}

theorem group_eq_ok : state.group g = .ok map ↔
      ∃ i, groupIndex state.first state.groups.length g = .ok i ∧ state.groups[i]? = some map := by
  simp only [group, Except.bind_eq_ok, index]
  constructor
  · rintro ⟨i, hi, h⟩
    split at h
    · rename_i found hfound
      exact ⟨i, hi, by rw [hfound, Except.ok.inj h]⟩
    · cases h
  · rintro ⟨i, hi, h⟩
    exact ⟨i, hi, by rw [h]⟩

theorem exists_group : (∃ map, state.group g = .ok map) ↔
      ∃ i, groupIndex state.first state.groups.length g = .ok i := by
  simp only [group_eq_ok]
  constructor
  · rintro ⟨map, i, hi, -⟩
    exact ⟨i, hi⟩
  · rintro ⟨i, hi⟩
    exact ⟨_, i, hi, List.getElem?_eq_getElem (groupIndex_eq_ok.mp hi).1⟩

theorem toMap_of_group (h : state.group g = .ok map) : state.toMap g = fun k => map[k]? := by
  funext k
  rw [toMap, h]

/-- A lookup reads what is stored. -/
theorem lookup_eq (state : OrderedMemoryKeyedState) (key : StateKey) :
    state.lookup key = (groupIndex state.first state.groups.length key.keyGroup).map
      fun _ => state.toMap key.keyGroup key.key := by
  rcases hi : groupIndex state.first state.groups.length key.keyGroup with e | i
  · simp [lookup, group, index, hi, Except.map]
  · obtain ⟨map, hmap⟩ := exists_group.mpr ⟨i, hi⟩
    simp [lookup, toMap, hmap, Except.map]

theorem getElem?_mutateGroup (mutation : StateMutation) (map : Group) (k : Bytes) :
    (mutateGroup mutation map)[k]? = if k = mutation.key.key then mutation.value else map[k]? := by
  have hkey : compare mutation.key.key k = .eq ↔ k = mutation.key.key :=
    Std.LawfulEqCmp.compare_eq_iff_eq.trans eq_comm
  rw [mutateGroup]
  rcases mutation.value with _ | value
  · simp only [Std.ExtTreeMap.getElem?_erase, hkey]
  · simp only [Std.ExtTreeMap.getElem?_insert, hkey]

variable {state' : OrderedMemoryKeyedState}

/-- A mutation of an owned group acts on the represented map as `StateMap.apply`. -/
theorem applyMutation_spec {mutation : StateMutation}
    (h : applyMutation mutation state = (.ok (), state')) :
    (state'.first = state.first ∧ state'.groups.length = state.groups.length) ∧
      state'.toMap = state.toMap.apply mutation := by
  rcases hi : groupIndex state.first state.groups.length mutation.key.keyGroup with e | i
  · simp [applyMutation, index, hi] at h
  obtain ⟨-, rfl⟩ : _ ∧ _ = state' := by simpa only [applyMutation, index, hi] using Prod.mk.inj h
  refine ⟨⟨rfl, by simp⟩, ?_⟩
  funext g k
  rcases hg : groupIndex state.first state.groups.length g with e | j
  · have hne : g ≠ mutation.key.keyGroup := by
      rintro rfl
      simp [hi] at hg
    simp [toMap, group, index, StateMap.apply, hne, hg]
  · have hlt : j < state.groups.length := (groupIndex_eq_ok.mp hg).1
    by_cases heq : g = mutation.key.keyGroup
    · subst heq
      obtain rfl : i = j := by simpa [hi] using hg
      simp [toMap, group, index, hi, StateMap.apply, List.getElem?_eq_getElem hlt,
        getElem?_mutateGroup]
    · have hne : i ≠ j := by
        rintro rfl
        exact heq (groupIndex_injective hg hi)
      simp [toMap, group, index, StateMap.apply, heq, hg, List.getElem?_modify, hne]

variable {mutations : List StateMutation} {admission : Admission}

/-- The mutations act on the represented map. -/
theorem forEach_applyMutation_spec
    (happly : forEach applyMutation mutations state = (.ok (), state')) :
    (state'.first = state.first ∧ state'.groups.length = state.groups.length) ∧
      state'.toMap = state.toMap.applyAll mutations := by
  refine forEach_ok_induction StateMap.apply (fun (s : OrderedMemoryKeyedState) map =>
      (s.first = state.first ∧ s.groups.length = state.groups.length) ∧ s.toMap = map)
    ?_ ⟨⟨rfl, rfl⟩, rfl⟩ happly
  rintro m s s' _ ⟨⟨hfirst, hlen⟩, rfl⟩ hm
  obtain ⟨⟨hfirst', hlen'⟩, hmap⟩ := applyMutation_spec hm
  exact ⟨⟨hfirst'.trans hfirst, hlen'.trans hlen⟩, hmap⟩

/-- **Simulation.**  A successful batch acts on the represented map as its mutations, one by one. -/
theorem writeBatch_simulates (h : writeBatch mutations admission state = (.ok (), state')) :
    (state'.first = state.first ∧ state'.groups.length = state.groups.length) ∧
      state'.toMap = state.toMap.applyAll mutations := by
  simp only [writeBatch, bind_eq_ok, get_apply, lift_apply, Prod.mk.injEq] at h
  obtain ⟨_, _, ⟨-, rfl⟩, _, _, ⟨-, rfl⟩, _, _, ⟨-, rfl⟩, ⟨⟩, s₁, happly, -, rfl⟩ := h
  exact forEach_applyMutation_spec happly

section

variable (howned : ∀ m ∈ mutations, ∃ i,
    groupIndex state.first state.groups.length m.key.keyGroup = .ok i)
include howned

theorem forEach_applyMutation_succeeds : ∃ state', forEach applyMutation mutations state =
    (.ok (), state') := by
  have hloop := forEach_succeeds applyMutation (fun s : OrderedMemoryKeyedState =>
      s.first = state.first ∧ s.groups.length = state.groups.length) mutations ?_ ⟨rfl, rfl⟩
  · obtain ⟨s', hs', -⟩ := hloop
    exact ⟨s', hs'⟩
  · rintro m hm s ⟨hfirst, hlen⟩
    obtain ⟨i, hi⟩ := howned m hm
    obtain ⟨s', hs'⟩ : ∃ s', applyMutation m s = (.ok (), s') := by
      simp [applyMutation, index, hfirst, hlen, hi]
    obtain ⟨⟨hfirst', hlen'⟩, -⟩ := applyMutation_spec hs'
    exact ⟨s', hs', hfirst'.trans hfirst, hlen'.trans hlen⟩

/-- **Progress.**  With enough memory a batch over owned groups succeeds. -/
theorem writeBatch_succeeds : ∃ state', writeBatch mutations .all state = (.ok (), state') := by
  obtain ⟨s', hs'⟩ := forEach_applyMutation_succeeds howned
  refine ⟨s', ?_⟩
  simp only [writeBatch, bind_eq_ok, get_apply, lift_apply, Prod.mk.injEq]
  exact ⟨_, _, ⟨rfl, rfl⟩, (), _, ⟨checkOwned_eq_ok.mpr howned, rfl⟩, (), _, ⟨rfl, rfl⟩, (),
    s', hs', rfl, rfl⟩

end

/-- The batch has been admitted and applied, and then the request that settles the reservation is
refused; here it only gives memory back. -/
def SettleRefused (state : OrderedMemoryKeyedState) (mutations : List StateMutation)
    (admission : Admission) : Prop :=
  checkOwned state.first state.groups.length mutations = .ok () ∧
    admission.request 0 = .ok () ∧ admission.request 1 = .error .denied

/-- **Atomicity.**  A batch that fails leaves the state alone, unless it fails after it has been
applied; then it stays applied. -/
theorem writeBatch_error {e : StateError}
    (h : writeBatch mutations admission state = (.error e, state')) :
    (¬ state.SettleRefused mutations admission ∧ state' = state) ∨
      (state.SettleRefused mutations admission ∧
        state'.toMap = state.toMap.applyAll mutations) := by
  simp only [writeBatch, bind_eq_error, get_apply, lift_apply, Prod.mk.injEq,
    reduceCtorEq, false_and,
    false_or] at h
  obtain ⟨_, _, ⟨heq, rfl⟩, h⟩ := h
  cases heq
  unfold SettleRefused
  rcases h with ⟨hfail, rfl⟩ | ⟨⟨⟩, _, ⟨howned, rfl⟩, h⟩
  · exact Or.inl ⟨by simp [hfail], rfl⟩
  rcases h with ⟨hfail, rfl⟩ | ⟨⟨⟩, _, ⟨hgrowth, rfl⟩, h⟩
  · exact Or.inl ⟨by simp [hfail], rfl⟩
  obtain ⟨s', hs'⟩ := forEach_applyMutation_succeeds (checkOwned_eq_ok.mp howned)
  -- the mutations do not fail, so it is the settling request
  rcases h with happly | ⟨⟨⟩, _, happly, hfail, rfl⟩
  · simp [hs'] at happly
  · refine Or.inr ⟨⟨howned, hgrowth, ?_⟩, (forEach_applyMutation_spec happly).2⟩
    unfold Admission.request at hfail ⊢
    split_ifs at hfail ⊢
    rfl

/-! ### The snapshot -/

/-- The saturating size is the size of the frame, unless that does not fit a machine word. -/
theorem saturating_size_eq (entries : List (Bytes × Bytes)) : entries.foldl (fun bytes entry =>
      saturatingAdd bytes (8 + entry.1.length + entry.2.length)) 16 =
      min (Snapshot.frameSize entries) (usizeLimit - 1) := by
  suffices ∀ start, start ≤ usizeLimit - 1 → entries.foldl (fun bytes entry =>
      saturatingAdd bytes (8 + entry.1.length + entry.2.length)) start =
      min (start + (entries.map Snapshot.entrySize).sum) (usizeLimit - 1) from
    this 16 (by decide)
  induction entries with
  | nil =>
    intro start hstart
    simp [hstart]
  | cons entry entries ih =>
    intro start hstart
    rw [foldl_cons, ih _ (saturatingAdd_le _ _), map_cons, sum_cons]
    simp only [saturatingAdd, Snapshot.entrySize]
    omega

/-- **Snapshot.**  A snapshot is returned exactly if the group is owned, the host grants the request
and the contents are within the limits of the format; it is then the canonical frame of the
contents. -/
theorem snapshotKeyGroup_eq_ok {frame : Bytes} : state.snapshotKeyGroup g admission = .ok frame ↔
      (∃ i, groupIndex state.first state.groups.length g = .ok i) ∧
      admission.request 0 = .ok () ∧ CanonicalSnapshot (state.toMap g) g frame := by
  have hlimit : ∀ n, min n (usizeLimit - 1) < usizeLimit := by
    intro n
    simp only [usizeLimit]
    omega
  simp only [snapshotKeyGroup, Except.bind_eq_ok, saturating_size_eq, mapError_eq_ok,
    Snapshot.SnapshotWriter.writeAll_eq_ok (hlimit _), ← exists_group]
  constructor
  · rintro ⟨map, hmap, _, h₀, hfits, hsize, rfl⟩
    refine ⟨⟨map, hmap⟩, h₀, map.toList, ?_, hfits, ?_, rfl⟩
    · rw [toMap_of_group hmap]
      exact SortedEntries.lists_toList map
    · rw [← hsize]
      exact hlimit _
  · rintro ⟨⟨map, hmap⟩, h₀, entries, hlists, hfits, hsize, rfl⟩
    rw [toMap_of_group hmap] at hlists
    obtain rfl := (SortedEntries.lists_toList map).unique hlists
    exact ⟨map, hmap, (), h₀, hfits, by omega, rfl⟩

/-! ### The pages of a scan -/

variable {maxRows maxBytes : Nat}

section Pages

/-- The bound on a page: its rows, and its weight unless it is a single large entry. -/
def PageBound (maxRows maxBytes : Nat) (page : List (Bytes × Bytes)) : Prop :=
  page.length ≤ maxRows ∧
    (page.length = 1 ∨ min (page.map entryWeight).sum (usizeLimit - 1) ≤ maxBytes)

theorem pageBound_singleton (hrows : 0 < maxRows)
    (entry : Bytes × Bytes) : PageBound maxRows maxBytes [entry] :=
  ⟨hrows, Or.inl rfl⟩

/-- A scan in which no entry is refused hands the visitor a cut of the entries. -/
theorem rangeLoop_pages (visitor : List (Bytes × Bytes) → Op StateError σ Unit)
    {allowLargeEntry : Bool}
    (hrows : 0 < maxRows)
    (entries page : List (Bytes × Bytes))
    (hsmall : ∀ entry ∈ entries, ¬ (entryWeight entry > maxBytes ∧ allowLargeEntry = false))
    (hpage : page ≠ [] → PageBound maxRows maxBytes page) :
    ∃ pages, Paging.Cut (PageBound maxRows maxBytes) pages (page ++ entries) ∧
      rangeLoop maxRows maxBytes allowLargeEntry (keepGoing visitor) entries page
        (page.map entryWeight).sum = (do forEach visitor pages; pure true) := by
  induction entries generalizing page with
  | nil =>
    rcases hcase : page with _ | ⟨entry, rest⟩
    · exact ⟨[], Paging.cut_nil _, rfl⟩
    · have hne : page ≠ [] := by simp [hcase]
      rw [← hcase]
      refine ⟨[page], (Paging.cut_nil _).cons hne (hpage hne), ?_⟩
      rw [rangeLoop, if_neg (by simpa using hne), keepGoing_bind]
      simp [forEach_cons]
  | cons entry rest ih =>
    obtain ⟨hentry, hrest⟩ := forall_mem_cons.mp hsmall
    -- a flush closes the page and opens the next one with this entry
    have flush : page ≠ [] → ∃ pages,
      Paging.Cut (PageBound maxRows maxBytes) pages (page ++ entry :: rest) ∧
        (do visitor page
            rangeLoop maxRows maxBytes allowLargeEntry (keepGoing visitor) rest [entry]
              (entryWeight entry)) = (do forEach visitor pages; pure true) := by
      intro hne
      obtain ⟨pages, hcut, hrun⟩ := ih [entry] hrest fun _ => pageBound_singleton hrows entry
      refine ⟨page :: pages, hcut.cons hne (hpage hne), ?_⟩
      simp only [map_cons, map_nil, sum_cons, sum_nil, Nat.add_zero] at hrun
      rw [hrun, forEach_cons, bind_assoc]
    rw [rangeLoop, keepGoing_bind, keepGoing_bind]
    split
    · rename_i hfull
      exact flush (by rintro rfl; simp at hfull; omega)
    · rename_i hroom
      split
      · rename_i hover
        exact flush hover.1
      · rename_i hfits
        have hbound : PageBound maxRows maxBytes (page ++ [entry]) := by
          rcases eq_or_ne page [] with rfl | hne
          · exact pageBound_singleton hrows entry
          · have hle := (hpage hne).1
            refine ⟨by simp; omega, Or.inr ?_⟩
            have hsum : ¬ saturatingAdd (page.map entryWeight).sum (entryWeight entry) > maxBytes :=
              fun h => hfits ⟨hne, h⟩
            simpa only [saturatingAdd, map_append, sum_append, map_cons, map_nil,
              sum_cons, sum_nil, Nat.add_zero, gt_iff_lt, not_lt] using hsum
        obtain ⟨pages, hcut, hrun⟩ := ih (page ++ [entry]) hrest fun _ => hbound
        refine ⟨pages, by simpa using hcut, ?_⟩
        simpa using hrun

theorem between_all (map : Group) : between map [] none = map.toList := by
  rw [between, filter_eq_self]
  rintro ⟨k, v⟩ -
  cases k <;> rfl

section

/-- A scan of a whole group whose entries all fit a page. -/
theorem visitKeyGroup_pages
    (visitor : List (Bytes × Bytes) → Op StateError σ Unit) (hmap : state.group g = .ok map)
    (hrows : 0 < maxRows) (maxBytes : Nat) (hbytes : 0 < maxBytes)
    (hsmall : ∀ entry ∈ map.toList, entryWeight entry ≤ maxBytes) :
    ∃ pages, Paging.Cut (PageBound maxRows maxBytes) pages map.toList ∧
      state.visitKeyGroup g maxRows maxBytes visitor = forEach visitor pages := by
  obtain ⟨pages, hcut, hrun⟩ := rangeLoop_pages visitor hrows map.toList []
    (fun entry hentry (h : entryWeight entry > maxBytes ∧ false = false) =>
      absurd (hsmall entry hentry) (by omega))
    (fun h => absurd rfl h)
  refine ⟨pages, hcut, ?_⟩
  rw [visitKeyGroup, visitRange, range, hmap, lift_ok, pure_bind, if_neg (by omega)]
  simp only [Option.any_none, Bool.false_eq_true, if_false, between_all]
  simp only [map_nil, sum_nil] at hrun
  rw [hrun]
  simp

/-- A scan without a byte limit hands the visitor a cut of the listing of the group. -/
theorem visitPrefixAdmitted_pages
    {entries : List (Bytes × Bytes)} (hg : ∃ i,
      groupIndex state.first state.groups.length g = .ok i)
    (hlists : SortedEntries.Lists (state.toMap g) entries)
    (visitor : List (Bytes × Bytes) → Op StateError σ Unit) {rows : Nat} (hrows : 0 < rows) :
    ∃ pages, Paging.Cut (fun page => page.length ≤ rows) pages entries ∧
      state.visitPrefixAdmitted g [] rows .all visitor = forEach visitor pages := by
  obtain ⟨map, hmap⟩ := exists_group.mpr hg
  rw [toMap_of_group hmap] at hlists
  obtain rfl := (SortedEntries.lists_toList map).unique hlists
  obtain ⟨pages, hcut, hrun⟩ := visitKeyGroup_pages visitor hmap hrows (usizeLimit - 1) (by decide)
    fun entry _ => saturatingAdd_le _ _
  refine ⟨pages, ⟨hcut.nonempty, fun page hpage => (hcut.bounded page hpage).1, hcut.flatten⟩, ?_⟩
  rw [← hrun]
  rfl

end

end Pages

/-! ### A scan with a visitor that refuses every page -/

section Refuse

variable {visitor : List (Bytes × Bytes) → Op StateError σ Unit} {error : StateError}

/-- A visitor that refuses stops a scan that has entries. -/
theorem rangeLoop_refuse (hvisitor : ∀ page s, visitor page s = (.error error, s))
    (maxRows maxBytes : Nat) (allowLargeEntry : Bool) (entries page : List (Bytes × Bytes))
    (bytes : Nat) (s : σ) (hne : page ++ entries ≠ []) :
    ∃ e, rangeLoop maxRows maxBytes allowLargeEntry (keepGoing visitor) entries page bytes s =
      (.error e, s) := by
  induction entries generalizing page bytes with
  | nil =>
    have hpage : page.isEmpty = false := by simpa using hne
    rw [rangeLoop, hpage, keepGoing_bind]
    exact ⟨error, bind_of_error (hvisitor page s)⟩
  | cons entry rest ih =>
    rw [rangeLoop, keepGoing_bind, keepGoing_bind]
    split
    · exact ⟨error, bind_of_error (hvisitor page s)⟩
    · split
      · exact ⟨_, rfl⟩
      · split
        · exact ⟨error, bind_of_error (hvisitor page s)⟩
        · exact ih _ _ (by simp)

/-- It succeeds exactly on an empty group, and nothing happens either way. -/
theorem visitKeyGroup_refuse (hvisitor : ∀ page s, visitor page s = (.error error, s))
    (hrows : maxRows ≠ 0) (hbytes : maxBytes ≠ 0)
    (howned : ∃ i, groupIndex state.first state.groups.length g = .ok i) (s : σ) :
    ((∀ k, state.toMap g k = none) →
      state.visitKeyGroup g maxRows maxBytes visitor s = (.ok (), s)) ∧
    ((∃ k, state.toMap g k ≠ none) →
      ∃ e, state.visitKeyGroup g maxRows maxBytes visitor s = (.error e, s)) := by
  obtain ⟨map, hmap⟩ := exists_group.mpr howned
  have hlists := SortedEntries.lists_toList map
  have hrun : state.visitKeyGroup g maxRows maxBytes visitor = (do
      let _ ← rangeLoop maxRows maxBytes false (keepGoing visitor) map.toList [] 0
      pure ()) := by
    rw [visitKeyGroup, visitRange, range, hmap, lift_ok, pure_bind,
      if_neg (by simp [hrows, hbytes])]
    simp only [Option.any_none, Bool.false_eq_true, if_false, between_all]
  rw [hrun, toMap_of_group hmap]
  constructor
  · intro hempty
    have hnil : map.toList = [] := by
      rw [eq_nil_iff_forall_not_mem]
      rintro ⟨k, v⟩ hmem
      have := (hempty k).symm.trans ((hlists.mem_iff k v).mp hmem)
      cases this
    rw [hnil]
    rfl
  · rintro ⟨k, hk⟩
    obtain ⟨v, hv⟩ := Option.ne_none_iff_exists'.mp hk
    have hmem := (hlists.mem_iff k v).mpr hv
    obtain ⟨e, he⟩ := rangeLoop_refuse hvisitor maxRows maxBytes false map.toList [] 0 s
      (ne_nil_of_mem hmem)
    exact ⟨e, bind_of_error he⟩

end Refuse

/-! ## The initial state -/

/-- A new backend is empty and owns its range. -/
theorem new_eq_ok {first last : UInt32} (h : new first last admission = .ok state) :
    state.toMap = StateMap.empty ∧ state.first = first ∧
      state.groups.length = last.toNat - first.toNat + 1 ∧ first ≤ last := by
  unfold new at h
  split at h
  · cases h
  rename_i hle
  simp only [Except.bind_eq_ok, Except.pure_eq_ok, Except.ok.injEq] at h
  obtain ⟨_, -, rfl⟩ := h
  refine ⟨?_, rfl, by simp, UInt32.not_lt.mp hle⟩
  funext g k
  rw [toMap, StateMap.empty]
  split
  · rename_i map hmap
    obtain ⟨i, -, hi⟩ := group_eq_ok.mp hmap
    obtain rfl := eq_of_mem_replicate (mem_of_getElem? hi)
    simp
  · rfl

end OrderedMemoryKeyedState

end StreamFusion.State
