import StreamFusion.State.CanonicalFile
import StreamFusion.State.Refinement

/-!
# Moving a key group

A key group leaves one backend as a canonical frame and enters another one in pages.  `restore`
validates a frame and writes the entries its iterator yields; `importKeyGroup` scans a source, an
ordered backend or a staged file, and writes the pages the scan produces.  Both first require that
the destination group is empty, and both write a page as one batch of puts.

A batch acts on the destination's map as its mutations do, one by one, so nothing depends on where
the pages are cut: any cut of the listing of the source group fills an empty destination group with
exactly the source's contents, and the destination's own snapshot is then the frame it came from.
-/

namespace StreamFusion.State

open Wire CanonicalFile Op Snapshot MemoryKeyedState

/-! ## Either backend -/

/-- A keyed state of one of the two in-memory kinds. -/
inductive InMemory (H : HashTable PackedEntry) where
  | hash (state : MemoryKeyedState H)
  | ordered (state : OrderedMemoryKeyedState)

variable {H : HashTable PackedEntry} {state : InMemory H} {g : UInt32}

namespace InMemory

/-- The first owned group. -/
def first : InMemory H → UInt32
  | hash state => state.firstKeyGroup
  | ordered state => state.first

/-- The number of owned groups. -/
def count : InMemory H → Nat
  | hash state => state.groups.length
  | ordered state => state.groups.length

/-- Writes a batch. -/
def writeBatch (mutations : List StateMutation) (admission : Admission) :
    Op StateError (InMemory H) Unit
  | hash state =>
    let (result, state) := MemoryKeyedState.writeBatch mutations admission state
    (result, hash state)
  | ordered state =>
    let (result, state) := OrderedMemoryKeyedState.writeBatch mutations admission state
    (result, ordered state)

/-- Visits the entries of a group in pages. -/
def visitKeyGroup {σ : Type} (state : InMemory H) (group : UInt32) (rows bytes : Nat)
    (visitor : List (Bytes × Bytes) → Op StateError σ Unit) : Op StateError σ Unit :=
  match state with
  | hash state => state.visitKeyGroup group rows bytes visitor
  | ordered state => state.visitKeyGroup group rows bytes visitor

/-- The frame of a group. -/
def snapshotKeyGroup (state : InMemory H) (group : UInt32) (admission : Admission) :
    Except StateError Bytes :=
  match state with
  | hash state => state.snapshotKeyGroup group admission
  | ordered state => state.snapshotKeyGroup group admission

/-- What is stored. -/
def toMap : InMemory H → StateMap
  | hash state => state.toMap
  | ordered state => state.toMap

/-- The invariant of the backend. -/
def Valid : InMemory H → Prop
  | hash state => state.Valid
  | ordered _ => True

/-- The backend owns the group. -/
def Owns (state : InMemory H) (group : UInt32) : Prop :=
  ∃ i, groupIndex state.first state.count group = .ok i

/-- A state that some history of successful writes produces from an empty one. -/
def Reachable (state : InMemory H) : Prop :=
  (∃ hashers firstGroup lastGroup admission m₀ m calls,
    MemoryKeyedState.new hashers firstGroup lastGroup admission = .ok m₀ ∧
      runWrites MemoryKeyedState.writeBatch calls m₀ = (.ok (), m) ∧ state = hash m) ∨
  ∃ firstGroup lastGroup admission o₀ o calls,
    OrderedMemoryKeyedState.new firstGroup lastGroup admission = .ok o₀ ∧
      runWrites OrderedMemoryKeyedState.writeBatch calls o₀ = (.ok (), o) ∧ state = ordered o

theorem Reachable.valid (h : state.Reachable) : state.Valid := by
  rcases h with ⟨_, _, _, _, m₀, m, calls, hnew, hrun, rfl⟩ | ⟨_, _, _, _, _, _, _, _, rfl⟩
  · exact (runWrites_spec (new_eq_ok hnew).1 hrun).1
  · trivial

/-- A batch applies its mutations. -/
theorem writeBatch_simulates {state state' : InMemory H} {mutations : List StateMutation}
    {admission : Admission} (hv : state.Valid)
    (h : writeBatch mutations admission state = (.ok (), state')) :
    state'.Valid ∧ (state'.first = state.first ∧ state'.count = state.count) ∧
      state'.toMap = state.toMap.applyAll mutations := by
  rcases state with s | s
  · rcases hrun : MemoryKeyedState.writeBatch mutations admission s with ⟨result, s'⟩
    obtain ⟨rfl, rfl⟩ : result = .ok () ∧ hash s' = state' := by
      simpa [writeBatch, hrun] using h
    obtain ⟨hv', hrange, hmap⟩ := MemoryKeyedState.writeBatch_simulates hv hrun
    exact ⟨hv', hrange, hmap⟩
  · rcases hrun : OrderedMemoryKeyedState.writeBatch mutations admission s with ⟨result, s'⟩
    obtain ⟨rfl, rfl⟩ : result = .ok () ∧ ordered s' = state' := by
      simpa [writeBatch, hrun] using h
    obtain ⟨hrange, hmap⟩ := OrderedMemoryKeyedState.writeBatch_simulates hrun
    exact ⟨trivial, hrange, hmap⟩

/-- A batch to owned groups goes through. -/
theorem writeBatch_succeeds (mutations : List StateMutation)
    (hv : state.Valid) (howned : ∀ m ∈ mutations, state.Owns m.key.keyGroup) :
    ∃ state', writeBatch mutations .all state = (.ok (), state') := by
  rcases state with s | s
  · obtain ⟨s', hs'⟩ := MemoryKeyedState.writeBatch_succeeds hv howned
    exact ⟨hash s', by simp [writeBatch, hs']⟩
  · obtain ⟨s', hs'⟩ := OrderedMemoryKeyedState.writeBatch_succeeds howned
    exact ⟨ordered s', by simp [writeBatch, hs']⟩

/-- A snapshot is the canonical frame of the group. -/
theorem snapshotKeyGroup_eq_ok (hv : state.Valid) {frame : Bytes} (howned : state.Owns g) :
    state.snapshotKeyGroup g .all = .ok frame ↔ CanonicalSnapshot (state.toMap g) g frame := by
  rcases state with s | s
  · show s.snapshotKeyGroup g .all = .ok frame ↔ CanonicalSnapshot (s.toMap g) g frame
    rw [MemoryKeyedState.snapshotKeyGroup_eq_ok hv]
    exact ⟨fun h => h.2.2, fun h => ⟨howned, ⟨rfl, rfl⟩, h⟩⟩
  · show s.snapshotKeyGroup g .all = .ok frame ↔ CanonicalSnapshot (s.toMap g) g frame
    rw [OrderedMemoryKeyedState.snapshotKeyGroup_eq_ok]
    exact ⟨fun h => h.2.2, fun h => ⟨howned, rfl, h⟩⟩

end InMemory

/-! ## Writing pages -/

/-- The workspace of a page: four times the payload and a constant for each entry. -/
def addPageBytes (total : Nat) (entry : Bytes × Bytes) : Except StateError Nat :=
  match (((checkedAdd entry.1.length entry.2.length).bind (checkedMul · 4)).bind
      (checkedAdd · 384)).bind (checkedAdd total ·) with
  | some bytes => .ok bytes
  | none => .error (.resourcesExhausted "checkpoint state write page size overflow")

/-- The mutation that writes an entry. -/
def put (group : UInt32) (entry : Bytes × Bytes) : StateMutation :=
  ⟨⟨group, entry.1⟩, some entry.2⟩

/-- The first memory request is for the workspace of the page, the others are those of the write. -/
def writePage (group : UInt32) (page : List (Bytes × Bytes)) (admission : Admission) :
    Op StateError (InMemory H) Unit := do
  let _ ← lift (page.foldlM addPageBytes 4096)
  lift (admission.request 0)
  InMemory.writeBatch (page.map (put group)) (admission.drop 1)

/-- A scan of the destination that fails at its first page. -/
def requireEmpty (destination : InMemory H) (group : UInt32) (admission : Admission) :
    Except StateError Unit := do
  admission.request 0
  (destination.visitKeyGroup group 1 4096 (fun _ => lift (.error (.execution
    ("key group " ++ toString group ++ " was restored more than once")))) ()).1

/-! ## Restoring a frame -/

/-- The most entries of a page. -/
def pageRows : Nat := 1024

/-- The most bytes of a page. -/
def pageBytes : Nat := 256 * 1024

/-- Takes the entries of the next page, which already has `count` entries and `size` bytes. -/
def nextPage : Nat → Nat → List (Bytes × Bytes) → List (Bytes × Bytes) × List (Bytes × Bytes)
  | _, _, [] => ([], [])
  | count, size, entry :: rest =>
    let next := saturatingAdd entry.1.length entry.2.length
    if count ≠ 0 ∧ saturatingAdd size next > pageBytes then
      ([], entry :: rest)
    else if count + 1 = pageRows then
      ([entry], rest)
    else
      let (page, rest) := nextPage (count + 1) (saturatingAdd size next) rest
      (entry :: page, rest)

theorem nextPage_append (count size : Nat) (entries : List (Bytes × Bytes)) :
    (nextPage count size entries).1 ++ (nextPage count size entries).2 = entries := by
  induction entries generalizing count size with
  | nil => rfl
  | cons entry rest ih =>
    rw [nextPage]
    split
    · rfl
    · split
      · rfl
      · simp [ih]

section

variable (entry : Bytes × Bytes) (rest : List (Bytes × Bytes))

/-- The first entry is taken whatever its size. -/
theorem nextPage_nonempty :
    (nextPage 0 0 (entry :: rest)).1 ≠ [] := by
  simp [nextPage, pageRows]

theorem length_nextPage_lt :
    (nextPage 0 0 (entry :: rest)).2.length < (entry :: rest).length := by
  have happend := congrArg List.length (nextPage_append 0 0 (entry :: rest))
  have hpos := List.length_pos_iff.mpr (nextPage_nonempty entry rest)
  rw [List.length_append] at happend
  omega

end

/-- Writes the entries page by page; `host n` answers the requests of page `n`. -/
def restoreLoop (group : UInt32) (host : Nat → Admission) (n : Nat) :
    List (Bytes × Bytes) → Op StateError (InMemory H) Unit
  | [] => pure ()
  | entry :: rest => do
    writePage group (nextPage 0 0 (entry :: rest)).1 (host n)
    restoreLoop group host (n + 1) (nextPage 0 0 (entry :: rest)).2
termination_by entries => entries.length
decreasing_by exact length_nextPage_lt entry rest

/-- Restores a group from a frame. -/
def restore (group : UInt32) (bytes : Slice) (host : Nat → Admission) :
    Op StateError (InMemory H) Unit := do
  let entries ← lift ((keyGroupSnapshotEntries group bytes).mapError snapshotError)
  let destination ← get
  lift (requireEmpty destination group (host 0))
  let entries ← lift (entries.collect.mapError fun panic => .panic panic.message)
  restoreLoop group host 1 entries

/-! ## Importing from a source -/

/-- A source of a key group: an ordered backend or a staged file. -/
inductive ImportSource where
  | ordered (state : OrderedMemoryKeyedState)
  | file (staged : CanonicalFile)

/-- Visits the entries of the source in pages. -/
def ImportSource.visitKeyGroupAdmitted {σ : Type} (source : ImportSource) (group : UInt32)
    (rows bytes : Nat) (admission : Admission)
    (visitor : List (Bytes × Bytes) → Op StateError σ Unit) : Op StateError σ Unit :=
  match source with
  | .ordered state => state.visitPrefixAdmitted group [] rows admission visitor
  | .file staged => staged.visitPrefixAdmitted group [] rows bytes visitor

/-- Every entry has to pass the validator. -/
def validateAll (validate : Bytes → Bytes → Except StateError Unit) :
    List (Bytes × Bytes) → Except StateError Unit
  | [] => .ok ()
  | entry :: rest => do
    validate entry.1 entry.2
    validateAll validate rest

variable {entries : List (Bytes × Bytes)} {validate : Bytes → Bytes → Except StateError Unit}

theorem validateAll_of_accepts (h : ∀ entry ∈ entries, validate entry.1 entry.2 = .ok ()) :
    validateAll validate entries = .ok () := by
  induction entries with
  | nil => rfl
  | cons entry rest ih =>
    obtain ⟨hentry, hrest⟩ := List.forall_mem_cons.mp h
    rw [validateAll, hentry, Except.ok_bind, ih hrest]

/-- Imports a group from another backend or a file. -/
def importKeyGroup (source : ImportSource) (group : UInt32) (host : Nat → Admission)
    (validate : Bytes → Bytes → Except StateError Unit) : Op StateError (InMemory H) Unit := do
  let destination ← get
  lift (requireEmpty destination group (host 0))
  source.visitKeyGroupAdmitted group pageRows pageBytes (host 1) fun page => do
    lift (validateAll validate page)
    writePage group page (host 2)

/-! ## What a page does -/

/-- Puts of distinct keys bind exactly these keys. -/
theorem applyAll_puts (map : StateMap) (hnodup : (entries.map Prod.fst).Nodup) :
    (∀ k v, (k, v) ∈ entries → map.applyAll (entries.map (put g)) g k = some v) ∧
      ∀ g' k, g' ≠ g ∨ k ∉ entries.map Prod.fst →
          map.applyAll (entries.map (put g)) g' k = map g' k := by
  induction entries generalizing map with
  | nil => exact ⟨nofun, fun _ _ _ => rfl⟩
  | cons entry entries ih =>
    obtain ⟨hentry, hrest⟩ := List.nodup_cons.mp hnodup
    obtain ⟨hmem, hother⟩ := ih (map.apply (put g entry)) hrest
    rw [List.map_cons, StateMap.applyAll_cons]
    constructor
    · intro k v hkv
      rcases List.mem_cons.mp hkv with rfl | hkv
      · rw [hother g k (Or.inr hentry)]
        simp [StateMap.apply, put]
      · exact hmem k v hkv
    · intro g' k hk
      have hk' : g' ≠ g ∨ k ≠ entry.1 ∧ k ∉ entries.map Prod.fst := by simpa using hk
      rw [hother g' k (hk'.imp_right And.right)]
      exact StateMap.apply_of_ne (hk'.imp_right And.left)

variable {contents : Bytes → Option Bytes}

/-- Putting a listing into an empty group gives the group the listed contents and leaves the other
groups alone. -/
theorem applyAll_listing (hlists : SortedEntries.Lists contents entries)
    {map : StateMap} (hempty : ∀ k, map g k = none) :
    map.applyAll (entries.map (put g)) g = contents ∧
      ∀ g', g' ≠ g → map.applyAll (entries.map (put g)) g' = map g' := by
  obtain ⟨hmem, hother⟩ := applyAll_puts map (SortedEntries.nodup_keys hlists.sorted)
  refine ⟨?_, fun g' hg => funext fun k => hother g' k (Or.inl hg)⟩
  funext k
  rcases hk : contents k with _ | v
  · rw [hother g k (Or.inr ?_), hempty]
    rintro hkey
    obtain ⟨⟨_, v⟩, hkv, rfl⟩ := List.mem_map.mp hkey
    have := (hlists.mem_iff _ v).mp hkv
    simp [hk] at this
  · exact hmem k v ((hlists.mem_iff k v).mpr hk)

theorem addPageBytes_of_lt {total : Nat} {entry : Bytes × Bytes}
    (h : total + (4 * (entry.1.length + entry.2.length) + 384) < usizeLimit) :
    addPageBytes total entry = .ok (total + (4 * (entry.1.length + entry.2.length) + 384)) := by
  generalize hpayload : entry.1.length + entry.2.length = payload at h ⊢
  have h₁ : checkedAdd entry.1.length entry.2.length = some payload :=
    checkedAdd_eq_some.mpr ⟨lt_of_le_of_lt (by omega) h, hpayload⟩
  have h₂ : checkedMul payload 4 = some (payload * 4) := if_pos (lt_of_le_of_lt (by omega) h)
  have h₃ : checkedAdd (payload * 4) 384 = some (payload * 4 + 384) :=
    if_pos (lt_of_le_of_lt (by omega) h)
  have h₄ : checkedAdd total (payload * 4 + 384) = some (total + (payload * 4 + 384)) :=
    if_pos (lt_of_le_of_lt (by omega) h)
  simp [addPageBytes, h₁, h₂, h₃, h₄, Nat.mul_comm]

variable {page : List (Bytes × Bytes)}

/-- The workspace of a page of the format's entries never overflows. -/
theorem pageWorkspace_succeeds (hfits : ∀ entry ∈ page, Snapshot.EntryFits entry) (total : Nat)
    (htotal : total + page.length * 2 ^ 36 < usizeLimit) :
    ∃ bytes, page.foldlM addPageBytes total = .ok bytes := by
  induction page generalizing total with
  | nil => exact ⟨total, rfl⟩
  | cons entry page ih =>
    obtain ⟨⟨hkey, hvalue⟩, hrest⟩ := List.forall_mem_cons.mp hfits
    rw [List.length_cons, Nat.succ_mul] at htotal
    have hentry : total + (4 * (entry.1.length + entry.2.length) + 384) + page.length * 2 ^ 36 ≤
        total + (page.length * 2 ^ 36 + 2 ^ 36) := by omega
    have hrest' := lt_of_le_of_lt hentry htotal
    obtain ⟨bytes, hbytes⟩ := ih hrest _ hrest'
    refine ⟨bytes, ?_⟩
    rw [List.foldlM_cons, addPageBytes_of_lt (lt_of_le_of_lt (Nat.le_add_right _ _) hrest')]
    exact hbytes

/-- **A page** of an owned group is written and acts on the destination's map as its puts. -/
theorem writePage_spec (hv : state.Valid) (hg : state.Owns g)
    (hfits : ∀ entry ∈ page, Snapshot.EntryFits entry)
    (hrows : page.length ≤ pageRows) :
    ∃ state', writePage g page .all state = (.ok (), state') ∧ state'.Valid ∧ state'.Owns g ∧
      state'.toMap = state.toMap.applyAll (page.map (put g)) := by
  obtain ⟨bytes, hbytes⟩ := pageWorkspace_succeeds hfits 4096 (by
    simp only [pageRows] at hrows
    simp only [usizeLimit]
    omega)
  obtain ⟨state', hwrite⟩ := InMemory.writeBatch_succeeds (page.map (put g)) hv (by
    intro m hm
    obtain ⟨entry, -, rfl⟩ := List.mem_map.mp hm
    exact hg)
  obtain ⟨hv', ⟨hfirst, hcount⟩, hmap⟩ := InMemory.writeBatch_simulates hv hwrite
  refine ⟨state', ?_, hv', ?_, hmap⟩
  · simp only [writePage, hbytes, lift_ok, pure_bind, Admission.request_all, Admission.drop_all]
    exact hwrite
  · obtain ⟨i, hi⟩ := hg
    exact ⟨i, by rw [hfirst, hcount, hi]⟩

variable {pages : List (List (Bytes × Bytes))}

/-- **Any cut.**  The pages of a listing, cut anywhere within the row limit, fill an empty group
with the listed contents. -/
theorem writePages_spec (hv : state.Valid) (hg : state.Owns g)
    (hfits : ∀ entry ∈ pages.flatten, Snapshot.EntryFits entry)
    (hrows : ∀ page ∈ pages, page.length ≤ pageRows) :
    ∃ state', forEach (fun page => writePage g page .all) pages state = (.ok (), state') ∧
      state'.Valid ∧ state'.Owns g ∧
      state'.toMap = state.toMap.applyAll (pages.flatten.map (put g)) := by
  induction pages generalizing state with
  | nil => exact ⟨state, rfl, hv, hg, rfl⟩
  | cons page pages ih =>
    obtain ⟨hpage, hpages⟩ := List.forall_mem_cons.mp hrows
    have hfits' : ∀ entry, entry ∈ page ∨ entry ∈ pages.flatten → Snapshot.EntryFits entry := by
      simpa using hfits
    obtain ⟨s₁, h₁, hv₁, hg₁, hmap₁⟩ :=
      writePage_spec hv hg (fun e he => hfits' e (Or.inl he)) hpage
    obtain ⟨s₂, h₂, hv₂, hg₂, hmap₂⟩ := ih hv₁ hg₁ (fun e he => hfits' e (Or.inr he)) hpages
    refine ⟨s₂, by rw [forEach_cons, bind_of_ok h₁, h₂], hv₂, hg₂, ?_⟩
    rw [hmap₂, hmap₁, List.flatten_cons, List.map_append, StateMap.applyAll_append]

/-! ## The probe of the destination -/

variable {dst : InMemory H}

theorem requireEmpty_of_empty (hv : dst.Valid) (hg : dst.Owns g)
    (hempty : ∀ k, dst.toMap g k = none) : requireEmpty dst g .all = .ok () := by
  rw [requireEmpty, Admission.request_all, Except.ok_bind]
  rcases dst with s | s
  · exact congrArg Prod.fst ((visitKeyGroup_refuse hv (fun _ _ => rfl)
      one_ne_zero (Nat.succ_ne_zero 4095) hg ()).1 hempty)
  · exact congrArg Prod.fst ((OrderedMemoryKeyedState.visitKeyGroup_refuse (fun _ _ => rfl)
      one_ne_zero (Nat.succ_ne_zero 4095) hg ()).1 hempty)

theorem requireEmpty_of_nonempty (hv : dst.Valid) (hg : dst.Owns g)
    (hne : ∃ k, dst.toMap g k ≠ none) (admission : Admission) :
    ∃ e, requireEmpty dst g admission = .error e := by
  rw [requireEmpty]
  rcases admission.request 0 with e | _
  · exact ⟨e, rfl⟩
  rw [Except.ok_bind]
  rcases dst with s | s
  · obtain ⟨e, he⟩ := (visitKeyGroup_refuse hv (fun _ _ => rfl)
      one_ne_zero (Nat.succ_ne_zero 4095) hg ()).2 hne
    exact ⟨e, congrArg Prod.fst he⟩
  · obtain ⟨e, he⟩ := (OrderedMemoryKeyedState.visitKeyGroup_refuse (fun _ _ => rfl)
      one_ne_zero (Nat.succ_ne_zero 4095) hg ()).2 hne
    exact ⟨e, congrArg Prod.fst he⟩

/-! ## The pages of a move -/

/-- The bytes of a page grow only up to the limit, from the second entry on. -/
theorem nextPage_bound (entries : List (Bytes × Bytes)) (count size : Nat) (hcount : count ≠ 0)
    (hlt : count < pageRows) :
    count + (nextPage count size entries).1.length ≤ pageRows ∧
      size + ((nextPage count size entries).1.map payloadSize).sum ≤ max pageBytes size := by
  induction entries generalizing count size with
  | nil => exact ⟨by simpa [nextPage] using hlt.le, by simp [nextPage]⟩
  | cons entry rest ih =>
    rw [nextPage]
    split
    · exact ⟨by simpa using hlt.le, by simp⟩
    · rename_i hroom
      -- the sum is within the limit, so it has not saturated
      have hsize : saturatingAdd size (saturatingAdd entry.1.length entry.2.length) =
          size + payloadSize entry ∧
          size + payloadSize entry ≤ pageBytes := by
        simp only [hcount, ne_eq, not_false_eq_true, true_and, not_lt, gt_iff_lt, saturatingAdd,
          pageBytes, usizeLimit] at hroom
        simp only [saturatingAdd, payloadSize, pageBytes, usizeLimit]
        omega
      split
      · rename_i hfull
        exact ⟨by simp [hfull], by simpa using Or.inl hsize.2⟩
      · have ih := ih (count + 1) (size + payloadSize entry) (by omega) (by omega)
        simp only [hsize.1, List.length_cons, List.map_cons, List.sum_cons]
        omega

theorem nextPage_pageBound (entry : Bytes × Bytes) (rest : List (Bytes × Bytes)) :
    CanonicalFile.PageBound pageRows pageBytes (nextPage 0 0 (entry :: rest)).1 := by
  obtain ⟨hrows, hbytes⟩ := nextPage_bound rest 1
    (saturatingAdd 0 (saturatingAdd entry.1.length entry.2.length)) one_ne_zero (by decide)
  have hpage : (nextPage 0 0 (entry :: rest)).1 = entry ::
      (nextPage 1 (saturatingAdd 0 (saturatingAdd entry.1.length entry.2.length)) rest).1 := by
    simp [nextPage, pageRows]
  rw [hpage]
  refine ⟨by rw [List.length_cons]; omega, ?_⟩
  simp only [List.map_cons, List.sum_cons, List.headD_cons, payloadSize, saturatingAdd,
    usizeLimit, pageBytes] at hbytes ⊢
  omega

/-- The loop of `restore` writes a cut of the entries. -/
theorem restoreLoop_pages (g : UInt32) (n : Nat) (entries : List (Bytes × Bytes)) :
    ∃ pages, Paging.Cut (CanonicalFile.PageBound pageRows pageBytes) pages entries ∧
      restoreLoop (H := H) g (fun _ => .all) n entries =
        forEach (fun page => writePage g page .all) pages := by
  match entries with
  | [] =>
    refine ⟨[], Paging.cut_nil _, ?_⟩
    rw [restoreLoop, forEach_nil]
  | entry :: rest =>
    obtain ⟨pages, hcut, hrun⟩ := restoreLoop_pages g (n + 1) (nextPage 0 0 (entry :: rest)).2
    refine ⟨(nextPage 0 0 (entry :: rest)).1 :: pages, ?_, ?_⟩
    · have hcons := hcut.cons (nextPage_nonempty entry rest) (nextPage_pageBound entry rest)
      rwa [nextPage_append] at hcons
    · rw [restoreLoop, forEach_cons, hrun]
termination_by entries.length
decreasing_by exact length_nextPage_lt entry rest

/-! ## A move of a group -/

variable {H' : HashTable PackedEntry}

/-- What a move leaves behind: the group has the contents and their frame, the other groups are as
they were. -/
structure Moved (contents : Bytes → Option Bytes) (g : UInt32) (frame : Bytes)
    (dst dst' : InMemory H) : Prop where
  group : dst'.toMap g = contents
  others : ∀ g', g' ≠ g → dst'.toMap g' = dst.toMap g'
  snapshot : dst'.snapshotKeyGroup g .all = .ok frame

/-- `move` writes the entries of the contents in pages that satisfy `bounded`, and completes. -/
structure MovesInPages (contents : Bytes → Option Bytes) (g : UInt32) (frame : Bytes)
    (bounded : List (Bytes × Bytes) → Prop) (move : Op StateError (InMemory H) Unit)
    (dst : InMemory H) : Prop where
  pages : ∃ entries pages, SortedEntries.Lists contents entries ∧
    Paging.Cut bounded pages entries ∧
    move dst = forEach (fun page => writePage g page .all) pages dst
  moved : ∃ dst', move dst = (.ok (), dst') ∧ Moved contents g frame dst dst'

section Moves

variable (hlists : SortedEntries.Lists contents entries) (hfits : Snapshot.Fits entries)
  (hsize : frameSize entries < usizeLimit) (hv : dst.Valid) (hg : dst.Owns g)
  (hempty : ∀ k, dst.toMap g k = none)

include hlists hfits hsize hv hg hempty

variable {bounded : List (Bytes × Bytes) → Prop}

/-- A move that writes a cut of the listing into an empty group is complete. -/
theorem movesInPages_of_cut (hcut : Paging.Cut bounded pages entries)
    (hrows : ∀ page ∈ pages, page.length ≤ pageRows) {move : Op StateError (InMemory H) Unit}
    (hmove : move dst = forEach (fun page => writePage g page .all) pages dst) :
    MovesInPages contents g (frame g entries) bounded move dst := by
  refine ⟨⟨entries, pages, hlists, hcut, hmove⟩, ?_⟩
  obtain ⟨dst', hrun, hv', hg', hmap⟩ :=
    writePages_spec hv hg (by rw [hcut.flatten]; exact hfits.2) hrows
  rw [hcut.flatten] at hmap
  obtain ⟨hgroup, hothers⟩ := applyAll_listing hlists hempty
  rw [← hmap] at hgroup hothers
  refine ⟨dst', hmove.trans hrun, hgroup, hothers, ?_⟩
  rw [InMemory.snapshotKeyGroup_eq_ok hv' hg', hgroup]
  exact ⟨entries, hlists, hfits, hsize, rfl⟩

theorem restore_moves {bytes : Slice} (hbytes : bytes.toBytes = frame g entries) :
    MovesInPages contents g (frame g entries)
      (CanonicalFile.PageBound pageRows pageBytes) (restore g bytes fun _ => .all) dst := by
  obtain ⟨pages, hcut, hloop⟩ := restoreLoop_pages (H := H) g 1 entries
  refine movesInPages_of_cut hlists hfits hsize hv hg hempty hcut
    (fun page hpage => (hcut.bounded page hpage).1) ?_
  have hentries : keyGroupSnapshotEntries g bytes = .ok ⟨⟨bytes, 16⟩, entries.length⟩ := by
    have hvalid := validateKeyGroupSnapshot_eq_ok.mpr ⟨entries, hfits, hbytes, rfl⟩
    simp [keyGroupSnapshotEntries, hvalid]
  obtain ⟨c', hr⟩ := reads_entries_of_frame hbytes
  have hcollect := Snapshot.Entries.collect_of_reads hfits.2 hr
  rw [restore, mapError_eq_ok.mpr hentries, lift_ok, pure_bind, bind_of_ok (get_apply dst),
    requireEmpty_of_empty hv hg hempty, lift_ok, pure_bind, mapError_eq_ok.mpr hcollect,
    lift_ok, pure_bind, hloop]

/-- A validator that accepts all entries of the source changes nothing. -/
theorem importKeyGroup_moves {source : ImportSource}
    (hvalidate : ∀ k v, contents k = some v → validate k v = .ok ())
    (hbounded : ∀ page, bounded page → page.length ≤ pageRows)
    (hsource : ∀ visitor : List (Bytes × Bytes) → Op StateError (InMemory H) Unit,
      ∃ pages, Paging.Cut bounded pages entries ∧
        source.visitKeyGroupAdmitted g pageRows pageBytes .all visitor = forEach visitor pages) :
    MovesInPages contents g (frame g entries) bounded
      (importKeyGroup source g (fun _ => .all) validate) dst := by
  obtain ⟨pages, hcut, hscan⟩ := hsource fun page => do
    lift (validateAll validate page)
    writePage g page .all
  refine movesInPages_of_cut hlists hfits hsize hv hg hempty hcut
    (fun page hpage => hbounded page (hcut.bounded page hpage)) ?_
  rw [importKeyGroup, bind_of_ok (get_apply dst), requireEmpty_of_empty hv hg hempty,
    lift_ok, pure_bind, hscan]
  refine congrFun (forEach_congr fun page hpage => ?_) dst
  have haccepted : validateAll validate page = .ok () := validateAll_of_accepts fun entry hentry =>
    hvalidate entry.1 entry.2 ((hlists.mem_iff _ _).mp
      (hcut.flatten ▸ List.mem_flatten.mpr ⟨page, hpage, hentry⟩))
  rw [haccepted, lift_ok, pure_bind]

end Moves

/-- A probe that finds an entry ends a restore before it writes. -/
theorem restore_refuses (g : UInt32) (bytes : Slice) (host : Nat → Admission)
    (hprobe : ∃ e, requireEmpty dst g (host 0) = .error e) :
    ∃ e, restore g bytes host dst = (.error e, dst) := by
  obtain ⟨e, he⟩ := hprobe
  rw [restore]
  rcases (keyGroupSnapshotEntries g bytes).mapError snapshotError with e' | entries
  · exact ⟨e', rfl⟩
  · refine ⟨e, ?_⟩
    rw [lift_ok, pure_bind, bind_of_ok (get_apply dst), he]
    rfl

theorem importKeyGroup_refuses (source : ImportSource) (g : UInt32) (host : Nat → Admission)
    (validate : Bytes → Bytes → Except StateError Unit)
    (hprobe : ∃ e, requireEmpty dst g (host 0) = .error e) :
    ∃ e, importKeyGroup source g host validate dst = (.error e, dst) := by
  obtain ⟨e, he⟩ := hprobe
  refine ⟨e, ?_⟩
  rw [importKeyGroup, bind_of_ok (get_apply dst), he]
  rfl

/-- **Moving a key group.**  The frame of a group of any reachable backend, restored into an empty
group or staged as a file and imported from there, and the group itself, imported from an ordered
backend, all leave the destination with the contents of the source and with its frame.  They write
the listing of the source in bounded pages; any other cut of the listing would do the same.  A
destination group that is not empty is refused and nothing changes. -/
theorem key_group_move_faithful (src : InMemory H) (dst : InMemory H') (g : UInt32)
    (frame : Slice) (hsrc : src.Reachable) (hdst : dst.Reachable) (hgsrc : src.Owns g)
    (hgdst : dst.Owns g) (hframe : src.snapshotKeyGroup g .all = .ok frame.toBytes) :
    ((∀ k, dst.toMap g k = none) →
      MovesInPages (src.toMap g) g frame.toBytes (CanonicalFile.PageBound pageRows pageBytes)
        (restore g frame fun _ => .all) dst ∧
      (∀ validate : Bytes → Bytes → Except StateError Unit,
        (∀ k v, src.toMap g k = some v → validate k v = .ok ()) →
        (∀ o, src = .ordered o →
          MovesInPages (src.toMap g) g frame.toBytes (fun page => page.length ≤ pageRows)
            (importKeyGroup (.ordered o) g (fun _ => .all) validate) dst) ∧
        ∀ sort, CanonicalFile.SortsByKey sort → ∃ file, read sort g frame = .ok file ∧
            MovesInPages (src.toMap g) g frame.toBytes (CanonicalFile.PageBound pageRows pageBytes)
              (importKeyGroup (.file file) g (fun _ => .all) validate) dst) ∧
      ∀ entries pages, SortedEntries.Lists (src.toMap g) entries →
        Paging.Cut (fun page => page.length ≤ pageRows) pages entries →
        ∃ dst', forEach (fun page => writePage g page .all) pages dst = (.ok (), dst') ∧
          Moved (src.toMap g) g frame.toBytes dst dst') ∧
    ((∃ k, dst.toMap g k ≠ none) → ∀ host,
      (∀ bytes, ∃ e, restore g bytes host dst = (.error e, dst)) ∧
      ∀ source validate, ∃ e, importKeyGroup source g host validate dst = (.error e, dst)) := by
  have hv := hdst.valid
  obtain ⟨entries, hlists, hfits, hsize, hbytes⟩ :=
    (InMemory.snapshotKeyGroup_eq_ok hsrc.valid hgsrc).mp hframe
  constructor
  · intro hempty
    rw [hbytes]
    refine ⟨restore_moves hlists hfits hsize hv hgdst hempty hbytes, ?_, ?_⟩
    · intro validate hvalidate
      constructor
      · rintro o rfl
        exact importKeyGroup_moves hlists hfits hsize hv hgdst hempty hvalidate (fun _ h => h)
          fun visitor =>
            OrderedMemoryKeyedState.visitPrefixAdmitted_pages hgsrc hlists visitor (by decide)
      · intro sort hsort
        obtain ⟨file, hread, rfl, hholds⟩ := read_of_frame hsort hlists hfits hbytes
        exact ⟨file, hread, importKeyGroup_moves hlists hfits hsize hv hgdst hempty hvalidate
          (fun _ h => h.1) fun visitor => visitPrefixAdmitted_pages hholds visitor
            (show 0 < pageRows by decide) (show 0 < pageBytes by decide)⟩
    · intro entries' pages hlists' hcut
      obtain rfl := hlists.unique hlists'
      exact (movesInPages_of_cut hlists hfits hsize hv hgdst hempty hcut hcut.bounded rfl).moved
  · intro hne host
    have hprobe := requireEmpty_of_nonempty hv hgdst hne (host 0)
    exact ⟨fun bytes => restore_refuses g bytes host hprobe,
      fun source validate => importKeyGroup_refuses source g host validate hprobe⟩

/-- Two batches that leave three entries in group 3. -/
def sourceWrites : List WriteCall :=
  [([⟨⟨3, [2, 2]⟩, some [4]⟩, ⟨⟨3, [1]⟩, some [7, 7]⟩, ⟨⟨4, [1]⟩, some [8]⟩, ⟨⟨3, [3]⟩, some []⟩],
    .all),
    ([⟨⟨3, [3]⟩, none⟩, ⟨⟨3, [2, 3]⟩, some [6]⟩], .all)]

/-- The ordered backend over the groups 3 and 4 that they give. -/
def sourceState : OrderedMemoryKeyedState :=
  (runWrites OrderedMemoryKeyedState.writeBatch sourceWrites ⟨3, [∅, ∅]⟩).2

/-- A hash backend over these groups with an entry in group 4. -/
def destinationState : MemoryKeyedState (HashTable.buckets PackedEntry) :=
  (runWrites MemoryKeyedState.writeBatch [([⟨⟨4, [9]⟩, some [1]⟩], .all)] lengthRouted).2

/-- The frame of group 3 of the source. -/
def sourceFrame : Slice := ⟨frame 3 [([1], [7, 7]), ([2, 2], [4]), ([2, 3], [6])], by decide⟩

/-- The three entries are moved to the hash backend in both ways, and its other group stays. -/
theorem key_group_move_faithful_three_entries :
    (∃ dst, restore 3 sourceFrame (fun _ => .all) (.hash destinationState) = (.ok (), dst) ∧
      dst.snapshotKeyGroup 3 .all = .ok sourceFrame.toBytes ∧ dst.toMap 4 [9] = some [1]) ∧
    ∃ dst, importKeyGroup (.ordered sourceState) 3 (fun _ => .all) (fun _ _ => .ok ())
        (.hash destinationState) = (.ok (), dst) ∧
      dst.snapshotKeyGroup 3 .all = .ok sourceFrame.toBytes ∧ dst.toMap 4 [9] = some [1] := by
  have hother : InMemory.toMap (.hash destinationState) 4 [9] = some [1] := by decide +kernel
  have hmove :=
    (key_group_move_faithful (.ordered sourceState : InMemory (HashTable.buckets PackedEntry))
    (.hash destinationState) 3 sourceFrame
    (Or.inr ⟨3, 4, .all, ⟨3, [∅, ∅]⟩, _, sourceWrites, rfl, Prod.ext (by decide) rfl, rfl⟩)
    (Or.inl ⟨⟨fun _ key => key.length.toUInt64, fun _ _ _ => 0⟩, 3, 4, .all, lengthRouted,
      destinationState, _, rfl, Prod.ext (by decide +kernel) rfl, rfl⟩)
    ⟨0, by decide⟩ ⟨0, by decide⟩ (by decide +kernel)).1 ?_
  · obtain ⟨restored, hrestore, hrestored⟩ := hmove.1.moved
    obtain ⟨imported, himport, himported⟩ :=
      ((hmove.2.1 (fun _ _ => .ok ()) fun _ _ _ => rfl).1 sourceState rfl).moved
    exact ⟨⟨restored, hrestore, hrestored.snapshot,
      (congrFun (hrestored.others 4 (by decide)) [9]).trans hother⟩,
      imported, himport, himported.snapshot,
        (congrFun (himported.others 4 (by decide)) [9]).trans hother⟩
  · intro k
    rfl

end StreamFusion.State
