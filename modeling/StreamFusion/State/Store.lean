import StreamFusion.State.Backend

/-!
# The keyed state of an operator

An operator reads values of its backend, writes batches of mutations and scans the entries behind a
prefix.  What the backends represent is a map, so an operator is modelled over the map itself, kept
finite so that it can be scanned: a `Store`.  Reading and writing a store is reading and writing the
`StateMap` it denotes.

A scan hands out its entries in pages of a bounded weight and fails if an entry alone is too heavy.
-/

namespace StreamFusion.State

open Wire List

instance : Ord StateKey where
  compare a b := (compare a.keyGroup b.keyGroup).then (compare a.key b.key)

theorem StateKey.compare_def (a b : StateKey) :
    compare a b = (compare a.keyGroup b.keyGroup).then (compare a.key b.key) := rfl

instance : Std.TransOrd StateKey where
  eq_swap {a b} := by
    rw [StateKey.compare_def, StateKey.compare_def, Ordering.swap_then,
      Std.OrientedOrd.eq_swap (a := a.keyGroup), Std.OrientedOrd.eq_swap (a := a.key)]
  isLE_trans {a b c} hab hbc := by
    simp only [StateKey.compare_def, Ordering.isLE_then_iff_and] at *
    refine ⟨Std.TransOrd.isLE_trans hab.1 hbc.1, ?_⟩
    rcases hab.2 with hlt | hkey
    · exact Or.inl (Std.TransCmp.lt_of_lt_of_isLE hlt hbc.1)
    · rcases hbc.2 with hlt | hkey'
      · exact Or.inl (Std.TransCmp.lt_of_isLE_of_lt hab.1 hlt)
      · exact Or.inr (Std.TransOrd.isLE_trans hkey hkey')

instance : Std.LawfulEqOrd StateKey where
  eq_of_compare {a b} h := by
    rw [StateKey.compare_def, Ordering.then_eq_eq] at h
    obtain ⟨ga, ka⟩ := a
    obtain ⟨gb, kb⟩ := b
    rw [StateKey.mk.injEq]
    exact ⟨Std.LawfulEqOrd.eq_of_compare h.1, Std.LawfulEqOrd.eq_of_compare h.2⟩

/-- The finite map of an operator's keyed state. -/
abbrev Store := Std.ExtTreeMap StateKey Bytes compare

namespace Store

/-- The value of a key. -/
def get (store : Store) (key : StateKey) : Option Bytes := store[key]?

/-- A mutation. -/
def apply (store : Store) (mutation : StateMutation) : Store :=
  match mutation.value with
  | some value => store.insert mutation.key value
  | none => store.erase mutation.key

/-- Writes a batch. -/
def writeBatch (store : Store) (mutations : List StateMutation) : Store :=
  mutations.foldl apply store

/-- The weight of an entry in a page of a scan. -/
def entryWeight (entry : StateKey × Bytes) : Nat := entry.1.key.length + entry.2.length + 100

/-- The entries of a group whose keys start like this. -/
def entriesWithPrefix (store : Store) (keyGroup : UInt32) (start : Bytes) :
    List (StateKey × Bytes) :=
  store.toList.filter fun entry => entry.1.keyGroup = keyGroup && start.isPrefixOf entry.1.key

/-- The keys that start like this, if every entry fits in a page. -/
def visitPrefix (store : Store) (keyGroup : UInt32) (start : Bytes) (maxBytes : Nat) :
    Except StateError (List StateKey) :=
  if (store.entriesWithPrefix keyGroup start).any fun entry => entryWeight entry > maxBytes then
    .error (.resourcesExhausted "state scan entry exceeds the admitted page budget")
  else
    .ok ((store.entriesWithPrefix keyGroup start).map Prod.fst)

variable {store : Store}

theorem ext_get {store' : Store} (h : ∀ key, store.get key = store'.get key) : store = store' :=
  Std.ExtTreeMap.ext_getElem? h

@[simp] theorem get_empty (key : StateKey) : get ∅ key = none := by simp [get]

section

variable (store : Store)

/-- A mutation changes one key. -/
theorem get_apply (mutation : StateMutation) (key : StateKey) : (store.apply mutation).get key =
      if key = mutation.key then mutation.value else store.get key := by
  have hkey : compare mutation.key key = .eq ↔ key = mutation.key :=
    Std.LawfulEqCmp.compare_eq_iff_eq.trans eq_comm
  rw [apply, get, get]
  rcases mutation.value with _ | value
  · simp only [Std.ExtTreeMap.getElem?_erase, hkey]
  · simp only [Std.ExtTreeMap.getElem?_insert, hkey]

theorem writeBatch_append (ms ms' : List StateMutation) :
    store.writeBatch (ms ++ ms') = (store.writeBatch ms).writeBatch ms' :=
  foldl_append ..

end

variable {mutations : List StateMutation} {key : StateKey}

/-- A key no mutation names keeps its value. -/
theorem get_writeBatch_of_not_mem
    (h : ∀ m ∈ mutations, m.key ≠ key) : (store.writeBatch mutations).get key = store.get key := by
  induction mutations generalizing store with
  | nil => rfl
  | cons m ms ih =>
    obtain ⟨hm, hms⟩ := forall_mem_cons.mp h
    show (writeBatch (store.apply m) ms).get key = _
    rw [ih hms, get_apply, if_neg (Ne.symm hm)]

/-- If all mutations of a key agree, the key has their value. -/
theorem get_writeBatch_of_agree {value : Option Bytes} (hex : ∃ m ∈ mutations, m.key = key)
    (hagree : ∀ m ∈ mutations, m.key = key → m.value = value) :
    (store.writeBatch mutations).get key = value := by
  induction mutations generalizing store with
  | nil => simp at hex
  | cons m ms ih =>
    obtain ⟨hm, hms⟩ := forall_mem_cons.mp hagree
    show (writeBatch (store.apply m) ms).get key = value
    by_cases hlater : ∃ m' ∈ ms, m'.key = key
    · exact ih hlater hms
    · obtain ⟨m', hm', hkey⟩ := hex
      rcases mem_cons.mp hm' with rfl | hm'
      · rw [get_writeBatch_of_not_mem fun n hn hnk => hlater ⟨n, hn, hnk⟩, get_apply, hm hkey,
          if_pos hkey.symm]
      · exact absurd ⟨m', hm', hkey⟩ hlater

section

variable {keys : List StateKey} {value : StateKey → Option Bytes}

/-- A batch with a mutation for each of some keys. -/
theorem get_writeBatch_map : (store.writeBatch (keys.map fun key => ⟨key, value key⟩)).get key =
      if key ∈ keys then value key else store.get key := by
  by_cases hkey : key ∈ keys
  · rw [if_pos hkey]
    refine get_writeBatch_of_agree ⟨⟨key, value key⟩, mem_map_of_mem hkey, rfl⟩ ?_
    intro m hm hkey'
    obtain ⟨key', -, rfl⟩ := mem_map.mp hm
    cases hkey'
    rfl
  · rw [if_neg hkey]
    refine get_writeBatch_of_not_mem fun m hm hkey' => ?_
    obtain ⟨key', hmem, rfl⟩ := mem_map.mp hm
    cases hkey'
    exact hkey hmem

/-- A batch with a mutation for each touched key. -/
theorem get_writeBatch_filterMap {touched : StateKey → Bool} :
    (store.writeBatch (keys.filterMap fun key =>
        if touched key then some ⟨key, value key⟩ else none)).get key =
      if key ∈ keys ∧ touched key = true then value key else store.get key := by
  have hfilter : (keys.filterMap fun key => if touched key then some ⟨key, value key⟩ else none) =
      (keys.filter touched).map fun key => (⟨key, value key⟩ : StateMutation) := by
    rw [← filterMap_eq_map, filterMap_filter]
    rfl
  rw [hfilter, get_writeBatch_map]
  exact if_congr mem_filter rfl rfl

end

theorem mem_entriesWithPrefix {keyGroup : UInt32} {start : Bytes} {value : Bytes} :
    (key, value) ∈ store.entriesWithPrefix keyGroup start ↔
      store.get key = some value ∧ key.keyGroup = keyGroup ∧ start <+: key.key := by
  rw [entriesWithPrefix, mem_filter, (SortedEntries.lists_toList store).mem_iff]
  simp [get]

end Store

end StreamFusion.State
