import StreamFusion.Lib.Keyed
import StreamFusion.State.Staged

/-!
# Batches over copies of the states

The joins keep a state for every key and, beside it, timers and clocks.  A batch moves the clock,
loads the states of its keys, lets the rows work on these copies, and writes them back.
`CopyOperator` is such an operator: the changes that its rows make, and how a state is loaded and
saved.

If what is saved loads as the state it was, then a batch is the run of its rows on the states
themselves (`process_ok`), and a sequence of batches is the run of all their rows
(`processBatches_ok`), so that the cuts between the batches cannot be seen (`batch_cuts`).  A format
may bound the size of a state; `room` is the number of rows that a state can still take.
-/

namespace StreamFusion.State

open Wire Grouped Keyed Except List

variable {O R E C A : Type}

/-- An operator whose batches work on copies of the states.  The states of the operator itself are
not used: they are in the store. -/
structure CopyOperator (O R E C A : Type) extends KeyedChange O StateKey R E C A where
  load : Option Bytes → Except StateError A
  save : A → Except StateError (Option Bytes)
  /-- What a batch does to the clock. -/
  advance : O → O
  tooLong : StateError
  advance_withStates : ∀ o g, advance (withStates o g) = withStates (advance o) g
  advance_advance : ∀ o, advance (advance o) = advance o
  advance_change : ∀ r n o, advance o = o → advance (change r n o).1 = (change r n o).1

namespace CopyOperator

variable (c : CopyOperator O R E C A) [Inhabited A]

/-- The copy of a key. -/
def copyOf (copies : List (StateKey × A)) (key : StateKey) : A := (copies.lookup key).getD default

/-- The rows of a batch on copies of the states. -/
def processRows (store : Store) (o : O) (rows : List R) :
    Except StateError ((Store × O) × List E) := do
  let keys := keysOf c.key rows
  let copies ← keys.mapM fun key => do .ok (key, ← c.load (store.get key))
  let (final, events) := c.run 0 rows (c.withStates o (copyOf copies))
  let mutations ← keys.mapM fun key => do .ok (⟨key, ← c.save (c.states final key)⟩ : StateMutation)
  .ok ((store.writeBatch mutations, c.withStates final (c.states o)), events)

/-- A batch, whose rows are numbered by 32-bit numbers. -/
def process (store : Store) (o : O) (rows : List R) : Except StateError ((Store × O) × List E) :=
  if rows.length ≤ 2 ^ 31 then c.processRows store (c.advance o) rows else .error c.tooLong

/-- Batches one after the other. -/
def processBatches (store : Store) (o : O) : List (List R) →
    Except StateError ((Store × O) × List E)
  | [] => .ok ((store, o), [])
  | rows :: batches => do
    let ((store, o), events) ← c.process store o rows
    let (final, rest) ← processBatches store o batches
    .ok (final, events ++ rest)

/-- The states that can be stored: `good room a` says that `a` can be, also after `room` more rows.
A row is `valid` for an operator, which depends on its clocks only. -/
structure Stores (c : CopyOperator O R E C A) (good : Nat → A → Prop)
    (valid : O → R → Prop) : Prop where
  saved {room : Nat} {a : A} : good room a →
    ∃ bytes, c.save a = .ok bytes ∧ c.load bytes = .ok a
  weaken {room : Nat} {a : A} : good (room + 1) a → good room a
  change {room : Nat} {o : O} {r : R} {n : Nat} : valid o r →
    good (room + 1) (c.states o (c.key r)) →
    good room (c.states (c.change r n o).1 (c.key r))
  valid_withStates {o : O} {r : R} (g : StateKey → A) : valid o r → valid (c.withStates o g) r
  valid_change {o : O} {r r' : R} {n : Nat} : valid o r → valid (c.change r' n o).1 r

/-- The store holds the states of all keys. -/
def Holds (good : Nat → A → Prop) (room : Nat) (store : Store) (view : StateKey → A) : Prop :=
  ∀ key, good room (view key) ∧ c.save (view key) = .ok (store.get key)

variable {room : Nat} {good : Nat → A → Prop}

omit [Inhabited A] in
variable {c} in
theorem Holds.unique {store store' : Store} {view : StateKey → A}
    (h : c.Holds good room store view) (h' : c.Holds good room store' view) : store = store' :=
  Store.ext_get fun key => ok.inj ((h key).2.symm.trans (h' key).2)

variable {o : O} {valid : O → R → Prop} {rows : List R}

section

variable {c} (h : c.Stores good valid)

include h

omit [Inhabited A] in
/-- Rows keep the states storable. -/
theorem Stores.run (first : Nat)
    (hvalid : ∀ r ∈ rows, valid o r) (hgood : ∀ key, good (room + rows.length) (c.states o key)) :
    (∀ key, good room (c.states (c.run first rows o).1 key)) ∧
      ∀ r, valid o r → valid (c.run first rows o).1 r := by
  induction rows generalizing first o with
  | nil => exact ⟨hgood, fun _ hr => hr⟩
  | cons r rows ih =>
    obtain ⟨hr, hrows⟩ := forall_mem_cons.mp hvalid
    have hchanged : ∀ key, good (room + rows.length) (c.states (c.change r first o).1 key) := by
      intro key
      by_cases hkey : key = c.key r
      · subst hkey
        exact h.change hr (hgood _)
      · rw [c.states_change_of_ne r first o hkey]
        exact h.weaken (hgood key)
    rw [KeyedChange.run_cons]
    obtain ⟨hfinal, hstill⟩ := ih (first + 1) (fun r' hr' => h.valid_change (hrows r' hr')) hchanged
    exact ⟨hfinal, fun r' hr' => hstill r' (h.valid_change hr')⟩

end

theorem copyOf_map (copy : StateKey → A) {keys : List StateKey} {key : StateKey} (h : key ∈ keys) :
    copyOf (keys.map fun k => (k, copy k)) key = copy key :=
  RowOperator.slotOf_map copy h

variable {c}

variable {store : Store}

/-- The copies are as good as the states: a batch is the run of its rows on the states that are
stored, and fails only where a state cannot be saved. -/
theorem processRows_loaded (hload : ∀ key, c.load (store.get key) = .ok (c.states o key))
    (g : StateKey → A) : c.processRows store (c.withStates o g) rows = (do
      let mutations ← (keysOf c.key rows).mapM fun key => do
        .ok (⟨key, ← c.save (c.states (c.run 0 rows o).1 key)⟩ : StateMutation)
      .ok ((store.writeBatch mutations, c.withStates (c.run 0 rows o).1 g),
        (c.run 0 rows o).2)) := by
  have hcopies : ((keysOf c.key rows).mapM fun key => do
      ok (key, ← c.load (store.get key)) : Except StateError (List (StateKey × A))) =
      .ok ((keysOf c.key rows).map fun key => (key, c.states o key)) :=
    mapM_of_ok fun key _ => by rw [hload key]; rfl
  have hkeys : ∀ {key}, key ∈ keysOf c.key rows ↔ key ∈ rows.map c.key := by
    intro key
    rw [mem_keysOf, mem_map]
  have hrun := c.run_withStates 0 rows o
    (copyOf ((keysOf c.key rows).map fun key => (key, c.states o key)))
    fun r hr => copyOf_map _ (hkeys.mpr (mem_map_of_mem hr))
  have hstates : ∀ key ∈ keysOf c.key rows, c.states (c.run 0 rows (c.withStates o
      (copyOf ((keysOf c.key rows).map fun key => (key, c.states o key))))).1 key =
        c.states (c.run 0 rows o).1 key := by
    intro key hkey
    rw [hrun, c.states_withStates, if_pos (hkeys.mp hkey)]
  unfold processRows
  dsimp only
  rw [hcopies, ok_bind, c.withStates_withStates,
    mapM_congr fun key hkey => by rw [hstates key hkey], hrun, c.withStates_withStates,
    c.states_withStates]

theorem processRows_saved (hload : ∀ key, c.load (store.get key) = .ok (c.states o key))
    {bytes : StateKey → Option Bytes}
    (hsave : ∀ key ∈ keysOf c.key rows, c.save (c.states (c.run 0 rows o).1 key) = .ok (bytes key))
    (g : StateKey → A) : c.processRows store (c.withStates o g) rows =
      .ok ((store.writeBatch ((keysOf c.key rows).map fun key => ⟨key, bytes key⟩),
        c.withStates (c.run 0 rows o).1 g), (c.run 0 rows o).2) := by
  rw [processRows_loaded hload, mapM_of_ok fun key hkey => by rw [hsave key hkey]; rfl, ok_bind]

/-- One batch is the run of its rows on the states. -/
theorem processRows_ok (h : c.Stores good valid) (hvalid : ∀ r ∈ rows, valid o r)
    (hstore : c.Holds good (room + rows.length) store (c.states o)) (g : StateKey → A) :
    ∃ store', c.processRows store (c.withStates o g) rows =
        .ok ((store', c.withStates (c.run 0 rows o).1 g), (c.run 0 rows o).2) ∧
      c.Holds good room store' (c.states (c.run 0 rows o).1) := by
  have hgood := (h.run 0 hvalid fun key => (hstore key).1).1
  choose bytes hbytes using fun key => h.saved (hgood key)
  have hload : ∀ key, c.load (store.get key) = .ok (c.states o key) := by
    intro key
    obtain ⟨saved, hsaved, hloaded⟩ := h.saved (hstore key).1
    rw [← ok.inj (hsaved.symm.trans (hstore key).2)]
    exact hloaded
  refine ⟨_, processRows_saved hload (fun key _ => (hbytes key).1) g, fun key => ⟨hgood key, ?_⟩⟩
  rw [Store.get_writeBatch_map]
  by_cases hkey : key ∈ keysOf c.key rows
  · rw [if_pos hkey, (hbytes key).1]
  · have hnot : key ∉ rows.map c.key := by rwa [mem_keysOf, ← mem_map] at hkey
    rw [if_neg hkey, c.states_run_of_notMem 0 rows o hnot]
    exact (hstore key).2

omit [Inhabited A] in
theorem advance_run (ho : c.advance o = o) (first : Nat) (rows : List R) :
    c.advance (c.run first rows o).1 = (c.run first rows o).1 :=
  c.run_invariant (fun o => c.advance o = o) (fun r n _ h => c.advance_change r n _ h) first rows ho

/-- One batch after the clock has moved is the run of its rows. -/
theorem process_ok (h : c.Stores good valid) (ho : c.advance o = o)
    (hlength : rows.length ≤ 2 ^ 31) (hvalid : ∀ r ∈ rows, valid o r)
    (hstore : c.Holds good (room + rows.length) store (c.states o)) (g : StateKey → A) :
    ∃ store', c.process store (c.withStates o g) rows =
        .ok ((store', c.withStates (c.run 0 rows o).1 g), (c.run 0 rows o).2) ∧
      c.Holds good room store' (c.states (c.run 0 rows o).1) := by
  rw [process, if_pos hlength, c.advance_withStates, ho]
  exact processRows_ok h hvalid hstore g

variable {batches : List (List R)}

/-- A sequence of batches is the run of all their rows on the states; only the positions of the rows
differ. -/
theorem processBatches_ok (h : c.Stores good valid) (ho : c.advance o = o)
    (hlength : ∀ rows ∈ batches, rows.length ≤ 2 ^ 31) (hvalid : ∀ r ∈ batches.flatten, valid o r)
    (hstore : c.Holds good (room + batches.flatten.length) store (c.states o)) (g : StateKey → A) :
    ∃ store' events, c.processBatches store (c.withStates o g) batches =
        .ok ((store', c.withStates (c.run 0 batches.flatten o).1 g), events) ∧
      events.map c.content = (c.run 0 batches.flatten o).2.map c.content ∧
      c.Holds good room store' (c.states (c.run 0 batches.flatten o).1) := by
  induction batches generalizing store o with
  | nil => exact ⟨store, [], rfl, rfl, hstore⟩
  | cons rows batches ih =>
    rw [flatten_cons] at hvalid hstore ⊢
    obtain ⟨hfits, hlater⟩ := forall_mem_cons.mp hlength
    have hrows : ∀ r ∈ rows, valid o r := fun r hr => hvalid r (mem_append_left _ hr)
    rw [length_append, Nat.add_comm rows.length, ← Nat.add_assoc] at hstore
    obtain ⟨middle, hfirst, hmiddle⟩ := process_ok h ho hfits hrows hstore g
    have hstill := (h.run 0 hrows fun key => (hstore key).1).2
    obtain ⟨final, events, hthen, hevents, hfinal⟩ := ih (advance_run ho 0 rows) hlater
      (fun r hr => hstill r (hvalid r (mem_append_right _ hr))) hmiddle
    obtain ⟨hlast, hcontent⟩ :=
      c.run_position 0 (0 + rows.length) batches.flatten (c.run 0 rows o).1
    rw [KeyedChange.run_append]
    refine ⟨final, (c.run 0 rows o).2 ++ events, ?_, ?_, ?_⟩
    · rw [processBatches, hfirst, ok_bind]
      dsimp only
      rw [hthen, ok_bind, hlast]
    · rw [map_append, map_append, hevents, hcontent]
    · rw [← hlast]
      exact hfinal

theorem process_advance (store : Store) (o : O) (rows : List R) (g : StateKey → A) :
    c.process store (c.withStates (c.advance o) g) rows =
        c.process store (c.withStates o g) rows := by
  unfold process
  rw [c.advance_withStates, c.advance_withStates, c.advance_advance]

/-- **Batch cuts.**  Rows that come in one batch or in several leave the same store, timers and
clocks, and emit the same. -/
theorem batch_cuts (h : c.Stores good valid) (hne : batches ≠ [])
    (hlength : batches.flatten.length ≤ 2 ^ 31)
    (hvalid : ∀ r ∈ batches.flatten, valid (c.advance o) r) (view : StateKey → A)
    (hstore : c.Holds good batches.flatten.length store view) :
    ∃ final events events', c.process store o batches.flatten = .ok (final, events) ∧
      c.processBatches store o batches = .ok (final, events') ∧
      events.map c.content = events'.map c.content := by
  -- the operator with the stored states in place, after the clock has moved
  obtain ⟨o', ho'⟩ : ∃ o', c.withStates (c.advance o) view = o' := ⟨_, rfl⟩
  have hstates : c.states o' = view := by rw [← ho', c.states_withStates]
  have hadvance : c.advance o' = o' := by rw [← ho', c.advance_withStates, c.advance_advance]
  have hback : c.withStates o' (c.states o) = c.withStates (c.advance o) (c.states o) := by
    rw [← ho', c.withStates_withStates]
  have hvalid' : ∀ r ∈ batches.flatten, valid o' r := by
    intro r hr
    rw [← ho']
    exact h.valid_withStates view (hvalid r hr)
  have hrows : ∀ rows ∈ batches, rows.length ≤ 2 ^ 31 := fun rows hrows =>
    (sublist_flatten_of_mem hrows).length_le.trans hlength
  rw [← hstates, ← Nat.zero_add batches.flatten.length] at hstore
  obtain ⟨whole, hwhole, hwholeStore⟩ := process_ok h hadvance hlength hvalid' hstore (c.states o)
  obtain ⟨cut, events, hcut, hevents, hcutStore⟩ :=
    processBatches_ok h hadvance hrows hvalid' hstore (c.states o)
  rw [hback, process_advance, c.withStates_states] at hwhole
  obtain ⟨rows, batches, rfl⟩ := exists_cons_of_ne_nil hne
  rw [hback, processBatches, process_advance, c.withStates_states] at hcut
  rw [hwholeStore.unique hcutStore] at hwhole
  exact ⟨_, _, events, hwhole, hcut, hevents.symm⟩

end CopyOperator

end StreamFusion.State
