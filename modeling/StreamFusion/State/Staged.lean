import StreamFusion.Lib.Grouped
import StreamFusion.State.Store

/-!
# Row operators over staged state

The stateful row operators share one loop.  A batch finds its keys in the order of their first rows,
loads the state of each key once, lets the rows work on the copies, and at the end writes the copies
that were touched.  `RowOperator` is what differs: how a stored value is loaded, what a row does to
the copy of its key, and how a copy is saved.

`RowOperator.Refines` compares an operator with a machine that works row by row.  Where it holds, a
batch is the run of its rows (`process_ok`), the final state is the state the machine leaves, and
nobody can tell how the rows were cut into batches (`processBatches_ok`, `batch_cuts`).
-/

namespace StreamFusion.State

open Wire Grouped List

variable {R E V A : Type}

/-- A stateful row operator.  A row comes with its position in the batch. -/
structure RowOperator (R E V : Type) where
  key : R → StateKey
  load : Option Bytes → Except StateError V
  step : V → R × Nat → Except StateError (V × List E)
  touched : V → Bool
  save : V → Option Bytes

namespace RowOperator

variable (operator : RowOperator R E V)

/-- What is written of the touched slots. -/
def mutations (staged : StateKey → V) (keys : List StateKey) : List StateMutation :=
  keys.filterMap fun key =>
    if operator.touched (staged key) then some ⟨key, operator.save (staged key)⟩ else none

variable [Inhabited V]

/-- The slot of a key. -/
def slotOf (slots : List (StateKey × V)) (key : StateKey) : V := (slots.lookup key).getD default

/-- A batch: the slots are loaded, the rows are worked on, the touched slots are written. -/
def process (store : Store) (rows : List R) : Except StateError (Store × List E) := do
  let keys := keysOf operator.key rows
  let slots ← keys.mapM fun key => do .ok (key, ← operator.load (store.get key))
  let (staged, events) ← stage (fun entry : R × Nat => operator.key entry.1) operator.step
    (slotOf slots) rows.zipIdx
  .ok (store.writeBatch (operator.mutations staged keys), events)

/-- A sequence of batches: the final state and everything that was emitted. -/
def processBatches (store : Store) : List (List R) → Except StateError (Store × List E)
  | [] => .ok (store, [])
  | rows :: batches => do
    let (store, events) ← operator.process store rows
    let (store, rest) ← processBatches store batches
    .ok (store, events ++ rest)

/-! ## The parts of a batch -/

omit [Inhabited V] in
/-- The state of a key after a batch: that of its copy, if the batch has touched it. -/
theorem get_writeBatch_mutations (store : Store) (staged : StateKey → V) (keys : List StateKey)
    (key : StateKey) :
    (store.writeBatch (operator.mutations staged keys)).get key =
      if key ∈ keys ∧ operator.touched (staged key) = true then operator.save (staged key)
      else store.get key :=
  Store.get_writeBatch_filterMap

theorem slotOf_map (slot : StateKey → V) {keys : List StateKey} {key : StateKey} (h : key ∈ keys) :
    slotOf (keys.map fun k => (k, slot k)) key = slot key := by
  rw [slotOf, lookup_map, if_pos h]
  rfl

variable {store : Store} {rows : List R}

theorem process_of_stage {slot staged : StateKey → V} {events : List E}
    (hload : ∀ key ∈ keysOf operator.key rows, operator.load (store.get key) = .ok (slot key))
    (hstage : stage (fun entry : R × Nat => operator.key entry.1) operator.step
      (slotOf ((keysOf operator.key rows).map fun key => (key, slot key))) rows.zipIdx =
        .ok (staged, events)) :
    operator.process store rows =
      .ok (store.writeBatch (operator.mutations staged (keysOf operator.key rows)), events) := by
  have hslots : ((keysOf operator.key rows).mapM fun key => do
      Except.ok (key, ← operator.load (store.get key)) : Except StateError (List (StateKey × V))) =
      .ok ((keysOf operator.key rows).map fun key => (key, slot key)) :=
    Except.mapM_of_ok fun key hkey => by rw [hload key hkey]; rfl
  rw [process, hslots, Except.ok_bind, hstage]
  rfl

/-! ## Row by row -/

/-- What a machine has to do with the operator: its states are what the store holds, `repr` says
how, and a copy `Stands` for a state.  Only `good` states are stored and only `valid` rows come
in. -/
structure Refines (operator : RowOperator R E V) (M : Machine StateKey R E A)
    (repr : A → Option Bytes) (good : A → Prop) (valid : R → Prop) (Stands : V → A → Prop) :
    Prop where
  key : M.key = operator.key
  load {a : A} : good a →
    ∃ v, operator.load (repr a) = .ok v ∧ Stands v a ∧ operator.touched v = false
  step {v : V} {a : A} {r : R} {n : Nat} : valid r → n < 2 ^ 31 → Stands v a →
    ∃ v', operator.step v (r, n) = .ok (v', (M.step a r).2) ∧ Stands v' (M.step a r).1 ∧
      (operator.touched v' = false → operator.touched v = false ∧ (M.step a r).1 = a)
  save {v : V} {a : A} : Stands v a → operator.touched v = true → operator.save v = repr a
  good {v : V} {a : A} : Stands v a → good a

/-- The store holds the states of all keys. -/
def Holds (repr : A → Option Bytes) (good : A → Prop) (store : Store)
    (view : StateKey → A) : Prop :=
  ∀ key, store.get key = repr (view key) ∧ good (view key)

variable {repr : A → Option Bytes} {good : A → Prop} {view : StateKey → A}

omit [Inhabited V] in
theorem Holds.unique {store store' : Store}
    (h : Holds repr good store view) (h' : Holds repr good store' view) :
    store = store' :=
  Store.ext_get fun key => (h key).1.trans (h' key).1.symm

variable {operator} {M : Machine StateKey R E A} {valid : R → Prop} {Stands : V → A → Prop}

/-- A batch emits what the machine emits and stores its states. -/
theorem process_ok (h : Refines operator M repr good valid Stands)
    (hstore : Holds repr good store view)
    (hvalid : ∀ r ∈ rows, valid r) (hlength : rows.length ≤ 2 ^ 31) :
    ∃ store', operator.process store rows = .ok (store', (M.run view rows).2) ∧
      Holds repr good store' (M.run view rows).1 := by
  choose slot hslot using fun key => h.load (hstore key).2
  have hload : ∀ key ∈ keysOf operator.key rows, operator.load (store.get key) =
      .ok (slot key) := by
    intro key _
    rw [(hstore key).1]
    exact (hslot key).1
  obtain ⟨staged, hstage, hfinal⟩ := stage_simulates (M.comap Prod.fst) operator.step
    (fun key rest v a => (∀ entry ∈ rest, valid entry.1 ∧ entry.2 < 2 ^ 31) ∧ Stands v a ∧
      (operator.touched v = false → a = view key))
    (· ∈ keysOf operator.key rows)
    (fun entry rest v a hsim => by
      obtain ⟨hentries, hstands, huntouched⟩ := hsim
      obtain ⟨hentry, hrest⟩ := forall_mem_cons.mp hentries
      obtain ⟨v', hv', hstands', hkeep⟩ := h.step hentry.1 hentry.2 hstands
      refine ⟨v', hv', hrest, hstands', fun ht => ?_⟩
      obtain ⟨htv, hsame⟩ := hkeep ht
      exact hsame.trans (huntouched htv))
    rows.zipIdx
    (fun entry hentry =>
      mem_keysOf.mpr ⟨entry.1, fst_mem_of_mem_zipIdx hentry, congrFun h.key.symm _⟩)
    (slotOf ((keysOf operator.key rows).map fun key => (key, slot key))) view
    (fun key hkey => by
      rw [slotOf_map slot hkey]
      refine ⟨fun entry hentry => ?_, (hslot key).2.1, fun _ => rfl⟩
      have hmem := (mem_rowsOf.mp hentry).1
      have hlt := snd_lt_of_mem_zipIdx hmem
      exact ⟨hvalid _ (fst_mem_of_mem_zipIdx hmem), by omega⟩)
  rw [Machine.run_comap, zipIdx_map_fst] at hstage hfinal
  have hkeys : (M.comap (Prod.fst : R × Nat → R)).key = fun entry => operator.key entry.1 := by
    rw [← h.key]
    rfl
  rw [hkeys] at hstage
  refine ⟨_, operator.process_of_stage hload hstage, fun key => ?_⟩
  rw [operator.get_writeBatch_mutations]
  by_cases hkey : key ∈ keysOf operator.key rows
  · obtain ⟨-, hstands, huntouched⟩ := hfinal key hkey
    refine ⟨?_, h.good hstands⟩
    rcases ht : operator.touched (staged key) with _ | _
    · rw [if_neg (by simp), huntouched ht, (hstore key).1]
    · rw [if_pos ⟨hkey, rfl⟩, h.save hstands ht]
  · have hnone : rowsOf M.key key rows = [] := by
      rw [h.key]
      exact rowsOf_eq_nil hkey
    rw [if_neg (fun hin => hkey hin.1), Machine.run_fst_apply, hnone, Machine.fold_nil]
    exact hstore key

variable {batches : List (List R)}

section

variable (h : Refines operator M repr good valid Stands) (hstore : Holds repr good store view)
  (hvalid : ∀ r ∈ batches.flatten, valid r)
include h hstore hvalid

/-- **Batch cuts.**  A sequence of batches is the run of all their rows, and leaves what that run
leaves. -/
theorem processBatches_ok (hlength : ∀ rows ∈ batches, rows.length ≤ 2 ^ 31) :
    ∃ store', operator.processBatches store batches = .ok (store', (M.run view batches.flatten).2) ∧
      Holds repr good store' (M.run view batches.flatten).1 := by
  induction batches generalizing store view with
  | nil => exact ⟨store, rfl, hstore⟩
  | cons rows batches ih =>
    obtain ⟨hrows, hrest⟩ := forall_mem_cons.mp hlength
    rw [flatten_cons] at hvalid ⊢
    obtain ⟨middle, hfirst, hmiddle⟩ :=
      process_ok h hstore (fun r hr => hvalid r (mem_append_left _ hr)) hrows
    obtain ⟨final, hthen, hfinal⟩ :=
      ih hmiddle (fun r hr => hvalid r (mem_append_right _ hr)) hrest
    rw [Machine.run_append]
    refine ⟨final, ?_, hfinal⟩
    rw [processBatches, hfirst, Except.ok_bind]
    dsimp only
    rw [hthen]
    rfl

/-- Rows that come in one batch or in several leave the same store and emit the same. -/
theorem batch_cuts (hlength : batches.flatten.length ≤ 2 ^ 31) :
    ∃ final events, operator.process store batches.flatten = .ok (final, events) ∧
      operator.processBatches store batches = .ok (final, events) := by
  have hrows : ∀ rows ∈ batches, rows.length ≤ 2 ^ 31 := fun rows hrows =>
    (sublist_flatten_of_mem hrows).length_le.trans hlength
  obtain ⟨whole, hwhole, hwholeStore⟩ := process_ok h hstore hvalid hlength
  obtain ⟨cut, hcut, hcutStore⟩ := processBatches_ok h hstore hvalid hrows
  rw [hwholeStore.unique hcutStore] at hwhole
  exact ⟨cut, _, hwhole, hcut⟩

end

end RowOperator

end StreamFusion.State
