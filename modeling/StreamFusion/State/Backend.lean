import StreamFusion.Lib.Outcome
import StreamFusion.Lib.SortedEntries
import StreamFusion.State.Snapshot

/-!
# Keyed state: keys, mutations and the map they denote

A subtask owns a range of key groups; inside a group a key is a byte string and so is its value.  A
backend is written in batches of mutations and is asked for values, prefix scans and snapshots.  The
backends share the request types, the errors, the memory broker, and `StateMap`, the map that a
history of mutations denotes when they are applied one by one and the last write wins.

Every operation asks the host for memory before it allocates.  How many bytes it asks for is not
modelled; what the host answers is an arbitrary `Admission`, one answer for each request of the
operation.
-/

namespace StreamFusion.State

open Wire

/-- A key within its key group. -/
structure StateKey where
  keyGroup : UInt32
  key : Bytes
  deriving DecidableEq, Repr

/-- A put, or a deletion if there is no value. -/
structure StateMutation where
  key : StateKey
  value : Option Bytes
  deriving DecidableEq, Repr

/-- The errors of the state backends. -/
inductive StateError where
  | execution (message : String)
  | internal (message : String)
  | plan (message : String)
  | resourcesExhausted (message : String)
  /-- The host refused a memory request. -/
  | denied
  | panic (message : String)
  deriving DecidableEq, Repr

/-- The host's answers to the memory requests of one operation, in order. -/
def Admission : Type := Nat → Bool

namespace Admission

/-- Grants every request. -/
def all : Admission := fun _ => true

/-- Asks the host for memory. -/
def request (admission : Admission) (n : Nat) : Except StateError Unit :=
  if admission n then .ok () else .error .denied

/-- The answers after the first `k` ones. -/
def drop (admission : Admission) (k : Nat) : Admission := fun n => admission (n + k)

@[simp] theorem drop_all (k : Nat) : all.drop k = all := rfl

@[simp] theorem request_all (n : Nat) : all.request n = .ok () := rfl

end Admission

/-- The error of a group that the subtask does not own. -/
def notOwned (keyGroup : UInt32) : StateError :=
  .execution ("key group " ++ toString keyGroup ++ " is not owned by this subtask")

/-- The position of a key group among the `count` groups that start at `first`. -/
def groupIndex (first : UInt32) (count : Nat) (keyGroup : UInt32) : Except StateError Nat :=
  if first.toNat ≤ keyGroup.toNat ∧ keyGroup.toNat - first.toNat < count then
    .ok (keyGroup.toNat - first.toNat)
  else
    .error (notOwned keyGroup)

variable {first keyGroup : UInt32} {count i : Nat}

/-- The index of an owned group. -/
theorem groupIndex_eq_ok : groupIndex first count keyGroup = .ok i ↔
      i < count ∧ keyGroup.toNat = first.toNat + i := by
  unfold groupIndex
  split
  · simp only [Except.ok.injEq]
    omega
  · simp only [reduceCtorEq, false_iff]
    omega

/-- Two owned groups with the same position are the same group. -/
theorem groupIndex_injective {g g' : UInt32}
    (h : groupIndex first count g = .ok i) (h' : groupIndex first count g' = .ok i) : g = g' :=
  UInt32.toNat_inj.mp ((groupIndex_eq_ok.mp h).2.trans (groupIndex_eq_ok.mp h').2.symm)

/-- The first pass of a write: every mutation must be in an owned group. -/
def checkOwned (first : UInt32) (count : Nat) : List StateMutation → Except StateError Unit
  | [] => .ok ()
  | mutation :: mutations => do
    let _ ← groupIndex first count mutation.key.keyGroup
    checkOwned first count mutations

theorem checkOwned_eq_ok {mutations : List StateMutation} :
    checkOwned first count mutations = .ok () ↔
      ∀ m ∈ mutations, ∃ i, groupIndex first count m.key.keyGroup = .ok i := by
  induction mutations with
  | nil => simp [checkOwned]
  | cons m ms ih => simp [checkOwned, Except.bind_eq_ok, ih]

/-- A batched read: the answers in the order of the keys, or the first error. -/
def lookupAll (lookup : StateKey → Except StateError (Option Bytes)) :
    List StateKey → Except StateError (List (Option Bytes))
  | [] => .ok []
  | key :: keys => do
    let value ← lookup key
    let values ← lookupAll lookup keys
    return value :: values

theorem lookupAll_of_ok {lookup : StateKey → Except StateError (Option Bytes)}
    {answer : StateKey → Option Bytes} {keys : List StateKey}
    (h : ∀ key ∈ keys, lookup key = .ok (answer key)) :
    lookupAll lookup keys = .ok (keys.map answer) := by
  induction keys with
  | nil => rfl
  | cons key keys ih =>
    obtain ⟨hkey, hkeys⟩ := List.forall_mem_cons.mp h
    simp [lookupAll, hkey, ih hkeys]

/-- The least byte string above every byte string that starts with `start`, if there is one. -/
def prefixEnd (start : Bytes) : Option Bytes :=
  match (start.reverse.dropWhile (· == 255)) with
  | [] => none
  | last :: front => some (front.reverse ++ [last + 1])

/-- A visitor of a scan that always wants to see more. -/
def keepGoing {σ : Type} (visitor : List (Bytes × Bytes) → Op StateError σ Unit) :
    List (Bytes × Bytes) → Op StateError σ Bool := fun page => do
  visitor page
  pure true

theorem keepGoing_bind {σ α : Type} {visitor : List (Bytes × Bytes) → Op StateError σ Unit}
    (page : List (Bytes × Bytes)) (next : Bool → Op StateError σ α) :
    (keepGoing visitor page >>= next) = (do visitor page; next true) := by
  simp [keepGoing]

/-! ## The map of a history -/

/-- The contents of a backend: a value for every group and key that has one. -/
abbrev StateMap := UInt32 → Bytes → Option Bytes

namespace StateMap

/-- Nothing is stored. -/
def empty : StateMap := fun _ _ => none

/-- One mutation; what was there before is forgotten. -/
def apply (map : StateMap) (mutation : StateMutation) : StateMap := fun g k =>
  if g = mutation.key.keyGroup ∧ k = mutation.key.key then mutation.value else map g k

/-- Applies mutations one after the other. -/
def applyAll (map : StateMap) (mutations : List StateMutation) : StateMap :=
  mutations.foldl apply map

@[simp] theorem applyAll_cons (map : StateMap) (m : StateMutation) (ms : List StateMutation) :
    map.applyAll (m :: ms) = (map.apply m).applyAll ms := rfl

theorem applyAll_append (map : StateMap) (ms ms' : List StateMutation) :
    map.applyAll (ms ++ ms') = (map.applyAll ms).applyAll ms' :=
  List.foldl_append

theorem apply_of_ne {map : StateMap} {m : StateMutation} {g : UInt32} {k : Bytes}
    (h : g ≠ m.key.keyGroup ∨ k ≠ m.key.key) : map.apply m g k = map g k := by
  rw [apply, if_neg]
  tauto

end StateMap

/-! ## The snapshot of a group -/

/-- The canonical frame of a group with the contents `contents`: its entries in key order.  A group
that breaks a limit of the format has none. -/
def CanonicalSnapshot (contents : Bytes → Option Bytes) (keyGroup : UInt32)
    (frame : Bytes) : Prop :=
  ∃ entries, SortedEntries.Lists contents entries ∧ Snapshot.Fits entries ∧
    Snapshot.frameSize entries < usizeLimit ∧ frame = Snapshot.frame keyGroup entries

theorem CanonicalSnapshot.unique {contents : Bytes → Option Bytes}
    {frame frame' : Bytes} (h : CanonicalSnapshot contents keyGroup frame)
    (h' : CanonicalSnapshot contents keyGroup frame') : frame = frame' := by
  obtain ⟨entries, hl, -, -, rfl⟩ := h
  obtain ⟨entries', hl', -, -, rfl⟩ := h'
  rw [hl.unique hl']

/-- An error of the snapshot writer, as the backends report it. -/
def snapshotError (error : Snapshot.SnapshotError) : StateError := .execution error.message

theorem mapError_eq_ok {α ε ε' : Type} {f : ε → ε'} {x : Except ε α} {a : α} :
    x.mapError f = .ok a ↔ x = .ok a := by
  cases x <;> simp [Except.mapError]

end StreamFusion.State
