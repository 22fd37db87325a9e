import Mathlib

/-!
# Tables addressed by caller-supplied hashes

A raw hash table stores values under hashes that its caller computes; it knows neither a key type
nor a hash function.  Its documented behaviour is small: a lookup under the hash of a value finds a
stored value that satisfies the caller's equality, if there is one; growing the table may move every
value; and iteration visits each stored value once, in an order nobody may rely on.

`HashTable α` is this interface with exactly these facts, so what is proved of a `HashTable` holds
for every implementation.  The caller's obligation, that a value is stored and looked up under one
hash function, is the predicate `Hashed`.
-/

/-- A hash table with explicit hashes, and its documented behaviour. -/
structure HashTable (α : Type) where
  Table : Type
  empty : Table
  iter : Table → List α
  reserve : Table → Nat → (α → UInt64) → Table
  find : Table → UInt64 → (α → Bool) → Option α
  insertUnique : Table → UInt64 → α → (α → UInt64) → Table
  /-- Overwrites the value a lookup finds. -/
  update : Table → UInt64 → (α → Bool) → (α → α) → Table
  /-- Removes the value a lookup finds. -/
  remove : Table → UInt64 → (α → Bool) → Table
  /-- Every value is stored under its hash. -/
  Hashed : (α → UInt64) → Table → Prop
  iter_empty : iter empty = []
  hashed_empty : ∀ h, Hashed h empty
  iter_reserve : ∀ {h t n}, Hashed h t → (iter (reserve t n h)).Perm (iter t)
  hashed_reserve : ∀ {h t n}, Hashed h t → Hashed h (reserve t n h)
  find_some : ∀ {h t hash p a}, Hashed h t → (∀ b, p b → h b = hash) →
    find t hash p = some a → a ∈ iter t ∧ p a
  find_none : ∀ {h t hash p}, Hashed h t → (∀ b, p b → h b = hash) →
    find t hash p = none → ∀ a ∈ iter t, ¬ p a
  iter_insertUnique : ∀ {h t hash a}, Hashed h t → h a = hash →
    (iter (insertUnique t hash a h)).Perm (a :: iter t)
  hashed_insertUnique : ∀ {h t hash a}, Hashed h t → h a = hash →
    Hashed h (insertUnique t hash a h)
  iter_update : ∀ {h t hash p f a}, Hashed h t → (∀ b, p b → h b = hash) →
    find t hash p = some a → h (f a) = hash →
    ∃ rest, (iter t).Perm (a :: rest) ∧ (iter (update t hash p f)).Perm (f a :: rest)
  hashed_update : ∀ {h t hash p f a}, Hashed h t → (∀ b, p b → h b = hash) →
    find t hash p = some a → h (f a) = hash → Hashed h (update t hash p f)
  iter_remove : ∀ {h t hash p a}, Hashed h t → (∀ b, p b → h b = hash) →
    find t hash p = some a → (iter t).Perm (a :: iter (remove t hash p))
  hashed_remove : ∀ {h t hash p}, Hashed h t → Hashed h (remove t hash p)
  remove_of_find_none : ∀ {t hash p}, find t hash p = none → remove t hash p = t

namespace HashTable

open List

variable {α : Type}

/-- A bucket list: values with their hashes, searched from the front. -/
abbrev Buckets (α : Type) := List (UInt64 × α)

namespace Buckets

/-- Does the lookup `hash`, `p` stop at this bucket? -/
def hits (hash : UInt64) (p : α → Bool) (bucket : UInt64 × α) : Bool :=
  bucket.1 == hash && p bucket.2

/-- Changes the first hit. -/
def update : Buckets α → UInt64 → (α → Bool) → (α → α) → Buckets α
  | [], _, _, _ => []
  | b :: bs, hash, p, f =>
    if hits hash p b then (b.1, f b.2) :: bs else b :: update bs hash p f

/-- Removes the first hit. -/
def remove : Buckets α → UInt64 → (α → Bool) → Buckets α
  | [], _, _ => []
  | b :: bs, hash, p => if hits hash p b then bs else b :: remove bs hash p

/-- The first hit. -/
def find (t : Buckets α) (hash : UInt64) (p : α → Bool) : Option α :=
  (List.find? (hits hash p) t).map Prod.snd

/-- Every entry has the hash of its value. -/
def Hashed (h : α → UInt64) (t : Buckets α) : Prop := ∀ b ∈ t, b.1 = h b.2

variable {h : α → UInt64} {b : UInt64 × α} {t : Buckets α}

theorem hashed_cons : Hashed h (b :: t) ↔ b.1 = h b.2 ∧ Hashed h t := forall_mem_cons

theorem find_cons (b : UInt64 × α) (t : Buckets α) (hash : UInt64) (p : α → Bool) :
    find (b :: t) hash p = if hits hash p b then some b.2 else find t hash p := by
  unfold find
  rw [find?_cons]
  cases hits hash p b <;> rfl

variable {hash : UInt64} {p : α → Bool} {a : α}

/-- An update replaces the entry that is found. -/
theorem update_spec {f : α → α} (ht : Hashed h t) (hfind : find t hash p = some a)
    (hf : h (f a) = hash) :
    (∃ rest, (t.map Prod.snd).Perm (a :: rest) ∧
      ((update t hash p f).map Prod.snd).Perm (f a :: rest)) ∧ Hashed h (update t hash p f) := by
  induction t with
  | nil => simp [find] at hfind
  | cons b t ih =>
    obtain ⟨hb, ht⟩ := hashed_cons.mp ht
    rw [find_cons] at hfind
    rw [update]
    split at hfind
    · rename_i hhit
      obtain rfl : b.2 = a := by simpa using hfind
      rw [if_pos hhit]
      obtain ⟨rfl, -⟩ : b.1 = hash ∧ p b.2 = true := by simpa [hits] using hhit
      exact ⟨⟨t.map Prod.snd, by simp, by simp⟩, hashed_cons.mpr ⟨hf.symm, ht⟩⟩
    · rename_i hmiss
      rw [if_neg hmiss]
      obtain ⟨⟨rest, hr, hr'⟩, hhashed⟩ := ih ht hfind
      refine ⟨⟨b.2 :: rest, ?_, ?_⟩, hashed_cons.mpr ⟨hb, hhashed⟩⟩
      · exact (hr.cons b.2).trans (List.Perm.swap _ _ _)
      · exact (hr'.cons b.2).trans (List.Perm.swap _ _ _)

theorem remove_perm (hfind : find t hash p = some a) :
    (t.map Prod.snd).Perm (a :: (remove t hash p).map Prod.snd) := by
  induction t with
  | nil => simp [find] at hfind
  | cons b t ih =>
    rw [find_cons] at hfind
    rw [remove]
    split at hfind
    · rename_i hhit
      obtain rfl : b.2 = a := by simpa using hfind
      simp [hhit]
    · rename_i hmiss
      simp only [hmiss, Bool.false_eq_true, if_false, map_cons]
      exact ((ih hfind).cons b.2).trans (List.Perm.swap _ _ _)

theorem mem_of_mem_remove (h : b ∈ remove t hash p) : b ∈ t := by
  induction t with
  | nil => exact h
  | cons c t ih =>
    rw [remove] at h
    split at h
    · exact mem_cons_of_mem _ h
    · rcases mem_cons.mp h with rfl | h
      · exact mem_cons_self
      · exact mem_cons_of_mem _ (ih h)

theorem remove_of_find_none (hfind : find t hash p = none) : remove t hash p = t := by
  induction t with
  | nil => rfl
  | cons b t ih =>
    rw [find_cons] at hfind
    rw [remove]
    split at hfind
    · cases hfind
    · rename_i hmiss
      rw [if_neg hmiss, ih hfind]

end Buckets

/-- The bucket list is a hash table; it makes models over an arbitrary table executable. -/
def buckets (α : Type) : HashTable α where
  Table := Buckets α
  empty := []
  iter t := t.map Prod.snd
  reserve t _ _ := t
  find := Buckets.find
  insertUnique t hash a _ := (hash, a) :: t
  update := Buckets.update
  remove := Buckets.remove
  Hashed := Buckets.Hashed
  iter_empty := rfl
  hashed_empty _ := by simp [Buckets.Hashed]
  iter_reserve _ := List.Perm.refl _
  hashed_reserve h := h
  find_some := by
    intro h t hash p a _ _ hfind
    obtain ⟨b, hb, rfl⟩ := Option.map_eq_some_iff.mp hfind
    have hhit := List.find?_some hb
    exact ⟨List.mem_map_of_mem (List.mem_of_find?_eq_some hb), by simp_all [Buckets.hits]⟩
  find_none := by
    intro h t hash p ht hp hfind a ha hpa
    obtain ⟨b, hb, rfl⟩ := List.mem_map.mp ha
    have hmiss := List.find?_eq_none.mp (Option.map_eq_none_iff.mp hfind) b hb
    exact hmiss (by simp [Buckets.hits, hpa, ht b hb, hp b.2 hpa])
  iter_insertUnique _ _ := List.Perm.refl _
  hashed_insertUnique ht ha := Buckets.hashed_cons.mpr ⟨ha.symm, ht⟩
  iter_update ht _ hfind hf := (Buckets.update_spec ht hfind hf).1
  hashed_update ht _ hfind hf := (Buckets.update_spec ht hfind hf).2
  iter_remove _ _ hfind := Buckets.remove_perm hfind
  hashed_remove ht b hb := ht b (Buckets.mem_of_mem_remove hb)
  remove_of_find_none := Buckets.remove_of_find_none

end HashTable
