import Mathlib

/-!
# Chained hash tables

A hash map in the style of the Java library: a power of two of buckets, each a chain in the order of
insertion, and a table of twice the size, in which every chain is split in order, as soon as more
than three quarters of the buckets would be taken.  Iteration goes over the buckets and along the
chains. The Java library also doubles a table of fewer than 64 buckets when one chain gets its ninth
key, and turns such a chain of a larger table into a tree; both are left out.

What the table has become by all these splits is what one distribution of the keys over the final
table gives (`buckets_puts`), so that iterating is sorting by the final bucket, stably
(`Holds.iterate`).
-/

namespace ChainedTable

open List

variable {K : Type}

/-- The chains and the number of keys. -/
structure Table (K : Type) where
  buckets : List (List K)
  size : Nat

/-- A new table. -/
def Table.empty : Table K := ⟨List.replicate 16 [], 0⟩

/-- The keys in the order of iteration. -/
def Table.iterate (table : Table K) : List K := table.buckets.flatten

variable (spread : K → Nat)

/-- The chains of a table of twice the size.  A key stays or moves up by the old size. -/
def resize (buckets : List (List K)) : List (List K) :=
  buckets.map (List.filter fun key => spread key &&& buckets.length = 0) ++
    buckets.map (List.filter fun key => spread key &&& buckets.length ≠ 0)

/-- Adds a key, once. -/
def Table.put [DecidableEq K] (table : Table K) (key : K) : Table K :=
  let bucket := spread key &&& (table.buckets.length - 1)
  if key ∈ table.buckets.getD bucket [] then
    table
  else
    let buckets := table.buckets.modify bucket (· ++ [key])
    if buckets.length * 3 / 4 < table.size + 1 then ⟨resize spread buckets, table.size + 1⟩
    else ⟨buckets, table.size + 1⟩

/-! ## Distributing keys -/

/-- The keys over `2 ^ m` buckets. -/
def distribute (m : Nat) (keys : List K) : List (List K) :=
  (List.range (2 ^ m)).map fun i => keys.filter fun key => spread key % 2 ^ m = i

variable {spread} {m : Nat} {keys : List K}

theorem length_distribute : (distribute spread m keys).length = 2 ^ m := by simp [distribute]

theorem distribute_nil : distribute spread m [] = List.replicate (2 ^ m) [] := by
  simp [distribute, map_const']

/-- Splitting every chain distributes the keys over the larger table. -/
theorem resize_distribute : resize spread (distribute spread m keys) = distribute spread
    (m + 1) keys := by
  have hbit : ∀ key, spread key % 2 ^ (m + 1) =
      spread key % 2 ^ m + 2 ^ m * ((spread key).testBit m).toNat :=
    fun key => by rw [Nat.mod_pow_succ, Nat.toNat_testBit]
  have hlow : ∀ key, spread key % 2 ^ m < 2 ^ m := fun key => Nat.mod_lt _ (by positivity)
  rw [resize, length_distribute, distribute, distribute, pow_succ, mul_two, range_add, map_append,
    map_map, map_map, map_map]
  refine congrArg₂ (· ++ ·) (map_congr_left fun i hi => ?_) (map_congr_left fun i hi => ?_)
  all_goals
    have hi := mem_range.mp hi
    rw [Function.comp_apply, filter_filter]
    refine filter_congr fun key _ => ?_
    have hlow := hlow key
    rw [← mul_two, ← pow_succ, hbit key, Nat.and_two_pow]
    cases (spread key).testBit m <;> simp <;> omega

theorem modify_distribute {key : K} : (distribute spread m keys).modify
    (spread key % 2 ^ m) (· ++ [key]) =
    distribute spread m (keys ++ [key]) := by
  refine ext_getElem? fun i => ?_
  rw [List.getElem?_modify]
  by_cases hi : i < 2 ^ m
  · simp only [distribute, List.getElem?_map, List.getElem?_range hi,
      Option.map_some, filter_append]
    by_cases hkey : spread key % 2 ^ m = i
    · simp [hkey]
    · simp [hkey]
  · simp [distribute, hi]

/-! ## Inserting keys -/

/-- The table of the keys: the smallest that is not filled too far. -/
structure Holds (spread : K → Nat) (m : Nat) (keys : List K) (table : Table K) : Prop where
  buckets : table.buckets = distribute spread m keys
  size : table.size = keys.length
  room : keys.length ≤ 2 ^ m * 3 / 4
  needed : m = 4 ∨ 4 < m ∧ 2 ^ (m - 1) * 3 / 4 < keys.length

variable [DecidableEq K] {table : Table K}

/-- A table with a new key is the table of its keys. -/
theorem Holds.put (h : Holds spread m keys table) {key : K} (hkey : key ∉ keys) :
    ∃ m', Holds spread m' (keys ++ [key]) (table.put spread key) := by
  have hm : 4 ≤ m := by
    rcases h.needed with hm | hm <;> omega
  have hbucket : spread key &&& (table.buckets.length - 1) = spread key % 2 ^ m := by
    rw [h.buckets, length_distribute, Nat.and_two_pow_sub_one_eq_mod]
  have hnew : key ∉ table.buckets.getD (spread key % 2 ^ m) [] := by
    rw [h.buckets, distribute, getD_eq_getElem?_getD, List.getElem?_map,
      List.getElem?_range (Nat.mod_lt _ (by positivity))]
    exact fun hmem => hkey (mem_of_mem_filter hmem)
  unfold Table.put
  dsimp only
  rw [hbucket, if_neg hnew, h.buckets, modify_distribute, length_distribute, h.size]
  have hpow : 2 ^ m = 16 * 2 ^ (m - 4) := by
    rw [show m = 4 + (m - 4) by omega, pow_add]
    simp
  by_cases hfull : 2 ^ m * 3 / 4 < keys.length + 1
  · rw [if_pos hfull]
    refine ⟨m + 1, resize_distribute, by simp, ?_, Or.inr ⟨by omega, ?_⟩⟩
    · have hroom := h.room
      rw [length_append, length_singleton, pow_succ]
      omega
    · rw [length_append]
      exact hfull
  · rw [if_neg hfull]
    refine ⟨m, rfl, by simp, ?_, h.needed.imp_right fun hn => ⟨hn.1, ?_⟩⟩
    · rw [length_append]
      exact not_lt.mp hfull
    · rw [length_append]
      exact Nat.lt_add_right _ hn.2

/-- New keys go in one after the other. -/
theorem Holds.puts (h : Holds spread m keys table) {rest : List K} (hnodup : (keys ++ rest).Nodup) :
    ∃ m', Holds spread m' (keys ++ rest) (rest.foldl (Table.put spread) table) := by
  induction rest generalizing keys table m with
  | nil => exact ⟨m, by simpa using h⟩
  | cons key rest ih =>
    have hkey : key ∉ keys := fun hmem =>
      (disjoint_of_nodup_append hnodup) hmem mem_cons_self
    obtain ⟨m', hput⟩ := h.put hkey
    have hcons : keys ++ key :: rest = keys ++ [key] ++ rest := by simp
    rw [hcons] at hnodup ⊢
    exact ih hput hnodup

/-- **The table of a sequence of distinct keys.** -/
theorem buckets_puts (hnodup : keys.Nodup) :
    ∃ m, Holds spread m keys (keys.foldl (Table.put spread) Table.empty) := by
  have hempty : Holds spread 4 [] (Table.empty : Table K) :=
    ⟨(@distribute_nil K spread 4).symm, rfl, by simp, Or.inl rfl⟩
  exact hempty.puts hnodup

/-! ## Iterating -/

omit [DecidableEq K] in
/-- A list in the order of its buckets is its buckets, one after the other. -/
theorem flatMap_filter_eq {f : K → Nat} {l : List K}
    (hsorted : l.Pairwise fun a b => f a ≤ f b) {c : Nat}
    (hbound : ∀ a ∈ l, f a < c) :
        ((List.range c).flatMap fun i => l.filter fun a => f a = i) = l := by
  induction c generalizing l with
  | zero => simp [eq_nil_iff_forall_not_mem.mpr fun a ha => absurd (hbound a ha) (by omega)]
  | succ c ih =>
    have hsplit : ∀ {l : List K}, l.Pairwise (fun a b => f a ≤ f b) → (∀ a ∈ l, f a < c + 1) →
        l.filter (fun a => f a < c) ++ l.filter (fun a => f a = c) = l := by
      intro l hsorted hbound
      induction l with
      | nil => rfl
      | cons a l ihl =>
        obtain ⟨hfirst, hsorted⟩ := pairwise_cons.mp hsorted
        obtain ⟨ha, hbound⟩ := forall_mem_cons.mp hbound
        by_cases hlow : f a < c
        · simp [hlow, hlow.ne, ihl hsorted hbound]
        · have hnone : l.filter (fun b => f b < c) = [] := filter_eq_nil_iff.mpr fun b hb => by
            have := hfirst b hb
            simp only [decide_eq_true_eq]
            omega
          have hall : l.filter (fun b => f b = c) = l := filter_eq_self.mpr fun b hb => by
            have := hfirst b hb
            have := hbound b hb
            simp only [decide_eq_true_eq]
            omega
          simp [hnone, hall, show f a = c by omega]
    have hlow :=
      ih (hsorted.filter fun a => f a < c) (fun a ha => by simpa using (mem_filter.mp ha).2)
    rw [range_succ, flatMap_append, flatMap_singleton]
    conv_rhs => rw [← hsplit hsorted hbound, ← hlow]
    congr 1
    refine flatMap_congr fun i hi => ?_
    have hi := mem_range.mp hi
    rw [filter_filter]
    refine filter_congr fun a _ => ?_
    by_cases h : f a = i
    · simp [h, hi]
    · simp [h]

omit [DecidableEq K] in
/-- A stable sort keeps the order within a bucket. -/
theorem filter_mergeSort (f : K → Nat) (l : List K) (i : Nat) :
    (l.mergeSort fun a b => f a ≤ f b).filter (fun a => f a = i) = l.filter fun a => f a = i := by
  have hpair : (l.filter fun a => f a = i).Pairwise fun a b => decide (f a ≤ f b) = true := by
    refine pairwise_of_forall_mem_list fun a ha b hb => ?_
    have ha := (mem_filter.mp ha).2
    have hb := (mem_filter.mp hb).2
    simp only [decide_eq_true_eq] at *
    omega
  have hsub := (sublist_mergeSort (fun a b c => by simpa using Nat.le_trans)
    (fun a b => by simpa using Nat.le_total _ _) hpair filter_sublist).filter fun a => f a = i
  simp only [filter_filter, Bool.and_self] at hsub
  exact (hsub.eq_of_length ((mergeSort_perm l _).symm.filter _).length_eq).symm

omit [DecidableEq K] in
/-- **Iteration.**  The keys come in the order of their buckets in the final table, and in a bucket
in the order of their insertion. -/
theorem Holds.iterate (h : Holds spread m keys table) :
    table.iterate = keys.mergeSort fun a b => spread a % 2 ^ m ≤ spread b % 2 ^ m := by
  have hsorted : (keys.mergeSort fun a b => spread a % 2 ^ m ≤ spread b % 2 ^ m).Pairwise
      fun a b => decide (spread a % 2 ^ m ≤ spread b % 2 ^ m) = true :=
    pairwise_mergeSort (fun a b c => by simpa using Nat.le_trans)
      (fun a b => by simpa using Nat.le_total _ _) keys
  rw [Table.iterate, h.buckets, distribute, ← flatMap_def,
    ← flatMap_filter_eq (hsorted.imp of_decide_eq_true) fun a _ => Nat.mod_lt _ (by positivity)]
  refine flatMap_congr fun i _ => ?_
  exact (filter_mergeSort (fun key => spread key % 2 ^ m) keys i).symm

end ChainedTable
