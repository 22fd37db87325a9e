import StreamFusion.Lib.ChainedTable
import StreamFusion.Aggregate.MiniBatch.Model

/-!
# The order of a flush

Flink keeps the groups of a bundle in a Java hash map and flushes them in its iteration order.  The
source computes that order from the number of the groups and their hash codes.
-/

namespace StreamFusion.Aggregate

open Wire State ChainedTable

/-- A hash code as the hash map uses it. -/
def spreadHash (hash : UInt32) : Nat := (hash ^^^ (hash >>> 16)).toNat

variable {m n : Nat}

theorem hashmapCapacity_eq {fuel a : Nat} (hle : a ≤ m) (hfuel : m - a ≤ fuel)
    (hroom : n ≤ 2 ^ m * 3 / 4)
    (hneeded : ∀ j, a ≤ j → j < m → 2 ^ j * 3 / 4 < n) :
        hashmapCapacity fuel (2 ^ a) n = 2 ^ m := by
  induction fuel generalizing a with
  | zero => rw [hashmapCapacity, show a = m by omega]
  | succ fuel ih =>
    rw [hashmapCapacity]
    by_cases ha : a = m
    · rw [ha, if_neg (not_lt.mpr hroom)]
    · rw [if_pos (hneeded a (le_refl a) (by omega)), ← pow_succ]
      exact ih (by omega) (by omega) fun j hj => hneeded j (by omega)

/-- The capacity is the size of the final table. -/
theorem hashmapCapacity_of_holds {K : Type} {spread : K → Nat} {keys : List K} {table : Table K}
    (h : Holds spread m keys table) (hlength : keys.length < 2 ^ 62) :
    hashmapCapacity 60 16 keys.length = 2 ^ m := by
  refine @hashmapCapacity_eq m keys.length 60 4 ?_ ?_ h.room fun j hj hjm => ?_
  · rcases h.needed with hm | hm <;> omega
  · rcases h.needed with hm | ⟨-, hm⟩
    · omega
    · by_contra hlarge
      have hpow : 2 ^ 64 ≤ 2 ^ (m - 1) := Nat.pow_le_pow_right (by omega) (by omega)
      omega
  · rcases h.needed with hm | ⟨-, hm⟩
    · omega
    · have hpow : 2 ^ j ≤ 2 ^ (m - 1) := Nat.pow_le_pow_right (by omega) (by omega)
      omega

/-- **The order of a flush.**  Distinct keys are put in the order in which a Java hash map, into
which they were inserted one by one, iterates over them.  A slice of keys is never longer than
assumed. -/
theorem sort_flink_hashmap_keys_iterates (hash : Bytes → UInt32) (keys : List StateKey)
    (hnodup : keys.Nodup) (hlength : keys.length < 2 ^ 62) :
    sortFlinkHashmapKeys hash keys =
      (keys.foldl (Table.put fun key => spreadHash (hash key.key)) Table.empty).iterate := by
  obtain ⟨m, h⟩ := @buckets_puts _ (fun key => spreadHash (hash key.key)) _ _ hnodup
  rw [h.iterate, sortFlinkHashmapKeys]
  by_cases hshort : keys.length < 2
  · rw [if_pos hshort, List.mergeSort_of_pairwise]
    match keys, hshort with
    | [], _ => exact .nil
    | [_], _ => exact List.pairwise_singleton ..
  · rw [if_neg hshort, hashmapCapacity_of_holds h hlength]
    simp only [hashmapBucket, Nat.and_two_pow_sub_one_eq_mod]
    rfl

/-- Two keys in one bucket and one in a bucket before. -/
theorem sort_flink_hashmap_keys_iterates_three :
    sortFlinkHashmapKeys (fun key => key.length.toUInt32) [⟨0, [1, 2]⟩, ⟨0, [3]⟩, ⟨0, [4, 5]⟩] =
      [⟨0, [3]⟩, ⟨0, [1, 2]⟩, ⟨0, [4, 5]⟩] :=
  (sort_flink_hashmap_keys_iterates _ _ (by decide) (by decide)).trans (by decide)

end StreamFusion.Aggregate
