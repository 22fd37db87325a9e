import Mathlib

/-!
# A finite map listed in key order

A partial function with finitely many bindings has at most one listing in strictly increasing key
order.  That is why two containers with nothing in common but their contents can be written out
identically: `Lists f l` says that `l` is the listing of `f`, `Lists.unique` that there is no other,
and the remaining lemmas produce the listing from an ordered map and from an unordered collection of
bindings that is sorted after the fact.
-/

namespace SortedEntries

/-- Lists in the order of an asymmetric relation are determined by their elements. -/
theorem eq_of_pairwise {α : Type} {r : α → α → Prop} (hr : ∀ {a b}, r a b → ¬ r b a) {l l' : List α}
    (hl : l.Pairwise r) (hl' : l'.Pairwise r) (h : ∀ a, a ∈ l ↔ a ∈ l') : l = l' := by
  have hnodup : ∀ {l : List α}, l.Pairwise r → l.Nodup := by
    intro l hl
    refine hl.imp ?_
    rintro a _ haa rfl
    exact hr haa haa
  exact List.Perm.eq_of_pairwise (fun _ _ _ _ hab hba => absurd hba (hr hab)) hl hl'
    ((List.perm_ext_iff_of_nodup (hnodup hl) (hnodup hl')).mpr h)

variable {K V : Type} [Ord K]

/-- `l` lists the bindings of `f`, each once, in increasing key order. -/
structure Lists (f : K → Option V) (l : List (K × V)) : Prop where
  sorted : l.Pairwise fun a b => compare a.1 b.1 = .lt
  mem_iff : ∀ k v, (k, v) ∈ l ↔ f k = some v

/-- Sorts entries by their keys. -/
def sortByKey (l : List (K × V)) : List (K × V) :=
  l.mergeSort fun a b => (compare a.1 b.1).isLE

theorem sortByKey_perm (l : List (K × V)) : (sortByKey l).Perm l :=
  List.mergeSort_perm _ _

variable {f : K → Option V} {l : List (K × V)}

/-- **There is only one listing.** -/
theorem Lists.unique [Std.TransOrd K] {l' : List (K × V)} (h : Lists f l)
    (h' : Lists f l') : l = l' := by
  refine eq_of_pairwise Std.OrientedCmp.not_lt_of_lt h.sorted h'.sorted ?_
  rintro ⟨k, v⟩
  rw [h.mem_iff, h'.mem_iff]

variable [Std.LawfulEqOrd K]

theorem nodup_keys (h : l.Pairwise fun a b => compare a.1 b.1 = .lt) : (l.map Prod.fst).Nodup := by
  refine List.pairwise_map.mpr (h.imp ?_)
  intro a b hlt heq
  simp [heq, Std.ReflCmp.compare_self] at hlt

variable [Std.TransOrd K]

theorem lists_toList (t : Std.ExtTreeMap K V) : Lists (fun k => t[k]?) t.toList :=
  ⟨Std.ExtTreeMap.ordered_keys_toList, fun _ _ => Std.ExtTreeMap.mem_toList_iff_getElem?_eq_some⟩

/-- Sorting an unordered collection of bindings with distinct keys gives the listing. -/
theorem lists_sortByKey (hnodup : (l.map Prod.fst).Nodup)
    (hmem : ∀ k v, (k, v) ∈ l ↔ f k = some v) : Lists f (sortByKey l) := by
  refine ⟨?_, fun k v => (sortByKey_perm l).mem_iff.trans (hmem k v)⟩
  have hle : (sortByKey l).Pairwise fun a b => (compare a.1 b.1).isLE := by
    refine List.pairwise_mergeSort ?_ ?_ l
    · intro a b c hab hbc
      exact Std.TransCmp.isLE_trans hab hbc
    · intro a b
      rcases h : compare a.1 b.1 with _ | _ | _
      · rfl
      · rfl
      · simp [Std.OrientedCmp.gt_iff_lt.mp h]
  have hne : (sortByKey l).Pairwise fun a b => a.1 ≠ b.1 := by
    have : ((sortByKey l).map Prod.fst).Nodup :=
      ((sortByKey_perm l).map Prod.fst).nodup_iff.mpr hnodup
    exact List.pairwise_map.mp this
  refine (hle.and hne).imp ?_
  rintro a b ⟨hab, hne⟩
  rcases h : compare a.1 b.1 with _ | _ | _
  · rfl
  · exact absurd (Std.LawfulEqCmp.eq_of_compare h) hne
  · simp [h] at hab

end SortedEntries
