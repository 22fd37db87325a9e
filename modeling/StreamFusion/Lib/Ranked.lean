import StreamFusion.Lib.Outcome

/-!
# Lists in the order of a rank

A list is kept in the order of a rank that its elements carry.  Two ways of adding an element and
keeping the first few are compared by means of one fact: a strictly ordered list is determined by
its elements (`eq_of_perm`).

* `lowerBound` is the binary search for the place of an element, with a comparison that may fail.
  `lowerBound_eq` says which place it finds, `insertAt_perm` and `insertAt_sorted` what an insertion
  there does.
* `map_sorted_index` replaces the elements by their positions in a longer ordered list: sorting the
  positions and reading the elements back is sorting the elements.  `table` is how such positions
  are written down.
-/

namespace Ranked

open List

variable {α L ε : Type}

/-! ## Binary search -/

/-- The first index between `low` and `high` at which `less` fails, by halving; `fuel` bounds the
number of halvings. -/
def lowerBound (less : Nat → Except ε Bool) : Nat → Nat → Nat → Except ε Nat
  | 0, low, _ => .ok low
  | fuel + 1, low, high =>
    if low < high then do
      let middle := low + (high - low) / 2
      if ← less middle then lowerBound less fuel (middle + 1) high
      else lowerBound less fuel low middle
    else .ok low

/-- Binary search finds the place. -/
theorem lowerBound_eq {less : Nat → Except ε Bool} {n : Nat} :
    ∀ (fuel low high : Nat), high - low ≤ fuel → low ≤ n → n ≤ high →
      (∀ i < high, less i = .ok (decide (i < n))) → lowerBound less fuel low high = .ok n := by
  intro fuel
  induction fuel with
  | zero =>
    intro low high hfuel hlow hhigh _
    show Except.ok low = .ok n
    rw [show low = n by omega]
  | succ fuel ih =>
    intro low high hfuel hlow hhigh hless
    rw [lowerBound]
    by_cases h : low < high
    · -- the half that keeps `n` is shorter than the whole
      rw [if_pos h]
      dsimp only
      rw [hless _ (by omega), Except.ok_bind]
      by_cases hmiddle : low + (high - low) / 2 < n
      · rw [decide_eq_true hmiddle, if_pos rfl]
        exact ih _ _ (by omega) (by omega) hhigh hless
      · rw [decide_eq_false hmiddle, if_neg Bool.false_ne_true]
        exact ih _ _ (by omega) hlow (by omega) fun i hi => hless i (by omega)
    · rw [if_neg h, show low = n by omega]

/-! ## Insertion -/

/-- The list with an element inserted in front of position `n`. -/
def insertAt (l : List α) (n : Nat) (a : α) : List α := l.take n ++ a :: l.drop n

theorem insertAt_perm (l : List α) (n : Nat) (a : α) : (insertAt l n a).Perm (a :: l) := by
  refine perm_middle.trans (List.Perm.cons a ?_)
  rw [take_append_drop]

variable [LinearOrder L] (rank : α → L)

/-- The number of elements in front of the place of `a`. -/
def place (l : List α) (a : α) : Nat := l.countP fun x => rank x < rank a

theorem place_le (l : List α) (a : α) : place rank l a ≤ l.length := countP_le_length

variable {rank}

variable {l : List α}

/-- The place of an element is behind those of lower rank. -/
theorem lt_place_iff (hl : l.Pairwise fun x y => rank x < rank y) (a : α) {i : Nat}
    (hi : i < l.length) :
    i < place rank l a ↔ rank l[i] < rank a := by
  induction l generalizing i with
  | nil => exact absurd hi (Nat.not_lt_zero i)
  | cons x l ih =>
    obtain ⟨hx, hl⟩ := pairwise_cons.mp hl
    unfold place at ih ⊢
    by_cases hxa : rank x < rank a
    · rw [countP_cons_of_pos (by exact decide_eq_true hxa)]
      cases i with
      | zero => exact ⟨fun _ => hxa, fun _ => Nat.succ_pos _⟩
      | succ i =>
        rw [getElem_cons_succ, ← ih hl (Nat.lt_of_succ_lt_succ hi)]
        omega
    · -- behind an element that is not in front of `a` there is none that is
      have hzero : l.countP (fun y => decide (rank y < rank a)) = 0 :=
        countP_eq_zero.mpr fun y hy h =>
          hxa ((hx y hy).trans (of_decide_eq_true h))
      rw [countP_cons_of_neg (by simpa using hxa), hzero]
      refine ⟨fun h => absurd h (Nat.not_lt_zero i), fun h => ?_⟩
      cases i with
      | zero => exact absurd h hxa
      | succ i =>
        have hi' : i < l.length := Nat.lt_of_succ_lt_succ hi
        have := (ih hl hi').mpr h
        rw [hzero] at this
        exact absurd this (Nat.not_lt_zero i)

/-- Inserting at its place keeps the order. -/
theorem insertAt_sorted (hl : l.Pairwise fun x y => rank x < rank y) {a : α}
    (ha : ∀ x ∈ l, rank x ≠ rank a) :
    (insertAt l (place rank l a) a).Pairwise fun x y => rank x < rank y := by
  have hfront : ∀ x ∈ l.take (place rank l a), rank x < rank a := by
    intro x hx
    obtain ⟨i, hi, rfl⟩ := mem_take_iff_getElem.mp hx
    exact (lt_place_iff hl a (by omega)).mp (by omega)
  have hback : ∀ y ∈ l.drop (place rank l a), rank a < rank y := by
    intro y hy
    have hmem : y ∈ l := mem_of_mem_drop hy
    obtain ⟨i, hi, rfl⟩ := mem_drop_iff_getElem.mp hy
    have hnot : ¬ rank l[place rank l a + i] < rank a := by
      rw [← lt_place_iff hl a (Nat.add_comm i _ ▸ hi)]
      omega
    exact lt_of_le_of_ne (not_lt.mp hnot) (ha _ hmem).symm
  refine pairwise_append.mpr ⟨hl.sublist (take_sublist _ _),
    pairwise_cons.mpr ⟨hback, hl.sublist (drop_sublist _ _)⟩, ?_⟩
  intro x hx y hy
  rcases mem_cons.mp hy with rfl | hy
  · exact hfront x hx
  · exact (hfront x hx).trans (hback y hy)

/-! ## Ordered lists are determined by their elements -/

/-- **Sorting positions.**  `index` gives the position of the elements of `l'` in a list `S` that is
in the order of the rank; then the sorted positions, read back, are the elements in the order of the
rank. -/
theorem map_sorted_index {S l l' : List α} {index : α → Nat} {read : Nat → α} {sorted : List Nat}
    (hS : S.Pairwise fun x y => rank x ≤ rank y)
    (hindex : ∀ x ∈ l', ∃ h : index x < S.length, S[index x] = x)
    (hread : ∀ i, ∀ h : i < S.length, read i = S[i])
    (hl' : l'.Pairwise fun x y => rank x < rank y) (hperm : l'.Perm l)
    (hsorted : sorted.Pairwise (· ≤ ·)) (hsortedPerm : sorted.Perm (l.map index)) :
    sorted.map read = l' := by
  have hlt : (l'.map index).Pairwise (· ≤ ·) := by
    rw [pairwise_map]
    refine hl'.imp_of_mem fun {x y} hx hy hxy => ?_
    obtain ⟨hxS, hxeq⟩ := hindex x hx
    obtain ⟨hyS, hyeq⟩ := hindex y hy
    by_contra hgt
    have hle := pairwise_iff_getElem.mp hS _ _ hyS hxS (not_le.mp hgt)
    rw [hxeq, hyeq] at hle
    exact absurd hxy (not_lt.mpr hle)
  have heq : sorted = l'.map index :=
    List.Perm.eq_of_pairwise (fun _ _ _ _ hab hba => le_antisymm hab hba) hsorted hlt
      (hsortedPerm.trans (hperm.map index).symm)
  rw [heq, map_map]
  refine (map_congr_left fun x hx => ?_).trans (map_id l')
  obtain ⟨hxS, hxeq⟩ := hindex x hx
  show read (index x) = x
  rw [hread _ hxS, hxeq]

/-! ## Tables of positions -/

/-- The position at which every element was written last, by a loop over the list. -/
def table [DecidableEq α] (l : List α) : α → Nat :=
  l.zipIdx.foldl (fun table entry => Function.update table entry.1 entry.2) fun _ => 0

/-- The table gives the position of an element. -/
theorem table_getElem [DecidableEq α] (h : l.Nodup) {i : Nat} (hi : i < l.length) :
    table l l[i] = i := by
  -- the loop from the right: the last element is written last
  induction l using List.reverseRecOn with
  | nil => exact absurd hi (Nat.not_lt_zero i)
  | append_singleton l a ih =>
    have hstep : table (l ++ [a]) = Function.update (table l) a l.length := by
      unfold table
      rw [zipIdx_append, foldl_append]
      simp
    have hl : l.Nodup := h.sublist (sublist_append_left l [a])
    rw [hstep]
    by_cases hlast : i < l.length
    · have hmem : l[i] ∈ l := getElem_mem hlast
      have hne : l[i] ≠ a := by
        rintro rfl
        exact (nodup_append.mp h).2.2 _ hmem _ (mem_singleton_self _) rfl
      rw [getElem_append_left hlast, Function.update_of_ne hne, ih hl hlast]
    · have hi' : i = l.length := by
        rw [length_append, length_singleton] at hi
        omega
      subst hi'
      rw [getElem_concat_length rfl, Function.update_self]

/-- The positions in an ordered list are in the order of the rank. -/
theorem table_le_table_iff [DecidableEq α] (hl : l.Pairwise fun x y => rank x < rank y)
    {a b : α} (ha : a ∈ l)
    (hb : b ∈ l) : table l a ≤ table l b ↔ rank a ≤ rank b := by
  have hnodup : l.Nodup := by
    refine hl.imp ?_
    rintro x _ hlt rfl
    exact lt_irrefl _ hlt
  obtain ⟨i, hi, rfl⟩ := getElem_of_mem ha
  obtain ⟨j, hj, rfl⟩ := getElem_of_mem hb
  rw [table_getElem hnodup hi, table_getElem hnodup hj]
  have hlt := pairwise_iff_getElem.mp hl
  rcases lt_trichotomy i j with hij | rfl | hij
  · exact ⟨fun _ => (hlt i j hi hj hij).le, fun _ => hij.le⟩
  · exact ⟨fun _ => le_rfl, fun _ => le_rfl⟩
  · exact ⟨fun h => absurd hij (not_lt.mpr h), fun h => absurd (hlt j i hj hi hij) (not_lt.mpr h)⟩

/-- The part of an increasing list up to one of its elements. -/
theorem mem_take_idxOf_succ {l : List Nat} (hl : l.Pairwise (· < ·)) {a x : Nat} (ha : a ∈ l) :
    x ∈ l.take (l.idxOf a + 1) ↔ x ∈ l ∧ x ≤ a := by
  have hi : l.idxOf a < l.length := idxOf_lt_length_of_mem ha
  have hget : l[l.idxOf a] = a := getElem_idxOf hi
  have hlt := pairwise_iff_getElem.mp hl
  rw [mem_take_iff_getElem]
  constructor
  · rintro ⟨j, hj, rfl⟩
    have hjl : j < l.length := by omega
    refine ⟨getElem_mem hjl, ?_⟩
    rcases Nat.lt_or_ge j (l.idxOf a) with hlow | hhigh
    · exact (hlt j _ hjl hi hlow).le.trans_eq hget
    · obtain rfl : j = l.idxOf a := by omega
      exact hget.le
  · rintro ⟨hx, hle⟩
    obtain ⟨j, hj, rfl⟩ := getElem_of_mem hx
    refine ⟨j, ?_, rfl⟩
    by_contra hnot
    have := hlt _ j hi hj (by omega)
    rw [hget] at this
    omega

end Ranked
