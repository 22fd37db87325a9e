import Mathlib

/-!
# Values ordered by time

A `Timeline` is a multimap from times to values, listed by time and, within one time, in the order
of insertion.  The order is a field of the type.  The last part lists a timeline time by time and
builds it up again from such a listing.
-/

/-- A multimap from times to values, listed by time. -/
structure Timeline (α : Type) where
  entries : List (Int × α)
  sorted : entries.Pairwise fun e e' => e.1 ≤ e'.1

namespace Timeline

open List

variable {α : Type}

variable {t : Timeline α}

theorem ext {t' : Timeline α} (h : t.entries = t'.entries) : t = t' := by
  cases t
  cases t'
  cases h
  rfl

/-- The timeline without values. -/
def empty : Timeline α := ⟨[], List.Pairwise.nil⟩

@[simp] theorem entries_empty : (empty : Timeline α).entries = [] := rfl

/-! ## Adding a value -/

/-- The new entry follows the entries of its own time. -/
def insertEntry (e : Int × α) : List (Int × α) → List (Int × α)
  | [] => [e]
  | e' :: l => if e'.1 ≤ e.1 then e' :: insertEntry e l else e :: e' :: l

theorem insertEntry_perm (e : Int × α) (l : List (Int × α)) : (insertEntry e l).Perm (e :: l) := by
  induction l with
  | nil => exact List.Perm.refl _
  | cons e' l ih =>
    unfold insertEntry
    by_cases h : e'.1 ≤ e.1
    · rw [if_pos h]
      exact (ih.cons e').trans (List.Perm.swap e e' l)
    · rw [if_neg h]

variable {l : List (Int × α)}

/-- Inserting an entry keeps the order. -/
theorem insertEntry_sorted (e : Int × α) (h : l.Pairwise fun e e' => e.1 ≤ e'.1) :
    (insertEntry e l).Pairwise fun e e' => e.1 ≤ e'.1 := by
  induction l with
  | nil => exact pairwise_singleton _ _
  | cons e' l ih =>
    obtain ⟨hfirst, hrest⟩ := pairwise_cons.mp h
    unfold insertEntry
    by_cases hle : e'.1 ≤ e.1
    · rw [if_pos hle, pairwise_cons]
      refine ⟨fun e'' h'' => ?_, ih hrest⟩
      cases mem_cons.mp ((insertEntry_perm e l).mem_iff.mp h'') with
      | inl heq => exact heq ▸ hle
      | inr hmem => exact hfirst e'' hmem
    · rw [if_neg hle, pairwise_cons]
      refine ⟨fun e'' h'' => ?_, h⟩
      cases mem_cons.mp h'' with
      | inl heq => rw [heq]; omega
      | inr hmem => have := hfirst e'' hmem; omega

/-- Adds an entry behind those of its time. -/
def push (t : Timeline α) (time : Int) (a : α) : Timeline α :=
  ⟨insertEntry (time, a) t.entries, insertEntry_sorted _ t.sorted⟩

/-! ## Removing and changing values -/

/-- The entries that satisfy a condition. -/
def filter (t : Timeline α) (p : Int × α → Bool) : Timeline α :=
  ⟨t.entries.filter p, t.sorted.filter p⟩

/-- The values of the entries that satisfy a predicate are changed in place. -/
def modify (t : Timeline α) (p : Int × α → Bool) (f : α → α) : Timeline α where
  entries := t.entries.map fun e => if p e then (e.1, f e.2) else e
  sorted := by
    refine pairwise_map.mpr (t.sorted.imp ?_)
    intro e e' h
    by_cases he : p e = true <;> by_cases he' : p e' = true <;> simpa [he, he'] using h

/-- The first entry that satisfies a predicate is removed. -/
def removeFirst (t : Timeline α) (p : Int × α → Bool) : Timeline α :=
  ⟨t.entries.eraseP p, t.sorted.sublist eraseP_sublist⟩

/-! ## The entries by time -/

/-- Adjacent entries of one time are put together. -/
def groupEntries : List (Int × α) → List (Int × List α)
  | [] => []
  | e :: l =>
    match groupEntries l with
    | [] => [(e.1, [e.2])]
    | g :: groups => if e.1 = g.1 then (e.1, e.2 :: g.2) :: groups else (e.1, [e.2]) :: g :: groups

/-- The entries by time. -/
def groups (t : Timeline α) : List (Int × List α) := groupEntries t.entries

/-- The entries of one time. -/
def groupOf (g : Int × List α) : List (Int × α) := g.2.map fun a => (g.1, a)

/-- The timeline of values that arrive group by group. -/
def ofGroups (groups : List (Int × List α)) : Timeline α :=
  (groups.flatMap groupOf).foldl (fun t e => t.push e.1 e.2) empty

/-- The groups hold the entries in order. -/
theorem flatMap_groupEntries (l : List (Int × α)) : (groupEntries l).flatMap groupOf = l := by
  induction l with
  | nil => rfl
  | cons e l ih =>
    unfold groupEntries
    cases hgroups : groupEntries l with
    | nil =>
      rw [hgroups] at ih
      rw [← ih]
      rfl
    | cons g groups =>
      rw [hgroups] at ih
      dsimp only
      by_cases htime : e.1 = g.1
      · rw [if_pos htime, ← ih, flatMap_cons, flatMap_cons]
        simp [groupOf, htime]
        rw [← htime]
      · rw [if_neg htime, ← ih]
        rfl

variable {g : Int × List α}

/-- The first group has the time of the first entry. -/
theorem fst_of_groupEntries {groups : List (Int × List α)}
    (h : groupEntries l = g :: groups) : ∃ a l', l = (g.1, a) :: l' := by
  cases l with
  | nil => cases h
  | cons e l =>
    refine ⟨e.2, l, ?_⟩
    unfold groupEntries at h
    cases hgroups : groupEntries l with
    | nil => rw [hgroups] at h; cases h; rfl
    | cons g' groups' =>
      rw [hgroups] at h
      dsimp only at h
      by_cases htime : e.1 = g'.1
      · rw [if_pos htime] at h; cases h; rfl
      · rw [if_neg htime] at h; cases h; rfl

/-- The times of the groups are strictly increasing. -/
theorem sorted_groupEntries (h : l.Pairwise fun e e' => e.1 ≤ e'.1) :
    (groupEntries l).Pairwise fun g g' => g.1 < g'.1 := by
  induction l with
  | nil => exact List.Pairwise.nil
  | cons e l ih =>
    obtain ⟨hfirst, hrest⟩ := pairwise_cons.mp h
    have hgroups := ih hrest
    unfold groupEntries
    cases hl : groupEntries l with
    | nil => exact pairwise_singleton _ _
    | cons g groups =>
      rw [hl] at hgroups
      obtain ⟨hg, hsorted⟩ := pairwise_cons.mp hgroups
      obtain ⟨a, l', rfl⟩ := fst_of_groupEntries hl
      have hle := hfirst (g.1, a) mem_cons_self
      dsimp only
      by_cases htime : e.1 = g.1
      · rw [if_pos htime, pairwise_cons]
        exact ⟨fun g' hg' => htime ▸ hg g' hg', hsorted⟩
      · rw [if_neg htime, pairwise_cons]
        refine ⟨fun g' hg' => ?_, hgroups⟩
        have hlt : e.1 < g.1 := lt_of_le_of_ne hle htime
        cases mem_cons.mp hg' with
        | inl heq => rw [heq]; exact hlt
        | inr hmem => exact hlt.trans (hg g' hmem)

theorem nodup_groups (t : Timeline α) : (t.groups.map Prod.fst).Nodup :=
  pairwise_map.mpr ((sorted_groupEntries t.sorted).imp fun h => ne_of_lt h)

/-- A group is not empty, so there are no more groups than entries. -/
theorem length_groupEntries_le (l : List (Int × α)) : (groupEntries l).length ≤ l.length := by
  induction l with
  | nil => exact le_refl _
  | cons e l ih =>
    unfold groupEntries
    cases hl : groupEntries l with
    | nil => simp
    | cons g groups =>
      rw [hl] at ih
      dsimp only
      split <;> simp only [length_cons] at ih ⊢ <;> omega

/-- The entries of a group are entries. -/
theorem groupOf_sublist (h : g ∈ groupEntries l) : (groupOf g).Sublist l := by
  rw [← flatMap_groupEntries l, flatMap_def]
  exact sublist_flatten_of_mem (mem_map_of_mem h)

theorem exists_mem_of_mem_groupEntries (h : g ∈ groupEntries l) : ∃ a, a ∈ g.2 := by
  induction l with
  | nil => cases h
  | cons e l ih =>
    unfold groupEntries at h
    cases hl : groupEntries l with
    | nil =>
      rw [hl] at h
      cases mem_singleton.mp h
      exact ⟨e.2, mem_cons_self⟩
    | cons g' groups =>
      rw [hl] at h ih
      dsimp only at h
      split at h
      · cases mem_cons.mp h with
        | inl heq => exact ⟨e.2, heq ▸ mem_cons_self⟩
        | inr hmem => exact ih (mem_cons_of_mem _ hmem)
      · cases mem_cons.mp h with
        | inl heq => exact ⟨e.2, heq ▸ mem_cons_self⟩
        | inr hmem => exact ih hmem

/-- An entry that is the latest is added at the end. -/
theorem insertEntry_last (e : Int × α) (h : ∀ e' ∈ l, e'.1 ≤ e.1) : insertEntry e l = l ++ [e] := by
  induction l with
  | nil => rfl
  | cons e' l ih =>
    obtain ⟨he', hl⟩ := forall_mem_cons.mp h
    rw [insertEntry, if_pos he', ih hl, cons_append]

theorem entries_foldl_push (l : List (Int × α)) (t : Timeline α)
    (h : (t.entries ++ l).Pairwise fun e e' => e.1 ≤ e'.1) :
    (l.foldl (fun t e => t.push e.1 e.2) t).entries = t.entries ++ l := by
  induction l generalizing t with
  | nil => exact (append_nil _).symm
  | cons e l ih =>
    have hbefore : ∀ e' ∈ t.entries, e'.1 ≤ e.1 := fun e' he' =>
      (pairwise_append.mp h).2.2 e' he' e mem_cons_self
    have hpush : (t.push e.1 e.2).entries = t.entries ++ [e] := insertEntry_last e hbefore
    rw [foldl_cons, ih _ (by rw [hpush, append_assoc]; exact h), hpush, append_assoc]
    rfl

theorem ofGroups_groups (t : Timeline α) : ofGroups t.groups = t := by
  refine ext ?_
  rw [ofGroups, groups, flatMap_groupEntries, entries_foldl_push _ _ t.sorted]
  rfl

end Timeline
