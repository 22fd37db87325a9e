import Mathlib

/-!
# Versions by time

A version table lists values by the time from which they are valid, one value for each time.  The
value at a time is the last one listed up to that time (`entryAt`).  The history of a table is the
list of the changes made to it, in their order; there the value at a time is the latest change up to
that time, and the last one made among changes of one time (`latest`).

Entering a change moves the two along (`entryAt_enter`, `latest_concat`).  Versions before the one
that is valid at some time can be dropped without any effect on the values from that time on
(`entryAt_prune`).
-/

namespace Versions

open List

variable {α : Type}

/-- One value for each time. -/
def Sorted (entries : List (Int × α)) : Prop := entries.Pairwise fun e e' => e.1 < e'.1

/-- A value replaces the one of its time. -/
def enter (time : Int) (a : α) : List (Int × α) → List (Int × α)
  | [] => [(time, a)]
  | entry :: entries =>
    if entry.1 < time then entry :: enter time a entries
    else if entry.1 = time then (time, a) :: entries
    else (time, a) :: entry :: entries

/-- The last entry up to a time. -/
def entryAt (entries : List (Int × α)) (time : Int) : Option (Int × α) :=
  (entries.filter (·.1 ≤ time)).getLast?

/-- Without the versions before the one that is valid at `time`. -/
def prune (time : Int) (entries : List (Int × α)) : List (Int × α) :=
  match entryAt entries time with
  | some keep => entries.filter (keep.1 ≤ ·.1)
  | none => entries

/-- The latest change up to a time, and the last one made among those of one time. -/
def latest (changes : List (Int × α)) (time : Int) : Option (Int × α) :=
  changes.foldl (fun best change =>
    if change.1 ≤ time ∧ best.all (·.1 ≤ change.1) = true then some change else best) none

/-! ## Entering a value -/

variable {time : Int} {entries : List (Int × α)} {e : Int × α}

theorem mem_enter {a : α} (h : e ∈ enter time a entries) : e = (time, a) ∨ e ∈ entries := by
  induction entries with
  | nil => exact Or.inl (mem_singleton.mp h)
  | cons entry entries ih =>
    rw [enter] at h
    split_ifs at h
    · rcases mem_cons.mp h with rfl | h
      · exact Or.inr (mem_cons_self ..)
      · exact (ih h).imp_right (mem_cons_of_mem _)
    · exact (mem_cons.mp h).imp_right (mem_cons_of_mem _)
    · exact mem_cons.mp h

/-- A new version keeps the order. -/
theorem Sorted.enter (h : Sorted entries) (time : Int) (a : α) : Sorted (enter time a entries) := by
  induction entries with
  | nil => exact pairwise_singleton _ _
  | cons entry entries ih =>
    obtain ⟨hfirst, hrest⟩ := pairwise_cons.mp h
    rw [Versions.enter]
    split_ifs with hlt heq
    · refine pairwise_cons.mpr ⟨fun e he => ?_, ih hrest⟩
      rcases mem_enter he with rfl | he
      · exact hlt
      · exact hfirst e he
    · rw [← heq]
      exact pairwise_cons.mpr ⟨hfirst, hrest⟩
    · refine pairwise_cons.mpr ⟨fun e he => ?_, h⟩
      rcases mem_cons.mp he with rfl | he
      · exact lt_of_le_of_ne (not_lt.mp hlt) (Ne.symm heq)
      · exact lt_of_le_of_lt (not_lt.mp hlt) (hfirst e he)

theorem entryAt_cons (entry : Int × α) (entries : List (Int × α)) (t : Int) :
    entryAt (entry :: entries) t =
      if entry.1 ≤ t then some ((entryAt entries t).getD entry) else entryAt entries t := by
  unfold entryAt
  split_ifs with h
  · rw [filter_cons_of_pos (by simpa using h), List.getLast?_cons]
  · rw [filter_cons_of_neg (by simpa using h)]

variable {t : Int}

theorem entryAt_mem (h : entryAt entries t = some e) : e ∈ entries ∧ e.1 ≤ t := by
  have hmem := mem_of_getLast? h
  rw [mem_filter] at hmem
  exact ⟨hmem.1, by simpa using hmem.2⟩

/-- A value that was entered is the one from its time up to the next time. -/
theorem entryAt_enter (h : Sorted entries) (time : Int) (a : α) (t : Int) :
    entryAt (enter time a entries) t =
      if time ≤ t ∧ (entryAt entries t).all (·.1 ≤ time) = true then some (time, a)
      else entryAt entries t := by
  induction entries with
  | nil =>
    rw [enter, entryAt_cons]
    by_cases ht : time ≤ t <;> simp [entryAt, ht]
  | cons entry entries ih =>
    obtain ⟨hfirst, hrest⟩ := pairwise_cons.mp h
    rw [enter]
    rcases lt_trichotomy entry.1 time with hlt | heq | hgt
    · -- the new value comes later in the list
      rw [if_pos hlt, entryAt_cons, ih hrest, entryAt_cons]
      by_cases ht : time ≤ t
      · have hentry : entry.1 ≤ t := hlt.le.trans ht
        rcases hrestAt : entryAt entries t with _ | e
        · simp [ht, hentry, hlt.le]
        · by_cases he : e.1 ≤ time <;> simp [ht, hentry, he]
      · simp [ht]
    · -- it takes the place of the first one
      rw [if_neg (by omega), if_pos heq, entryAt_cons, entryAt_cons]
      rcases hrestAt : entryAt entries t with _ | e
      · by_cases ht : time ≤ t <;> simp [ht, heq]
      · have hlater := hfirst e (entryAt_mem hrestAt).1
        have ht := (entryAt_mem hrestAt).2
        have hnot : ¬ e.1 ≤ time := by omega
        simp [show time ≤ t by omega, show entry.1 ≤ t by omega, hnot]
    · -- it comes first
      rw [if_neg (by omega), if_neg (by omega), entryAt_cons]
      rcases hat : entryAt (entry :: entries) t with _ | e
      · by_cases ht : time ≤ t <;> simp [ht]
      · obtain ⟨hmem, ht⟩ := entryAt_mem hat
        have hlater : time < e.1 := by
          rcases mem_cons.mp hmem with rfl | hmem
          · exact hgt
          · exact hgt.trans (hfirst e hmem)
        simp [show time ≤ t by omega, show ¬ e.1 ≤ time by omega]

/-! ## The history -/

theorem latest_concat (changes : List (Int × α)) (change : Int × α) (t : Int) :
    latest (changes ++ [change]) t =
      if change.1 ≤ t ∧ (latest changes t).all (·.1 ≤ change.1) = true then some change
      else latest changes t := by
  rw [latest, foldl_append]
  rfl

/-- Changes from a later time on do not matter. -/
theorem latest_append_of_lt {changes later : List (Int × α)} (h : ∀ c ∈ later, t < c.1) :
    latest (changes ++ later) t = latest changes t := by
  induction later using List.reverseRecOn with
  | nil => rw [append_nil]
  | append_singleton later change ih =>
    have hchange := h change (mem_append_right _ (mem_singleton_self _))
    rw [← append_assoc, latest_concat, if_neg (fun hle => by omega),
      ih fun c hc => h c (mem_append_left _ hc)]

/-! ## Dropping old versions -/

theorem mem_of_mem_prune {t : Int} (h : e ∈ prune t entries) : e ∈ entries := by
  unfold prune at h
  split at h
  · exact List.mem_of_mem_filter h
  · exact h

theorem Sorted.prune (h : Sorted entries) (t : Int) : Sorted (prune t entries) := by
  unfold Versions.prune
  split
  · exact h.filter _
  · exact h

/-- In a sorted table the entry at a time is the latest one up to the time. -/
theorem Sorted.le_entryAt (h : Sorted entries)
    {e' : Int × α} (he : e ∈ entries) (ht : e.1 ≤ t) (hat : entryAt entries t = some e') :
    e.1 ≤ e'.1 := by
  obtain ⟨before, hbefore⟩ := List.getLast?_eq_some_iff.mp hat
  have hmem : e ∈ entries.filter (·.1 ≤ t) := mem_filter.mpr ⟨he, by simpa using ht⟩
  have hsorted : Sorted (before ++ [e']) := hbefore ▸ h.filter _
  rw [hbefore] at hmem
  rcases mem_append.mp hmem with hmem | hmem
  · exact ((pairwise_append.mp hsorted).2.2 e hmem e' (mem_singleton_self _)).le
  · rw [mem_singleton.mp hmem]

/-- Versions before the one that is valid at a time do not matter from that time on. -/
theorem entryAt_prune (h : Sorted entries)
    (ht : time ≤ t) : entryAt (prune time entries) t = entryAt entries t := by
  unfold prune
  split
  · rename_i keep hkeep
    obtain ⟨hmem, hle⟩ := entryAt_mem hkeep
    rcases hat : entryAt entries t with _ | e
    · rw [entryAt, List.getLast?_eq_none_iff, filter_filter, filter_eq_nil_iff]
      rw [entryAt, List.getLast?_eq_none_iff, filter_eq_nil_iff] at hat
      intro e' he' hboth
      exact hat e' he' (Bool.and_eq_true_iff.mp hboth).1
    · have hkept : keep.1 ≤ e.1 := h.le_entryAt hmem (hle.trans ht) hat
      obtain ⟨before, hbefore⟩ := List.getLast?_eq_some_iff.mp hat
      have hcomm : (entries.filter (keep.1 ≤ ·.1)).filter (·.1 ≤ t) =
          (entries.filter (·.1 ≤ t)).filter (keep.1 ≤ ·.1) := by
        rw [filter_filter, filter_filter]
        exact filter_congr fun _ _ => Bool.and_comm _ _
      rw [entryAt, hcomm, hbefore, filter_append, filter_cons_of_pos (by simpa using hkept)]
      exact List.getLast?_concat ..
  · rfl

end Versions
