import StreamFusion.Lib.Drain
import StreamFusion.State.TimerService.Model

/-!
# The timer service is a set of timers

`NativeTimerService.timers` is the set of registered timers, each with its key group and domain.
The operations are characterised by what they do to it.

All four ways to take due timers take them from the front of one list, `due`: the due timers of the
first group in the order of its set, then those of the next group.  The list is sorted and is
determined by the set, so it is the same for all of them, and a call that has removed a front part
of it leaves the rest of it as the new list (`Removes.due_eq`).
-/

namespace StreamFusion.State.TimerService

open Wire TimerService.NativeTimerService TimerGroup List Std.ExtTreeSet Except

/-! ## Popping from an ordered set -/

section TreeSet

variable {α : Type} [Ord α] [Std.TransOrd α] [Std.LawfulEqOrd α]

variable {l : List α} {t : Std.ExtTreeSet α compare}

omit [Std.LawfulEqOrd α] in
theorem contains_eq_false {a : α} : t.contains a = false ↔ a ∉ t := by
  rw [← Std.ExtTreeSet.contains_iff_mem, Bool.not_eq_true]

theorem toList_erase_of_cons {a : α} (h : t.toList = a :: l) : (t.erase a).toList = l := by
  have hsorted : (a :: l).Pairwise fun a b => compare a b = .lt := h ▸ Std.ExtTreeSet.ordered_toList
  obtain ⟨ha, hl⟩ := pairwise_cons.mp hsorted
  refine SortedEntries.eq_of_pairwise Std.OrientedCmp.not_lt_of_lt ordered_toList hl fun b => ?_
  rw [Std.ExtTreeSet.mem_toList, Std.ExtTreeSet.mem_erase, ← Std.ExtTreeSet.mem_toList, h, mem_cons]
  constructor
  · rintro ⟨hne, rfl | hb⟩
    · exact absurd Std.ReflCmp.compare_self hne
    · exact hb
  · intro hb
    have hlt := ha b hb
    exact ⟨by simp [hlt], Or.inr hb⟩

end TreeSet

/-- The first due timers are taken out. -/
theorem popDue_spec (progress : Int64) (limit : Nat) (timers : TimerSet) :
    (popDue progress limit timers).1 =
        (timers.toList.takeWhile (isDue progress)).take limit ∧
      ∀ timer, timer ∈ (popDue progress limit timers).2 ↔
        timer ∈ timers ∧ timer ∉ (popDue progress limit timers).1 := by
  induction limit generalizing timers with
  | zero => simp [popDue]
  | succ limit ih =>
    rw [popDue, min?_eq_head?_toList]
    rcases hlist : timers.toList with _ | ⟨first, rest⟩
    · simp
    · rw [List.head?_cons]
      dsimp only
      by_cases hdue : progress < first.timestamp
      · have hnot : isDue progress first = false := by
          simpa [isDue] using hdue
        rw [if_pos hdue]
        simp [hnot]
      · have hyes : isDue progress first = true := by
          simpa [isDue] using hdue
        rw [if_neg hdue]
        obtain ⟨hfired, hmem⟩ := ih (timers.erase first)
        rw [toList_erase_of_cons hlist] at hfired
        refine ⟨?_, fun timer => ?_⟩
        · rw [hfired, takeWhile_cons, if_pos hyes, take_succ_cons]
        · rw [hmem, mem_erase, mem_cons, not_or]
          have hne : compare first timer ≠ .eq ↔ timer ≠ first := by
            rw [ne_eq, ne_eq, Std.LawfulEqOrd.compare_eq_iff_eq]
            exact not_congr eq_comm
          rw [hne]
          tauto

namespace TimerGroup

@[simp] theorem timerSet_setTimerSet (group : TimerGroup) (domain : TimerDomain)
    (timers : TimerSet) : (group.setTimerSet domain timers).timerSet domain = timers := by
  cases domain <;> rfl

theorem timerSet_setTimerSet_of_ne (group : TimerGroup) {domain domain' : TimerDomain}
    (h : domain' ≠ domain) (timers : TimerSet) :
    (group.setTimerSet domain timers).timerSet domain' = group.timerSet domain' := by
  cases domain <;> cases domain' <;> first | rfl | exact absurd rfl h

@[simp] theorem setTimerSet_timerSet (group : TimerGroup) (domain : TimerDomain) :
    group.setTimerSet domain (group.timerSet domain) = group := by
  cases domain <;> rfl

theorem ext_timerSet {group group' : TimerGroup}
    (h : ∀ domain timer, timer ∈ group.timerSet domain ↔ timer ∈ group'.timerSet domain) :
    group = group' := by
  obtain ⟨e, p⟩ := group
  obtain ⟨e', p'⟩ := group'
  have he : e = e' := ext_mem (h .eventTime)
  have hp : p = p' := ext_mem (h .processingTime)
  rw [he, hp]

end TimerGroup

namespace NativeTimerService

variable {service service' : NativeTimerService}

/-! ## The set of timers -/

/-- The registered timers, with their key group and domain. -/
def timers (service : NativeTimerService) : Set FiredTimer :=
  { x | ∃ index < service.groups.length, x.keyGroup = service.keyGroupAt index ∧
    x.timer ∈ (service.groups.getD index {}).timerSet x.domain }

variable {index : Nat}

theorem toNat_keyGroupAt (h : index < service.groups.length) :
    (service.keyGroupAt index).toNat = service.firstKeyGroup.toNat + index := by
  have hbound := service.bound
  have hlt : service.firstKeyGroup.toNat + index < 2 ^ 32 := by omega
  exact UInt32.toNat_ofNat_of_lt' hlt

theorem keyGroupAt_injective {i j : Nat} (hi : i < service.groups.length)
    (hj : j < service.groups.length) (h : service.keyGroupAt i = service.keyGroupAt j) : i = j := by
  have := congrArg UInt32.toNat h
  rw [toNat_keyGroupAt hi, toNat_keyGroupAt hj] at this
  omega

variable {keyGroup : UInt32}

theorem groupIndex_eq_ok : service.groupIndex keyGroup = .ok index ↔
      index < service.groups.length ∧ keyGroup = service.keyGroupAt index := by
  unfold groupIndex
  constructor
  · intro h
    split at h
    next hle =>
      dsimp only at h
      split at h
      · cases h
      next hlt =>
        cases h
        refine ⟨by omega, UInt32.toNat_inj.mp ?_⟩
        rw [toNat_keyGroupAt (by omega)]
        omega
    next => cases h
  · rintro ⟨hlt, rfl⟩
    rw [toNat_keyGroupAt hlt, if_pos (by omega)]
    rw [if_neg (by omega)]
    congr 1
    omega

variable {x : FiredTimer}

theorem mem_timers (hindex : index < service.groups.length)
    (hkeyGroup : x.keyGroup = service.keyGroupAt index) :
    x ∈ service.timers ↔ x.timer ∈ (service.groups.getD index {}).timerSet x.domain := by
  constructor
  · rintro ⟨index', hindex', hkeyGroup', hmem⟩
    cases keyGroupAt_injective hindex hindex' (hkeyGroup.symm.trans hkeyGroup')
    exact hmem
  · exact fun hmem => ⟨index, hindex, hkeyGroup, hmem⟩

/-- Both own the same groups. -/
def SameRange (service service' : NativeTimerService) : Prop :=
  service'.firstKeyGroup = service.firstKeyGroup ∧
    service'.groups.length = service.groups.length

variable {service'' : NativeTimerService}

theorem SameRange.trans (h : service.SameRange service')
    (h' : service'.SameRange service'') : service.SameRange service'' :=
  ⟨h'.1.trans h.1, h'.2.trans h.2⟩

theorem SameRange.keyGroupAt_eq (h : service.SameRange service') (index : Nat) :
    service'.keyGroupAt index = service.keyGroupAt index := by
  rw [keyGroupAt, keyGroupAt, h.1]

/-- **A service is its set of timers.** -/
theorem ext_timers (hrange : service.SameRange service')
    (h : service.timers = service'.timers) : service = service' := by
  have hgroups : service.groups = service'.groups := by
    refine ext_getElem hrange.2.symm fun index hindex hindex' => ?_
    have hgetD : ∀ {groups : List TimerGroup} (h : index < groups.length),
        groups.getD index {} = groups[index] := fun h => by simp [h]
    refine ext_timerSet fun domain timer => ?_
    rw [← hgetD hindex, ← hgetD hindex']
    have hmem := mem_timers (x := ⟨service.keyGroupAt index, domain, timer⟩) hindex rfl
    have hmem' := mem_timers (x := ⟨service.keyGroupAt index, domain, timer⟩) hindex'
      (hrange.keyGroupAt_eq index).symm
    rw [← hmem, ← hmem', h]
  obtain ⟨first, groups, bound⟩ := service
  obtain ⟨first', groups', bound'⟩ := service'
  obtain rfl : first' = first := hrange.1
  obtain rfl : groups = groups' := hgroups
  rfl

theorem sameRange_setGroup (index : Nat) (group : TimerGroup) :
    service.SameRange (service.setGroup index group) :=
  ⟨rfl, length_set⟩

theorem mem_timers_setGroup (hindex : index < service.groups.length) (group : TimerGroup) :
    x ∈ (service.setGroup index group).timers ↔
      if x.keyGroup = service.keyGroupAt index then x.timer ∈ group.timerSet x.domain
      else x ∈ service.timers := by
  have hlength : (service.setGroup index group).groups.length = service.groups.length := length_set
  split
  next hkeyGroup =>
    have hsame : x.keyGroup = (service.setGroup index group).keyGroupAt index := hkeyGroup
    rw [mem_timers (hlength.symm ▸ hindex) hsame, setGroup, getD_eq_getElem?_getD,
      List.getElem?_set_self hindex, Option.getD_some]
  next hne =>
    refine exists_congr fun i => ?_
    rw [hlength]
    refine and_congr_right fun _ => and_congr_right fun hkeyGroup => ?_
    have hcase : index ≠ i := fun heq => hne (heq ▸ hkeyGroup)
    rw [setGroup, getD_eq_getElem?_getD, getD_eq_getElem?_getD, List.getElem?_set_ne hcase]

variable {domain : TimerDomain} {set : TimerSet}

/-- The timers of one group and domain are replaced. -/
theorem timers_setTimerSet {timers : Set FiredTimer} (hindex : index < service.groups.length)
    (hset : ∀ timer, timer ∈ set ↔ ⟨service.keyGroupAt index, domain, timer⟩ ∈ timers)
    (hothers : ∀ x, ¬ (x.keyGroup = service.keyGroupAt index ∧ x.domain = domain) →
      (x ∈ service.timers ↔ x ∈ timers)) :
    (service.setGroup index ((service.groups.getD index {}).setTimerSet domain set)).timers =
        timers := by
  ext x
  rw [mem_timers_setGroup hindex]
  split
  next hkeyGroup =>
    by_cases hdomain : x.domain = domain
    · subst hdomain
      rw [timerSet_setTimerSet, hset, ← hkeyGroup]
    · rw [timerSet_setTimerSet_of_ne _ hdomain, ← mem_timers hindex hkeyGroup]
      exact hothers x fun h => hdomain h.2
  next hne => exact hothers x fun h => hne h.1

/-- The service owns the group. -/
def Owns (service : NativeTimerService) (keyGroup : UInt32) : Prop :=
  ∃ index < service.groups.length, keyGroup = service.keyGroupAt index

theorem SameRange.owns (h : service.SameRange service')
    (howns : service.Owns keyGroup) : service'.Owns keyGroup := by
  obtain ⟨index, hindex, rfl⟩ := howns
  exact ⟨index, h.2 ▸ hindex, (h.keyGroupAt_eq index).symm⟩

section

variable (howns : service.Owns keyGroup) (domain : TimerDomain) (timer : TimerKey)
include howns

/-- Registering adds the timer once. -/
theorem register_ok :
    ∃ inserted service', service.register keyGroup domain timer = .ok (inserted, service') ∧
      service.SameRange service' ∧
      (inserted = true ↔ ⟨keyGroup, domain, timer⟩ ∉ service.timers) ∧
      service'.timers = insert ⟨keyGroup, domain, timer⟩ service.timers := by
  obtain ⟨index, hindex, hkeyGroup⟩ := howns
  rw [register, groupIndex_eq_ok.mpr ⟨hindex, hkeyGroup⟩]
  refine ⟨_, _, rfl, sameRange_setGroup _ _, ?_, ?_⟩
  · rw [mem_timers hindex hkeyGroup]
    rw [Bool.not_eq_true', contains_eq_false]
  · refine timers_setTimerSet hindex (fun timer' => ?_) fun x hne => ?_
    · rw [mem_insert, Std.LawfulEqOrd.compare_eq_iff_eq, Set.mem_insert_iff,
        mem_timers hindex rfl, hkeyGroup]
      simp [eq_comm]
    · refine (or_iff_right ?_).symm
      rintro rfl
      exact hne ⟨hkeyGroup, rfl⟩

/-- Deleting takes the timer out. -/
theorem delete_ok :
    ∃ removed service', service.delete keyGroup domain timer = .ok (removed, service') ∧
      service.SameRange service' ∧
      (removed = true ↔ ⟨keyGroup, domain, timer⟩ ∈ service.timers) ∧
      service'.timers = service.timers \ {⟨keyGroup, domain, timer⟩} := by
  obtain ⟨index, hindex, hkeyGroup⟩ := howns
  rw [delete, groupIndex_eq_ok.mpr ⟨hindex, hkeyGroup⟩]
  refine ⟨_, _, rfl, sameRange_setGroup _ _, ?_, ?_⟩
  · rw [mem_timers hindex hkeyGroup]
    exact contains_iff_mem
  · refine timers_setTimerSet hindex (fun timer' => ?_) fun x hne => ?_
    · rw [mem_erase, ne_eq, Std.LawfulEqOrd.compare_eq_iff_eq, Set.mem_sdiff,
        mem_timers hindex rfl, hkeyGroup]
      simp [eq_comm, and_comm]
    · refine (and_iff_left ?_).symm
      rintro rfl
      exact hne ⟨hkeyGroup, rfl⟩

end

/-! ## The due timers -/

/-- The due timers of some groups, in their order. -/
def dueFrom (service : NativeTimerService) (domain : TimerDomain) (progress : Int64) :
    Nat → List TimerGroup → List FiredTimer
  | _, [] => []
  | offset, group :: groups =>
    ((group.timerSet domain).toList.takeWhile (isDue progress)).map
        (⟨service.keyGroupAt offset, domain, ·⟩) ++
      dueFrom service domain progress (offset + 1) groups

/-- The due timers, by key group and then in the order of the sets. -/
def due (service : NativeTimerService) (domain : TimerDomain) (progress : Int64) :
    List FiredTimer :=
  service.dueFrom domain progress 0 service.groups

/-- The order in which due timers are drained. -/
def Before (x y : FiredTimer) : Prop :=
  x.keyGroup < y.keyGroup ∨ x.keyGroup = y.keyGroup ∧ compare x.timer y.timer = .lt

variable {progress : Int64}

/-- In a set the due timers come first. -/
theorem mem_takeWhile_isDue {timer : TimerKey} :
    timer ∈ set.toList.takeWhile (isDue progress) ↔ timer ∈ set ∧ timer.timestamp ≤ progress := by
  have hsorted : set.toList.Pairwise fun a b => compare a b = .lt := ordered_toList
  rw [← mem_toList (t := set)]
  generalize set.toList = l at hsorted
  induction l with
  | nil => simp
  | cons first l ih =>
    obtain ⟨hfirst, hl⟩ := pairwise_cons.mp hsorted
    rw [takeWhile_cons]
    by_cases hdue : isDue progress first = true
    · have hle : first.timestamp ≤ progress := by simpa [isDue] using hdue
      rw [if_pos hdue, mem_cons, mem_cons]
      constructor
      · rintro (rfl | h)
        · exact ⟨Or.inl rfl, hle⟩
        · exact ⟨Or.inr ((ih hl).mp h).1, ((ih hl).mp h).2⟩
      · rintro ⟨rfl | h, htime⟩
        · exact Or.inl rfl
        · exact Or.inr ((ih hl).mpr ⟨h, htime⟩)
    · rw [if_neg hdue]
      refine ⟨by simp, ?_⟩
      rintro ⟨hmem, htime⟩
      refine absurd ?_ hdue
      rcases mem_cons.mp hmem with rfl | hmem
      · simpa [isDue] using htime
      · -- a timer behind the first one is not earlier
        have hlt := hfirst timer hmem
        rw [TimerKey.compare_def] at hlt
        have hle : (compare first.timestamp timer.timestamp).isLE = true := by
          rcases hcmp : compare first.timestamp timer.timestamp with _ | _ | _
          · rfl
          · rfl
          · simp [hcmp] at hlt
        have : first.timestamp ≤ timer.timestamp := Std.isLE_compare.mp hle
        simpa [isDue] using Int64.le_trans this htime

variable {offset : Nat} {groups : List TimerGroup}

theorem mem_dueFrom : x ∈ service.dueFrom domain progress offset groups ↔
      x.domain = domain ∧ x.timer.timestamp ≤ progress ∧
        ∃ index < groups.length, x.keyGroup = service.keyGroupAt (offset + index) ∧
          x.timer ∈ (groups.getD index {}).timerSet domain := by
  induction groups generalizing offset with
  | nil => simp [dueFrom]
  | cons group groups ih =>
    rw [dueFrom, mem_append, mem_map, ih]
    constructor
    · rintro (⟨timer, htimer, rfl⟩ | ⟨hdomain, htime, index, hindex, hkeyGroup, hmem⟩)
      · rw [mem_takeWhile_isDue] at htimer
        exact ⟨rfl, htimer.2, 0, by simp, rfl, htimer.1⟩
      · exact ⟨hdomain, htime, index + 1, by simpa using hindex,
          by rw [hkeyGroup]; congr 1; omega, by simpa using hmem⟩
    · rintro ⟨hdomain, htime, index, hindex, hkeyGroup, hmem⟩
      rcases index with _ | index
      · refine Or.inl ⟨x.timer, mem_takeWhile_isDue.mpr ⟨hmem, htime⟩, ?_⟩
        obtain ⟨g, d, t⟩ := x
        obtain rfl : d = domain := hdomain
        obtain rfl : g = service.keyGroupAt offset := hkeyGroup
        rfl
      · exact Or.inr ⟨hdomain, htime, index, by simpa using hindex,
          by rw [hkeyGroup]; congr 1; omega, by simpa using hmem⟩

/-- The due timers are those up to the progress. -/
theorem mem_due : x ∈ service.due domain progress ↔
      x ∈ service.timers ∧ x.domain = domain ∧ x.timer.timestamp ≤ progress := by
  rw [due, mem_dueFrom]
  constructor
  · rintro ⟨hdomain, htime, index, hindex, hkeyGroup, hmem⟩
    rw [Nat.zero_add] at hkeyGroup
    exact ⟨⟨index, hindex, hkeyGroup, hdomain.symm ▸ hmem⟩, hdomain, htime⟩
  · rintro ⟨⟨index, hindex, hkeyGroup, hmem⟩, hdomain, htime⟩
    exact ⟨hdomain, htime, index, hindex, by rw [Nat.zero_add]; exact hkeyGroup, hdomain ▸ hmem⟩

/-- The due timers are in order. -/
theorem dueFrom_sorted (h : offset + groups.length ≤ service.groups.length) :
    (service.dueFrom domain progress offset groups).Pairwise Before := by
  induction groups generalizing offset with
  | nil => exact List.Pairwise.nil
  | cons group groups ih =>
    rw [length_cons] at h
    rw [dueFrom, pairwise_append]
    refine ⟨?_, ih (by omega), ?_⟩
    · rw [pairwise_map]
      have hsorted : ((group.timerSet domain).toList.takeWhile (isDue progress)).Pairwise
          fun a b => compare a b = .lt :=
        ordered_toList.sublist (takeWhile_sublist _)
      exact hsorted.imp fun hlt => Or.inr ⟨rfl, hlt⟩
    · intro x hx y hy
      obtain ⟨timer, -, rfl⟩ := mem_map.mp hx
      obtain ⟨-, -, index, hindex, hkeyGroup, -⟩ := mem_dueFrom.mp hy
      refine Or.inl ?_
      rw [hkeyGroup, UInt32.lt_iff_toNat_lt, toNat_keyGroupAt (by omega),
        toNat_keyGroupAt (by omega)]
      omega

theorem due_sorted : (service.due domain progress).Pairwise Before :=
  dueFrom_sorted (by omega)

theorem Before.asymm {y : FiredTimer} (h : Before x y) : ¬ Before y x := by
  rcases h with h | ⟨h, hlt⟩
  · rintro (h' | ⟨h', -⟩)
    · exact absurd (UInt32.lt_trans h h') (UInt32.lt_irrefl _)
    · exact UInt32.lt_irrefl _ (h' ▸ h)
  · rintro (h' | ⟨-, hlt'⟩)
    · exact UInt32.lt_irrefl _ (h ▸ h')
    · exact absurd hlt' (Std.OrientedCmp.not_lt_of_lt hlt)

/-- Some timers have been taken out. -/
structure Removes (service : NativeTimerService) (fired : List FiredTimer)
    (service' : NativeTimerService) : Prop where
  range : service.SameRange service'
  mem_iff : ∀ x, x ∈ service'.timers ↔ x ∈ service.timers ∧ x ∉ fired

theorem Removes.trans {fired fired' : List FiredTimer}
    (h : service.Removes fired service') (h' : service'.Removes fired' service'') :
    service.Removes (fired ++ fired') service'' := by
  refine ⟨h.range.trans h'.range, fun x => ?_⟩
  rw [h'.mem_iff, h.mem_iff, mem_append, not_or, and_assoc]

/-- What is left of the due timers when a front part of them has been taken. -/
theorem Removes.due_eq {n : Nat}
    (h : service.Removes ((service.due domain progress).take n) service') :
    service'.due domain progress = (service.due domain progress).drop n := by
  have hsorted : (service.due domain progress).Pairwise Before := due_sorted
  refine SortedEntries.eq_of_pairwise Before.asymm due_sorted
    (hsorted.sublist (drop_sublist _ _)) fun x => ?_
  have hsplit := take_append_drop n (service.due domain progress)
  rw [mem_due, h.mem_iff]
  constructor
  · rintro ⟨⟨hmem, hnot⟩, hdomain, htime⟩
    have hdue : x ∈ service.due domain progress := mem_due.mpr ⟨hmem, hdomain, htime⟩
    rw [← hsplit, mem_append] at hdue
    exact hdue.resolve_left hnot
  · intro hx
    obtain ⟨hmem, hdomain, htime⟩ := mem_due.mp (mem_of_mem_drop hx)
    refine ⟨⟨hmem, fun htake => ?_⟩, hdomain, htime⟩
    rw [← hsplit, pairwise_append] at hsorted
    exact (hsorted.2.2 x htake x hx).asymm (hsorted.2.2 x htake x hx)

/-! ## The ways to take them -/

section

variable (service) (domain) (progress)

/-- The first due timers are taken out, group by group. -/
theorem advanceFrom_spec (offset limit : Nat) (groups : List TimerGroup)
    (h : offset + groups.length ≤ service.groups.length) :
    (service.advanceFrom domain progress offset limit groups).1 =
        (service.dueFrom domain progress offset groups).take limit ∧
      ∀ index < groups.length, ∀ domain' timer,
        timer ∈ ((service.advanceFrom domain progress offset limit groups).2.getD index {}).timerSet
          domain' ↔
          timer ∈ (groups.getD index {}).timerSet domain' ∧
            ⟨service.keyGroupAt (offset + index), domain', timer⟩ ∉
              (service.advanceFrom domain progress offset limit groups).1 := by
  induction groups generalizing offset limit with
  | nil => simp [advanceFrom, dueFrom]
  | cons group groups ih =>
    rw [length_cons] at h
    unfold advanceFrom
    split
    next hzero =>
      subst hzero
      simp
    next hpos =>
      obtain ⟨hpop, hpopMem⟩ := popDue_spec progress limit (group.timerSet domain)
      obtain ⟨hrest, hrestMem⟩ := ih (offset + 1)
        (limit - (popDue progress limit (group.timerSet domain)).1.length) (by omega)
      dsimp only
      have hlater : ∀ timer domain', ⟨service.keyGroupAt offset, domain', timer⟩ ∉
          (service.advanceFrom domain progress (offset + 1)
            (limit - (popDue progress limit (group.timerSet domain)).1.length) groups).1 := by
        intro timer domain' hin
        rw [hrest] at hin
        obtain ⟨-, -, index, hindex, hkeyGroup, -⟩ := mem_dueFrom.mp (mem_of_mem_take hin)
        have := keyGroupAt_injective (by omega) (by omega) hkeyGroup
        omega
      refine ⟨?_, ?_⟩
      · rw [dueFrom, take_append, length_map, hrest, hpop, map_take, length_take]
        congr 2
        omega
      · rintro (_ | index) hindex domain' timer
        · have hfirst : offset + 0 = offset := rfl
          rw [getD_cons_zero, getD_cons_zero, mem_append, not_or, hfirst,
            and_iff_left (hlater timer domain')]
          by_cases hdomain : domain' = domain
          · subst hdomain
            rw [timerSet_setTimerSet, hpopMem]
            simp
          · rw [timerSet_setTimerSet_of_ne _ hdomain]
            refine ⟨fun hmem => ⟨hmem, fun hin => ?_⟩, fun hmem => hmem.1⟩
            obtain ⟨_, -, heq⟩ := mem_map.mp hin
            cases heq
            exact hdomain rfl
        · rw [getD_cons_succ, getD_cons_succ, hrestMem index (by simpa using hindex),
            mem_append, not_or]
          have hoffset : offset + 1 + index = offset + (index + 1) := by omega
          rw [hoffset]
          refine and_congr_right fun _ => ⟨fun hnot => ⟨fun hin => ?_, hnot⟩, fun hnot => hnot.2⟩
          obtain ⟨_, -, heq⟩ := mem_map.mp hin
          have hkeyGroup := congrArg FiredTimer.keyGroup heq
          have := keyGroupAt_injective (by omega) (by simp at hindex; omega) hkeyGroup
          omega

/-- **`advanceLimited`** takes a front part of the due timers. -/
theorem advanceLimited_spec (limit : Nat) :
    (service.advanceLimited domain progress limit).1 = (service.due domain progress).take limit ∧
      service.Removes ((service.due domain progress).take limit)
        (service.advanceLimited domain progress limit).2 := by
  obtain ⟨hfired, hmem⟩ :=
    advanceFrom_spec service domain progress 0 limit service.groups (by omega)
  refine ⟨hfired, ⟨rfl, length_advanceFrom ..⟩, fun x => ?_⟩
  have hlength := length_advanceFrom service domain progress 0 limit service.groups
  rw [hfired] at hmem
  constructor
  · rintro ⟨index, hindex, hkeyGroup, hin⟩
    change index < (service.advanceFrom domain progress 0 limit service.groups).2.length at hindex
    rw [hlength] at hindex
    obtain ⟨hin, hnot⟩ := (hmem index hindex x.domain x.timer).mp hin
    rw [Nat.zero_add] at hnot
    change x.keyGroup = service.keyGroupAt index at hkeyGroup
    refine ⟨⟨index, hindex, hkeyGroup, hin⟩, ?_⟩
    rw [← hkeyGroup] at hnot
    exact hnot
  · rintro ⟨⟨index, hindex, hkeyGroup, hin⟩, hnot⟩
    refine ⟨index, ?_, hkeyGroup, (hmem index hindex x.domain x.timer).mpr ⟨hin, ?_⟩⟩
    · change index < (service.advanceFrom domain progress 0 limit service.groups).2.length
      rw [hlength]
      exact hindex
    · rw [Nat.zero_add, ← hkeyGroup]
      exact hnot

/-- The loop that stops at the count takes out the same timers. -/
theorem moveFrom_eq (offset count : Nat) (groups : List TimerGroup) :
    service.moveFrom domain progress offset count groups =
      service.advanceFrom domain progress offset count groups := by
  induction groups generalizing offset count with
  | nil => rfl
  | cons group groups ih =>
    unfold moveFrom advanceFrom
    dsimp only
    by_cases hzero : count = 0
    · subst hzero
      simp [popDue]
    · rw [if_neg hzero]
      split
      next hfull =>
        have hnone : service.advanceFrom domain progress (offset + 1) 0 groups = ([], groups) := by
          cases groups <;> simp [advanceFrom]
        rw [hfull, Nat.sub_self, hnone, append_nil]
      next => rw [ih]

theorem length_due_eq :
    (service.due domain progress).length = (service.groups.flatMap fun group =>
      (group.timerSet domain).toList.takeWhile (isDue progress)).length := by
  have hfrom : ∀ (groups : List TimerGroup) (offset : Nat),
      (service.dueFrom domain progress offset groups).length = (groups.flatMap fun group =>
        (group.timerSet domain).toList.takeWhile (isDue progress)).length := by
    intro groups
    induction groups with
    | nil => exact fun _ => rfl
    | cons group groups ih =>
      intro offset
      rw [dueFrom, flatMap_cons, length_append, length_append, length_map, ih]
  exact hfrom _ _

/-- **`advanceOwnedLimited`** does the same. -/
theorem advanceOwnedLimited_spec (limit : Nat) :
    (service.advanceOwnedLimited domain progress limit).1 =
      (service.due domain progress).take limit ∧
      service.Removes ((service.due domain progress).take limit)
        (service.advanceOwnedLimited domain progress limit).2 := by
  have heq : service.advanceOwnedLimited domain progress limit =
      service.advanceLimited domain progress (service.dueCount domain progress limit) := by
    unfold advanceOwnedLimited advanceLimited
    simp only [moveFrom_eq]
  have hcount : service.dueCount domain progress limit =
      min limit (service.due domain progress).length := by
    rw [dueCount, length_take, length_due_eq]
  have htake : (service.due domain progress).take (service.dueCount domain progress limit) =
      (service.due domain progress).take limit := by
    rw [hcount, ← take_take, take_length]
  have := advanceLimited_spec service domain progress (service.dueCount domain progress limit)
  rw [htake] at this
  rw [heq]
  exact this

theorem nextDueFrom_eq (offset : Nat) (groups : List TimerGroup) :
    service.nextDueFrom domain progress offset groups =
      (service.dueFrom domain progress offset groups).head?.map fun x => (x.keyGroup, x.timer) := by
  induction groups generalizing offset with
  | nil => rfl
  | cons group groups ih =>
    rw [nextDueFrom, dueFrom, min?_eq_head?_toList]
    rcases (group.timerSet domain).toList with _ | ⟨first, rest⟩
    · simp [ih]
    · by_cases hdue : isDue progress first = true
      · simp [hdue, Option.filter]
      · simp [hdue, Option.filter, ih]

/-- **Looking and deleting** takes one timer. -/
theorem peekAndDelete_spec :
    ∃ service', service.peekAndDelete domain progress =
      .ok ((service.due domain progress).take 1, service') ∧
      service.Removes ((service.due domain progress).take 1) service' := by
  have hnext : service.nextDue domain progress =
      (service.due domain progress).head?.map fun x => (x.keyGroup, x.timer) :=
    nextDueFrom_eq ..
  unfold peekAndDelete
  rw [hnext]
  rcases hdue : service.due domain progress with _ | ⟨x, rest⟩
  · exact ⟨service, rfl, ⟨rfl, rfl⟩, by simp⟩
  · have hx : x ∈ service.due domain progress := by
      rw [hdue]
      exact mem_cons_self
    obtain ⟨hmem, hdomain, -⟩ := mem_due.mp hx
    obtain ⟨index, hindex, hkeyGroup, -⟩ := hmem
    obtain ⟨removed, service', hdelete, hrange, -, htimers⟩ :=
      delete_ok ⟨index, hindex, hkeyGroup⟩ domain x.timer
    have hself : (⟨x.keyGroup, domain, x.timer⟩ : FiredTimer) = x := by
      obtain ⟨g, d, t⟩ := x
      obtain rfl : d = domain := hdomain
      rfl
    dsimp only [List.head?_cons, Option.map_some]
    rw [hdelete, ok_bind]
    rw [hself]
    refine ⟨service', rfl, hrange, fun y => ?_⟩
    rw [htimers, hself]
    simp

end

/-! ## Repeated calls -/

/-- The due timers are gone, the others are kept. -/
def Advanced (service : NativeTimerService) (domain : TimerDomain) (progress : Int64)
    (service' : NativeTimerService) : Prop :=
  service.SameRange service' ∧ service'.timers =
    { x | x ∈ service.timers ∧ ¬ (x.domain = domain ∧ x.timer.timestamp ≤ progress) }

theorem Removes.advanced (h : service.Removes (service.due domain progress) service') :
    service.Advanced domain progress service' := by
  refine ⟨h.range, ?_⟩
  ext x
  rw [h.mem_iff, mem_due]
  exact and_congr_right fun hx => not_congr (and_iff_right hx)

variable {limit : Nat}

theorem serves_of_spec {advance : NativeTimerService → List FiredTimer × NativeTimerService}
    (hlimit : 0 < limit)
    (hspec : ∀ service, (advance service).1 = (service.due domain progress).take limit ∧
      service.Removes ((service.due domain progress).take limit) (advance service).2) :
    Drain.Serves (ε := StateError) (due · domain progress) Removes fun service =>
        .ok (advance service) := by
  intro service
  obtain ⟨hfired, hremoves⟩ := hspec service
  exact ⟨limit, _, hlimit, congrArg ok (Prod.ext hfired rfl), hremoves, hremoves.due_eq⟩

theorem serves_peekAndDelete (domain : TimerDomain) (progress : Int64) :
    Drain.Serves (due · domain progress) Removes fun service =>
        service.peekAndDelete domain progress := by
  intro service
  obtain ⟨service', hstep, hremoves⟩ := peekAndDelete_spec service domain progress
  exact ⟨1, service', Nat.one_pos, hstep, hremoves, hremoves.due_eq⟩

/-- Every way to take due timers, repeated until nothing is returned, takes the list of the due
timers and leaves the service without them.  It ends after at most one call for each of them and one
more. -/
theorem drain_advances {κ : Type}
    {step : κ → NativeTimerService → Except StateError (List FiredTimer × NativeTimerService)}
    {calls : List κ} (hstep : ∀ k ∈ calls, Drain.Serves (due · domain progress) Removes (step k))
    (service : NativeTimerService) :
    ∃ result, Drain.drain step calls service = .ok result ∧
      (∀ fired service', result = some (fired, service') →
        fired = service.due domain progress ∧ service.Advanced domain progress service') ∧
      ((service.due domain progress).length < calls.length → result.isSome = true) := by
  obtain ⟨result, hresult, hspec, hsome⟩ := Drain.drain_of_serves
    (fun _ _ _ _ _ => Removes.trans) hstep service
  refine ⟨result, hresult, fun fired service' heq => ?_, hsome⟩
  obtain ⟨hfired, hremoves⟩ := hspec fired service' heq
  exact ⟨hfired, hremoves.advanced⟩

/-! ## A batch of registrations -/

/-- Registers one after the other and collects the key groups of the new ones. -/
def registerAll (service : NativeTimerService) :
    List (UInt32 × TimerDomain × TimerKey) → Except StateError (List UInt32 × NativeTimerService)
  | [] => .ok ([], service)
  | (keyGroup, domain, timer) :: timers => do
    let (inserted, service) ← service.register keyGroup domain timer
    let (rest, service) ← registerAll service timers
    .ok (if inserted then keyGroup :: rest else rest, service)

theorem group_ok (hindex : index < service.groups.length) :
    service.group (service.keyGroupAt index) = .ok (service.groups.getD index {}) := by
  rw [group, groupIndex_eq_ok.mpr ⟨hindex, rfl⟩]
  rfl

/-- The timers that a batch has marked so far are in the service that it has filled so far. -/
theorem selectNew_ok (start : NativeTimerService)
    (timers seen : List (UInt32 × TimerDomain × TimerKey)) (hrange : start.SameRange service)
    (hseen : ∀ x : FiredTimer, x ∈ service.timers ↔ x ∈ start.timers ∨
      (x.keyGroup, x.domain, x.timer) ∈ seen)
    (howns : ∀ item ∈ timers, start.Owns item.1) :
    ∃ selected, start.selectNew seen timers = .ok selected ∧
      service.insertSelected (timers.zip selected) = service.registerAll timers := by
  induction timers generalizing service seen with
  | nil => exact ⟨[], rfl, rfl⟩
  | cons item timers ih =>
    obtain ⟨keyGroup, domain, timer⟩ := item
    obtain ⟨⟨index, hindex, hkeyGroup⟩, hrest⟩ := forall_mem_cons.mp howns
    subst hkeyGroup
    obtain ⟨inserted, service₁, hregister, hrange₁, hinserted, htimers⟩ :=
      register_ok (hrange.owns ⟨index, hindex, rfl⟩) domain timer
    have hinsert : (!((start.groups.getD index {}).timerSet domain).contains timer &&
        !seen.contains (start.keyGroupAt index, domain, timer)) = inserted := by
      rw [Bool.eq_iff_iff, hinserted, hseen,
        mem_timers (x := ⟨start.keyGroupAt index, domain, timer⟩) hindex rfl, Bool.and_eq_true,
        Bool.not_eq_true', Bool.not_eq_true', contains_eq_false, not_or]
      simp
    rw [selectNew, group_ok hindex, ok_bind]
    rw [hinsert, registerAll, hregister, ok_bind]
    dsimp only
    cases inserted with
    | true =>
      obtain ⟨selected, hselect, hsame⟩ := ih ((start.keyGroupAt index, domain, timer) :: seen)
        (hrange.trans hrange₁) (fun x => by
          rw [htimers, Set.mem_insert_iff, hseen, mem_cons]
          obtain ⟨g, d, t⟩ := x
          simp only [FiredTimer.mk.injEq, Prod.mk.injEq]
          tauto) hrest
      refine ⟨true :: selected, by rw [if_pos rfl, hselect]; rfl, ?_⟩
      rw [zip_cons_cons, insertSelected, if_pos rfl, hregister, ok_bind]
      dsimp only
      rw [hsame]
      rfl
    | false =>
      have hmem : ⟨start.keyGroupAt index, domain, timer⟩ ∈ service.timers := by
        by_contra hnot
        simpa using hinserted.mpr hnot
      have hsame₁ : service₁ = service :=
        (ext_timers hrange₁ (by rw [htimers, Set.insert_eq_of_mem hmem])).symm
      obtain ⟨selected, hselect, hsame⟩ := ih seen hrange hseen hrest
      refine ⟨false :: selected, by rw [if_neg Bool.false_ne_true, hselect]; rfl, ?_⟩
      rw [zip_cons_cons, insertSelected, if_neg Bool.false_ne_true, hsame, hsame₁]
      rcases service.registerAll timers with _ | ⟨rest, final⟩ <;> rfl

variable {timers : List (UInt32 × TimerDomain × TimerKey)}

/-- **A batch of registrations** is the registrations one after the other. -/
theorem registerBatch_eq (howns : ∀ item ∈ timers, service.Owns item.1) :
    service.registerBatch timers = service.registerAll timers := by
  obtain ⟨selected, hselect, hsame⟩ := selectNew_ok service timers [] ⟨rfl, rfl⟩ (by simp) howns
  rw [registerBatch, hselect]
  exact hsame

/-- Registering timers adds them all. -/
theorem registerAll_ok (howns : ∀ item ∈ timers, service.Owns item.1) :
    ∃ inserted service', service.registerAll timers = .ok (inserted, service') ∧
      service.SameRange service' ∧ service'.timers =
        service.timers ∪ { x | (x.keyGroup, x.domain, x.timer) ∈ timers } := by
  induction timers generalizing service with
  | nil => exact ⟨[], service, rfl, ⟨rfl, rfl⟩, by simp⟩
  | cons item timers ih =>
    obtain ⟨keyGroup, domain, timer⟩ := item
    obtain ⟨hown, howns⟩ := forall_mem_cons.mp howns
    obtain ⟨inserted, service₁, hregister, hrange₁, -, htimers⟩ := register_ok hown domain timer
    obtain ⟨rest, service₂, hrest, hrange₂, htimers₂⟩ :=
      ih fun item hitem => hrange₁.owns (howns item hitem)
    refine ⟨_, service₂, by
      rw [registerAll, hregister, ok_bind]
      dsimp only
      rw [hrest]
      rfl,
      hrange₁.trans hrange₂, ?_⟩
    rw [htimers₂, htimers]
    ext x
    obtain ⟨g, d, t⟩ := x
    simp only [Set.mem_union, Set.mem_insert_iff, Set.mem_ofPred_eq, mem_cons, FiredTimer.mk.injEq,
      Prod.mk.injEq]
    tauto

end NativeTimerService

end StreamFusion.State.TimerService
