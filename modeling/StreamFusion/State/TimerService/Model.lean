import StreamFusion.State.Backend
import StreamFusion.State.Timers

/-!
# The native timer service

The timer service (`state/timer.rs`) keeps for every owned key group and each of the two clock
domains an ordered set of timers.  `State.Timers` has the timers of all groups in one list, as an
operator sees them.  Here are the sets of every group, the four ways to take due timers out of them,
the registration of a whole batch, and the snapshot of a key group.

The bytes that the service accounts for, and the host that may refuse them, are left out.
-/

namespace StreamFusion.State.TimerService

open Wire

/-- The identity of a timer inside its key group. -/
structure TimerKey where
  timestamp : Int64
  key : Bytes
  space : Bytes
  deriving DecidableEq, Repr

/-- By time, then by key and namespace. -/
instance : Ord TimerKey where
  compare := compareLex (compareOn TimerKey.timestamp)
    (compareLex (compareOn TimerKey.key) (compareOn TimerKey.space))

instance : Std.TransOrd TimerKey :=
  inferInstanceAs (Std.TransCmp (compareLex (compareOn TimerKey.timestamp)
    (compareLex (compareOn TimerKey.key) (compareOn TimerKey.space))))

theorem TimerKey.compare_def (a b : TimerKey) : compare a b = (compare a.timestamp b.timestamp).then
      ((compare a.key b.key).then (compare a.space b.space)) := rfl

instance : Std.LawfulEqOrd TimerKey where
  eq_of_compare {a b} h := by
    rw [TimerKey.compare_def, Ordering.then_eq_eq, Ordering.then_eq_eq] at h
    obtain ⟨ta, ka, sa⟩ := a
    obtain ⟨tb, kb, sb⟩ := b
    rw [TimerKey.mk.injEq]
    exact ⟨Std.LawfulEqOrd.eq_of_compare h.1, Std.LawfulEqOrd.eq_of_compare h.2.1,
      Std.LawfulEqOrd.eq_of_compare h.2.2⟩

/-- A timer with its group and domain. -/
structure FiredTimer where
  keyGroup : UInt32
  domain : TimerDomain
  timer : TimerKey
  deriving DecidableEq, Repr

/-- The timers of a domain in order. -/
abbrev TimerSet := Std.ExtTreeSet TimerKey compare

/-- The timers of a key group. -/
structure TimerGroup where
  eventTime : TimerSet := ∅
  processingTime : TimerSet := ∅

namespace TimerGroup

/-- The timers of a domain. -/
def timerSet (group : TimerGroup) : TimerDomain → TimerSet
  | .eventTime => group.eventTime
  | .processingTime => group.processingTime

/-- Sets the timers of a domain. -/
def setTimerSet (group : TimerGroup) (domain : TimerDomain) (timers : TimerSet) : TimerGroup :=
  match domain with
  | .eventTime => { group with eventTime := timers }
  | .processingTime => { group with processingTime := timers }

end TimerGroup

/-- The owned key groups, from the first one on.  They are all 32-bit numbers. -/
structure NativeTimerService where
  firstKeyGroup : UInt32
  groups : List TimerGroup
  bound : firstKeyGroup.toNat + groups.length ≤ 2 ^ 32

/-- The error of a group that the subtask does not own. -/
def notOwned (keyGroup : UInt32) : StateError :=
  .execution ("timer key group " ++ toString keyGroup ++ " is not owned by this subtask")

namespace NativeTimerService

/-- The key group of an index. -/
def keyGroupAt (service : NativeTimerService) (offset : Nat) : UInt32 :=
  UInt32.ofNat (service.firstKeyGroup.toNat + offset)

/-- The index of a key group. -/
def groupIndex (service : NativeTimerService) (keyGroup : UInt32) : Except StateError Nat :=
  if service.firstKeyGroup.toNat ≤ keyGroup.toNat then
    let index := keyGroup.toNat - service.firstKeyGroup.toNat
    if service.groups.length ≤ index then .error (notOwned keyGroup) else .ok index
  else
    .error (notOwned keyGroup)

/-- The timers of a key group. -/
def group (service : NativeTimerService) (keyGroup : UInt32) : Except StateError TimerGroup := do
  let index ← service.groupIndex keyGroup
  .ok (service.groups.getD index {})

/-- The service with another group at a position. -/
def setGroup (service : NativeTimerService) (index : Nat) (group : TimerGroup) :
    NativeTimerService :=
  ⟨service.firstKeyGroup, service.groups.set index group, by
    rw [List.length_set]
    exact service.bound⟩

/-! ## Registering and deleting -/

/-- Answers whether the timer is new. -/
def register (service : NativeTimerService) (keyGroup : UInt32) (domain : TimerDomain)
    (timer : TimerKey) : Except StateError (Bool × NativeTimerService) := do
  let index ← service.groupIndex keyGroup
  let group := service.groups.getD index {}
  let timers := group.timerSet domain
  .ok (!timers.contains timer,
    service.setGroup index (group.setTimerSet domain (timers.insert timer)))

/-- Answers whether the timer was there. -/
def delete (service : NativeTimerService) (keyGroup : UInt32) (domain : TimerDomain)
    (timer : TimerKey) : Except StateError (Bool × NativeTimerService) := do
  let index ← service.groupIndex keyGroup
  let group := service.groups.getD index {}
  let timers := group.timerSet domain
  .ok (timers.contains timer,
    service.setGroup index (group.setTimerSet domain (timers.erase timer)))

/-- The items of a batch that are neither registered nor repeated in it, marked in order. -/
def selectNew (service : NativeTimerService) :
    List (UInt32 × TimerDomain × TimerKey) → List (UInt32 × TimerDomain × TimerKey) →
      Except StateError (List Bool)
  | _, [] => .ok []
  | seen, (keyGroup, domain, timer) :: timers => do
    let group ← service.group keyGroup
    let insert := !(group.timerSet domain).contains timer &&
      !seen.contains (keyGroup, domain, timer)
    let selected ← selectNew service
      (if insert then (keyGroup, domain, timer) :: seen else seen) timers
    .ok (insert :: selected)

/-- Inserts the marked items; answers their key groups. -/
def insertSelected (service : NativeTimerService) :
    List ((UInt32 × TimerDomain × TimerKey) × Bool) →
      Except StateError (List UInt32 × NativeTimerService)
  | [] => .ok ([], service)
  | ((keyGroup, domain, timer), insert) :: timers =>
    if insert then do
      let (_, service) ← service.register keyGroup domain timer
      let (inserted, service) ← insertSelected service timers
      .ok (keyGroup :: inserted, service)
    else
      insertSelected service timers

/-- All groups are checked before anything is inserted. -/
def registerBatch (service : NativeTimerService) (timers : List (UInt32 × TimerDomain × TimerKey)) :
    Except StateError (List UInt32 × NativeTimerService) := do
  let selected ← service.selectNew [] timers
  service.insertSelected (timers.zip selected)

/-! ## Taking due timers -/

/-- Is the timer due? -/
def isDue (progress : Int64) (timer : TimerKey) : Bool := timer.timestamp ≤ progress

/-- The first due timer of the first group that has one. -/
def nextDueFrom (service : NativeTimerService) (domain : TimerDomain) (progress : Int64) :
    Nat → List TimerGroup → Option (UInt32 × TimerKey)
  | _, [] => none
  | offset, group :: groups =>
    match (group.timerSet domain).min?.filter (isDue progress) with
    | some timer => some (service.keyGroupAt offset, timer)
    | none => nextDueFrom service domain progress (offset + 1) groups

/-- The first due timer. -/
def nextDue (service : NativeTimerService) (domain : TimerDomain) (progress : Int64) :
    Option (UInt32 × TimerKey) :=
  service.nextDueFrom domain progress 0 service.groups

/-- Takes out so many due timers. -/
def popDue (progress : Int64) : Nat → TimerSet → List TimerKey × TimerSet
  | 0, timers => ([], timers)
  | limit + 1, timers =>
    match timers.min? with
    | none => ([], timers)
    | some first =>
      if progress < first.timestamp then
        ([], timers)
      else
        let (fired, timers) := popDue progress limit (timers.erase first)
        (first :: fired, timers)

/-- Pops due timers of group after group, at most `limit`. -/
def advanceFrom (service : NativeTimerService) (domain : TimerDomain) (progress : Int64) :
    Nat → Nat → List TimerGroup → List FiredTimer × List TimerGroup
  | _, _, [] => ([], [])
  | offset, limit, group :: groups =>
    if limit = 0 then
      ([], group :: groups)
    else
      let (fired, timers) := popDue progress limit (group.timerSet domain)
      let (rest, groups) :=
        advanceFrom service domain progress (offset + 1) (limit - fired.length) groups
      (fired.map (⟨service.keyGroupAt offset, domain, ·⟩) ++ rest,
        group.setTimerSet domain timers :: groups)

section

variable (service : NativeTimerService) (domain : TimerDomain) (progress : Int64)

theorem length_advanceFrom (offset limit : Nat) (groups : List TimerGroup) :
    (service.advanceFrom domain progress offset limit groups).2.length = groups.length := by
  induction groups generalizing offset limit with
  | nil => rfl
  | cons group groups ih =>
    unfold advanceFrom
    split
    · rfl
    · simp [ih]

/-- Takes out so many due timers, group by group. -/
def advanceLimited (service : NativeTimerService) (domain : TimerDomain) (progress : Int64)
    (limit : Nat) : List FiredTimer × NativeTimerService :=
  let result := service.advanceFrom domain progress 0 limit service.groups
  (result.1, ⟨service.firstKeyGroup, result.2, by
    rw [length_advanceFrom]
    exact service.bound⟩)

/-- Takes out all due timers. -/
def advance (service : NativeTimerService) (domain : TimerDomain) (progress : Int64) :
    List FiredTimer × NativeTimerService :=
  service.advanceLimited domain progress (usizeLimit - 1)

/-- The loop of `advanceOwnedLimited`: it goes on to the next group only if `count` is not
reached. -/
def moveFrom (service : NativeTimerService) (domain : TimerDomain) (progress : Int64) :
    Nat → Nat → List TimerGroup → List FiredTimer × List TimerGroup
  | _, _, [] => ([], [])
  | offset, count, group :: groups =>
    let (fired, timers) := popDue progress count (group.timerSet domain)
    let fired' := fired.map (⟨service.keyGroupAt offset, domain, ·⟩)
    if fired.length = count then
      (fired', group.setTimerSet domain timers :: groups)
    else
      let (rest, groups) :=
        moveFrom service domain progress (offset + 1) (count - fired.length) groups
      (fired' ++ rest, group.setTimerSet domain timers :: groups)

theorem length_moveFrom (offset count : Nat) (groups : List TimerGroup) :
    (service.moveFrom domain progress offset count groups).2.length = groups.length := by
  induction groups generalizing offset count with
  | nil => rfl
  | cons group groups ih =>
    unfold moveFrom
    dsimp only
    split
    · rfl
    · simp [ih]

end

/-- The number of due timers, up to a limit. -/
def dueCount (service : NativeTimerService) (domain : TimerDomain) (progress : Int64)
    (limit : Nat) : Nat :=
  ((service.groups.flatMap fun group =>
    (group.timerSet domain).toList.takeWhile (isDue progress)).take limit).length

/-- Counts first, and then moves that many timers into the batch it returns. -/
def advanceOwnedLimited (service : NativeTimerService) (domain : TimerDomain) (progress : Int64)
    (limit : Nat) : List FiredTimer × NativeTimerService :=
  let result := service.moveFrom domain progress 0 (service.dueCount domain progress limit)
    service.groups
  (result.1, ⟨service.firstKeyGroup, result.2, by
    rw [length_moveFrom]
    exact service.bound⟩)

/-- Looks at the next due timer and deletes it. -/
def peekAndDelete (service : NativeTimerService) (domain : TimerDomain) (progress : Int64) :
    Except StateError (List FiredTimer × NativeTimerService) :=
  match service.nextDue domain progress with
  | none => .ok ([], service)
  | some (keyGroup, timer) => do
    let (_, service) ← service.delete keyGroup domain timer
    .ok ([⟨keyGroup, domain, timer⟩], service)

end NativeTimerService

end StreamFusion.State.TimerService
