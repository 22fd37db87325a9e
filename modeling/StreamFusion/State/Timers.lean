import StreamFusion.State.Backend

/-!
# The timer service

An operator registers timers with the native timer service (`state/timer.rs`) and receives those
that are due when its clock advances.  A timer is identified by its time, its key and its namespace,
and registering it twice is registering it once.

The source keeps one ordered set for every key group and clock domain and drains the groups in their
order.  Here the key group is part of the key, so that one list for each domain, ordered by key
group, time, key and namespace, has the timers in the order in which the source fires them.  The
bytes that the service accounts for are left out.
-/

namespace StreamFusion.State

open List

/-- Event time and processing time. -/
inductive TimerDomain where
  | eventTime
  | processingTime
  deriving DecidableEq, Repr

theorem TimerDomain.processingTime_ne_eventTime :
    TimerDomain.processingTime ≠ TimerDomain.eventTime := TimerDomain.noConfusion

/-- A timer of a key within its namespace. -/
structure TimerKey (ν : Type) where
  timestamp : Int
  key : StateKey
  space : ν
  deriving DecidableEq, Repr

/-- The order in which timers fire: by key group, then by time, key and namespace. -/
def TimerKey.precedes {ν : Type} [Ord ν] (timer timer' : TimerKey ν) : Bool :=
  ((compare timer.key.keyGroup timer'.key.keyGroup).then
    ((compare timer.timestamp timer'.timestamp).then
      ((compare timer.key.key timer'.key.key).then (compare timer.space timer'.space)))).isLT

/-- The timers key by key, those of one key in the order given. -/
def groupByKey {ν : Type} (timers : List (TimerKey ν)) : List (TimerKey ν) :=
  timers.insertionSort fun timer timer' =>
    ((compare timer.key.keyGroup timer'.key.keyGroup).then
      (compare timer.key.key timer'.key.key)).isLE = true

theorem mem_groupByKey {ν : Type} {timers : List (TimerKey ν)} {timer : TimerKey ν} :
    timer ∈ groupByKey timers ↔ timer ∈ timers :=
  (perm_insertionSort _ _).mem_iff

/-- The timers of both domains, in order. -/
structure NativeTimerService (ν : Type) where
  eventTime : List (TimerKey ν) := []
  processingTime : List (TimerKey ν) := []
  deriving DecidableEq, Repr

namespace NativeTimerService

variable {ν : Type}

/-- The timers of a domain. -/
def timerSet (service : NativeTimerService ν) : TimerDomain → List (TimerKey ν)
  | .eventTime => service.eventTime
  | .processingTime => service.processingTime

/-- Sets the timers of a domain. -/
def setTimerSet (service : NativeTimerService ν) (domain : TimerDomain)
    (timers : List (TimerKey ν)) : NativeTimerService ν :=
  match domain with
  | .eventTime => { service with eventTime := timers }
  | .processingTime => { service with processingTime := timers }

@[simp] theorem timerSet_setTimerSet (service : NativeTimerService ν) (domain : TimerDomain)
    (timers : List (TimerKey ν)) :
        (service.setTimerSet domain timers).timerSet domain = timers := by
  cases domain <;> rfl

theorem timerSet_setTimerSet_of_ne (service : NativeTimerService ν) {domain domain' : TimerDomain}
    (h : domain' ≠ domain) (timers : List (TimerKey ν)) :
    (service.setTimerSet domain timers).timerSet domain' = service.timerSet domain' := by
  cases domain <;> cases domain' <;> first | rfl | exact absurd rfl h

variable [DecidableEq ν] [Ord ν]

/-- Inserts a timer in order. -/
def insertTimer (timer : TimerKey ν) : List (TimerKey ν) → List (TimerKey ν)
  | [] => [timer]
  | timer' :: timers =>
    if timer'.precedes timer then timer' :: insertTimer timer timers else timer :: timer' :: timers

/-- A timer that is pending already stays as it is. -/
def register (service : NativeTimerService ν) (domain : TimerDomain) (timer : TimerKey ν) :
    NativeTimerService ν :=
  if timer ∈ service.timerSet domain then
    service
  else
    service.setTimerSet domain (insertTimer timer (service.timerSet domain))

/-- Deletes a timer. -/
def delete (service : NativeTimerService ν) (domain : TimerDomain) (timer : TimerKey ν) :
    NativeTimerService ν :=
  service.setTimerSet domain ((service.timerSet domain).filter (· ≠ timer))

/-- The timers at or before `progress`, in the order in which they fire. -/
def due (service : NativeTimerService ν) (domain : TimerDomain) (progress : Int) :
    List (TimerKey ν) :=
  (service.timerSet domain).filter (·.timestamp ≤ progress)

/-- All due timers, and the service without them. -/
def advance (service : NativeTimerService ν) (domain : TimerDomain) (progress : Int) :
    List (TimerKey ν) × NativeTimerService ν :=
  (service.due domain progress,
    service.setTimerSet domain ((service.timerSet domain).filter (progress < ·.timestamp)))

/-! ## What is pending -/

variable {service : NativeTimerService ν} {domain domain' : TimerDomain} {progress : Int}
  {timer timer' : TimerKey ν}

omit [DecidableEq ν] in
theorem mem_insertTimer {timers : List (TimerKey ν)} :
    timer' ∈ insertTimer timer timers ↔ timer' = timer ∨ timer' ∈ timers := by
  induction timers with
  | nil => simp [insertTimer]
  | cons timer'' timers ih =>
    unfold insertTimer
    split
    · rw [mem_cons, ih, mem_cons]
      exact or_left_comm
    · exact mem_cons

@[simp] theorem mem_register : timer' ∈ (service.register domain timer).timerSet domain ↔
      timer' = timer ∨ timer' ∈ service.timerSet domain := by
  unfold register
  by_cases h : timer ∈ service.timerSet domain
  · rw [if_pos h]
    exact ⟨Or.inr, fun h' => h'.elim (fun heq => heq ▸ h) id⟩
  · rw [if_neg h, timerSet_setTimerSet, mem_insertTimer]

theorem timerSet_register_of_ne (service : NativeTimerService ν) (h : domain' ≠ domain)
    (timer : TimerKey ν) :
    (service.register domain timer).timerSet domain' = service.timerSet domain' := by
  unfold register
  split
  · rfl
  · exact timerSet_setTimerSet_of_ne service h _

omit [Ord ν] in
theorem timerSet_delete_of_ne (service : NativeTimerService ν) (h : domain' ≠ domain)
    (timer : TimerKey ν) :
    (service.delete domain timer).timerSet domain' = service.timerSet domain' :=
  timerSet_setTimerSet_of_ne service h _

omit [Ord ν] in
@[simp] theorem mem_delete : timer' ∈ (service.delete domain timer).timerSet domain ↔
      timer' ∈ service.timerSet domain ∧ timer' ≠ timer := by
  unfold delete
  rw [timerSet_setTimerSet, mem_filter, decide_eq_true_iff]

section

omit [DecidableEq ν] [Ord ν]

theorem mem_due :
    timer ∈ service.due domain progress ↔ timer ∈ service.timerSet domain ∧
        timer.timestamp ≤ progress := by
  unfold due
  rw [mem_filter, decide_eq_true_iff]

@[simp] theorem mem_advance : timer ∈ (service.advance domain progress).2.timerSet domain ↔
      timer ∈ service.timerSet domain ∧ progress < timer.timestamp := by
  unfold advance
  rw [timerSet_setTimerSet, mem_filter, decide_eq_true_iff]

theorem lt_of_mem_advance (service : NativeTimerService ν) (domain : TimerDomain)
    (h : timer ∈ (service.advance domain progress).2.timerSet domain) : progress <
        timer.timestamp :=
  (mem_advance.mp h).2

theorem timerSet_advance_of_ne (service : NativeTimerService ν) (h : domain' ≠ domain)
    (progress : Int) :
    (service.advance domain progress).2.timerSet domain' = service.timerSet domain' :=
  timerSet_setTimerSet_of_ne service h _

end

end NativeTimerService

end StreamFusion.State
