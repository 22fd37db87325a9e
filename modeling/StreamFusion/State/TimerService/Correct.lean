import StreamFusion.State.TimerService.Snapshot

/-!
# The contract of the timer service

The service is the set of its timers, whatever operation is called: registering inserts into the
set, deleting removes from it, and the four ways to take due timers remove the same ones in the same
order.

A snapshot lists the timers of a group in their order.  Restoring does not insist on the order, so
it also accepts bytes that no service writes (`restore_accepts_any_order`); what it accepts are the
frames of distinct timers.
-/

namespace StreamFusion.State.TimerService

open Wire

namespace NativeTimerService

/-- Repeating the call until it returns nothing takes exactly the due timers, in their order.  There
is an answer as soon as there are more calls than due timers. -/
def DrainsTo {κ : Type} (service : NativeTimerService) (domain : TimerDomain) (progress : Int64)
    (step : κ → NativeTimerService → Except StateError (List FiredTimer × NativeTimerService))
    (calls : List κ) : Prop :=
  ∃ result, Drain.drain step calls service = .ok result ∧
    (∀ fired service', result = some (fired, service') →
      fired = service.due domain progress ∧ service.Advanced domain progress service') ∧
    ((service.due domain progress).length < calls.length → result.isSome = true)

variable {service other : NativeTimerService}

variable {keyGroup : UInt32}

theorem register_again (howns : service.Owns keyGroup) {domain : TimerDomain} {timer : TimerKey}
    (hmem : ⟨keyGroup, domain, timer⟩ ∈ service.timers) :
    service.register keyGroup domain timer = .ok (false, service) := by
  obtain ⟨inserted, service', hregister, hrange, hinserted, htimers⟩ :=
    register_ok howns domain timer
  have hsame : service = service' :=
    ext_timers hrange (by rw [htimers, Set.insert_eq_of_mem hmem])
  have hfalse : inserted = false := by
    rw [← Bool.not_eq_true, hinserted]
    exact not_not.mpr hmem
  rw [hregister, ← hsame, hfalse]

theorem advance_advances (domain : TimerDomain) (progress : Int64)
    (h : (service.due domain progress).length < usizeLimit) :
    (service.advance domain progress).1 = service.due domain progress ∧
      service.Advanced domain progress (service.advance domain progress).2 := by
  obtain ⟨hfired, hremoves⟩ := advanceLimited_spec service domain progress (usizeLimit - 1)
  have hall : (service.due domain progress).take (usizeLimit - 1) = service.due domain progress :=
    List.take_of_length_le (by omega)
  rw [hall] at hfired hremoves
  exact ⟨hfired, hremoves.advanced⟩

theorem mem_entries_group {index : Nat} (hindex : index < service.groups.length) (x : FiredTimer)
    (hkeyGroup : x.keyGroup = service.keyGroupAt index) :
    (x.domain, x.timer) ∈ (service.groups.getD index {}).entries ↔ x ∈ service.timers := by
  rw [TimerGroup.mem_entries, mem_timers hindex hkeyGroup]

/-- A snapshot comes back in any service that owns the group and has no timers in it. -/
theorem restore_snapshot {bytes : Slice} (howns : service.Owns keyGroup)
    (hbytes : service.snapshotKeyGroup keyGroup = .ok bytes.toBytes) (hother : other.Owns keyGroup)
    (hvacant : other.Vacant keyGroup) :
    ∃ restored, other.restoreKeyGroup keyGroup bytes = .ok restored ∧ other.SameRange restored ∧
      restored.timers = other.timers ∪ { x | x ∈ service.timers ∧ x.keyGroup = keyGroup } := by
  obtain ⟨index, hindex, hkeyGroup⟩ := howns
  obtain ⟨index', hindex', hkeyGroup'⟩ := hother
  rw [hkeyGroup, snapshotKeyGroup_eq_ok hindex, ← hkeyGroup] at hbytes
  obtain ⟨hfits, hbytes⟩ := hbytes
  rw [hkeyGroup'] at hvacant hbytes ⊢
  obtain ⟨restored, hrestore, hrange, htimers⟩ := restoreKeyGroup_of_frame hindex' hvacant hfits
    (service.groups.getD index {}).nodup_entries hbytes
  refine ⟨restored, hrestore, hrange, ?_⟩
  rw [htimers]
  ext x
  refine or_congr_right ⟨fun h => ?_, fun h => ?_⟩
  · have hx : x.keyGroup = service.keyGroupAt index := h.1.trans (hkeyGroup'.symm.trans hkeyGroup)
    exact ⟨(mem_entries_group hindex x hx).mp h.2, h.1⟩
  · have hx : x.keyGroup = service.keyGroupAt index := h.2.trans (hkeyGroup'.symm.trans hkeyGroup)
    exact ⟨h.2, (mem_entries_group hindex x hx).mpr h.1⟩

/-- A snapshot depends on the set of timers only. -/
theorem snapshot_eq (howns : service.Owns keyGroup) (hother : other.Owns keyGroup)
    (h : ∀ x : FiredTimer, x.keyGroup = keyGroup → (x ∈ service.timers ↔ x ∈ other.timers)) :
    service.snapshotKeyGroup keyGroup = other.snapshotKeyGroup keyGroup := by
  obtain ⟨index, hindex, hkeyGroup⟩ := howns
  obtain ⟨index', hindex', hkeyGroup'⟩ := hother
  have hgroup : service.groups.getD index {} = other.groups.getD index' {} := by
    refine TimerGroup.ext_timerSet fun domain timer => ?_
    have h₁ := mem_timers (x := ⟨keyGroup, domain, timer⟩) hindex hkeyGroup
    have h₂ := mem_timers (x := ⟨keyGroup, domain, timer⟩) hindex' hkeyGroup'
    rw [← h₁, ← h₂]
    exact h _ rfl
  have hget : service.group keyGroup = other.group keyGroup := by
    have h₁ := group_ok hindex
    have h₂ := group_ok hindex'
    rw [← hkeyGroup] at h₁
    rw [← hkeyGroup'] at h₂
    rw [h₁, h₂, hgroup]
  rw [snapshotKeyGroup, hget, snapshotKeyGroup]

end NativeTimerService

open TimerService.NativeTimerService

/-- **The timer service.**  In every state of a service:

* registering a timer of an owned group inserts it into the set of timers and answers whether it is
  new, and registering it again changes nothing; deleting removes it; a batch of registrations is
  the registrations in order;
* `due` lists the timers of a domain up to a progress value by key group, time, key and namespace,
  and `advance`, the repeated limited calls with any positive limits, and looking and deleting all
  take exactly this list and leave all other timers;
* a snapshot of a group, restored where the group is vacant, brings its timers back, and depends on
  the set of timers only; the bytes accepted for a vacant group are the frames of distinct
  timers. -/
theorem timer_service_is_a_set (service : NativeTimerService) :
    (∀ keyGroup domain timer, service.Owns keyGroup →
      ∃ inserted service', service.register keyGroup domain timer = .ok (inserted, service') ∧
        (inserted = true ↔ ⟨keyGroup, domain, timer⟩ ∉ service.timers) ∧
        service.SameRange service' ∧
        service'.timers = insert ⟨keyGroup, domain, timer⟩ service.timers ∧
        service'.register keyGroup domain timer = .ok (false, service')) ∧
    (∀ keyGroup domain timer, service.Owns keyGroup →
      ∃ removed service', service.delete keyGroup domain timer = .ok (removed, service') ∧
        (removed = true ↔ ⟨keyGroup, domain, timer⟩ ∈ service.timers) ∧
        service.SameRange service' ∧
        service'.timers = service.timers \ {⟨keyGroup, domain, timer⟩}) ∧
    (∀ items, (∀ item ∈ items, service.Owns item.1) →
      service.registerBatch items = service.registerAll items ∧
      ∃ inserted service', service.registerAll items = .ok (inserted, service') ∧
        service.SameRange service' ∧ service'.timers =
          service.timers ∪ { x | (x.keyGroup, x.domain, x.timer) ∈ items }) ∧
    (∀ domain progress, (service.due domain progress).Pairwise Before ∧
      (∀ x, x ∈ service.due domain progress ↔
        x ∈ service.timers ∧ x.domain = domain ∧ x.timer.timestamp ≤ progress) ∧
      ((service.due domain progress).length < usizeLimit →
        (service.advance domain progress).1 = service.due domain progress ∧
        service.Advanced domain progress (service.advance domain progress).2) ∧
      (∀ limits : List Nat, (∀ limit ∈ limits, 0 < limit) → service.DrainsTo domain progress
          (fun limit service => .ok (service.advanceLimited domain progress limit)) limits ∧
        service.DrainsTo domain progress
          (fun limit service => .ok (service.advanceOwnedLimited domain progress limit)) limits) ∧
      ∀ calls : List Unit, service.DrainsTo domain progress
        (fun _ service => service.peekAndDelete domain progress) calls) ∧
    (∀ keyGroup (bytes : Slice) (other : NativeTimerService), service.Owns keyGroup →
      service.snapshotKeyGroup keyGroup = .ok bytes.toBytes → other.Owns keyGroup →
      other.Vacant keyGroup →
      ∃ restored, other.restoreKeyGroup keyGroup bytes = .ok restored ∧
        other.SameRange restored ∧ restored.timers =
          other.timers ∪ { x | x ∈ service.timers ∧ x.keyGroup = keyGroup }) ∧
    (∀ keyGroup (other : NativeTimerService), service.Owns keyGroup → other.Owns keyGroup →
      (∀ x : FiredTimer, x.keyGroup = keyGroup → (x ∈ service.timers ↔ x ∈ other.timers)) →
      service.snapshotKeyGroup keyGroup = other.snapshotKeyGroup keyGroup) ∧
    (∀ keyGroup (bytes : Slice), service.Owns keyGroup → service.Vacant keyGroup →
      ((∃ restored, service.restoreKeyGroup keyGroup bytes = .ok restored) ↔
        ∃ entries, Fits entries ∧ entries.Nodup ∧ bytes.toBytes = frame keyGroup entries)) := by
  refine ⟨?_, ?_, ?_, ?_, ?_, ?_, ?_⟩
  · intro keyGroup domain timer howns
    obtain ⟨inserted, service', hregister, hrange, hinserted, htimers⟩ :=
      register_ok howns domain timer
    refine ⟨inserted, service', hregister, hinserted, hrange, htimers, ?_⟩
    exact register_again (hrange.owns howns) (htimers ▸ Set.mem_insert _ _)
  · intro keyGroup domain timer howns
    obtain ⟨removed, service', hdelete, hrange, hremoved, htimers⟩ := delete_ok howns domain timer
    exact ⟨removed, service', hdelete, hremoved, hrange, htimers⟩
  · exact fun items howns => ⟨registerBatch_eq howns, registerAll_ok howns⟩
  · intro domain progress
    refine ⟨due_sorted, fun _ => mem_due, advance_advances domain progress, ?_, ?_⟩
    · intro limits hlimits
      exact ⟨drain_advances (fun _ h =>
        serves_of_spec (hlimits _ h) (advanceLimited_spec · domain progress _)) _,
        drain_advances (fun _ h =>
          serves_of_spec (hlimits _ h) (advanceOwnedLimited_spec · domain progress _)) _⟩
    · exact fun calls => drain_advances (fun _ _ => serves_peekAndDelete domain progress) service
  · exact fun keyGroup bytes other howns hbytes hother hvacant =>
      restore_snapshot howns hbytes hother hvacant
  · exact fun keyGroup other howns hother h => snapshot_eq howns hother h
  · rintro keyGroup bytes ⟨index, hindex, rfl⟩ hvacant
    constructor
    · rintro ⟨restored, hrestore⟩
      exact frame_of_restoreKeyGroup hindex hvacant hrestore
    · rintro ⟨entries, hfits, hnodup, hbytes⟩
      obtain ⟨restored, hrestore, -⟩ :=
        restoreKeyGroup_of_frame hindex hvacant hfits hnodup hbytes
      exact ⟨restored, hrestore⟩

/-! ## An order that is not written -/

/-- A service without timers over key group 0. -/
def emptyService : NativeTimerService := ⟨0, [{}], by decide⟩

/-- An event-time timer of one key. -/
def timerAt (timestamp : Int64) : TimerDomain × TimerKey := (.eventTime, ⟨timestamp, [1], []⟩)

theorem emptyService_vacant : emptyService.Vacant 0 := by
  rintro x ⟨index, hindex, -, hmem⟩
  obtain rfl : index = 0 := by
    change index < 1 at hindex
    omega
  cases hdomain : x.domain <;> rw [hdomain] at hmem <;>
    simp [emptyService, TimerGroup.timerSet] at hmem

/-- Timers at 2, 5 and 1, to be registered in this order. -/
def threeTimers : List (UInt32 × TimerDomain × TimerKey) :=
  [(0, timerAt 2), (0, timerAt 5), (0, timerAt 1)]

/-- A snapshot of two timers is restored.  Of three registered timers the two that are due are
drained one at a time, the earlier one first, and the third one stays. -/
theorem timer_service_drained :
    (∃ restored,
      emptyService.restoreKeyGroup 0 ⟨frame 0 [timerAt 1, timerAt 2], by decide⟩ = .ok restored) ∧
    ∃ inserted service drained, emptyService.registerBatch threeTimers = .ok (inserted, service) ∧
      Drain.drain (fun limit service => .ok (service.advanceLimited .eventTime 3 limit))
        [1, 1, 1] service =
        (.ok (some ([⟨0, .eventTime, ⟨1, [1], []⟩⟩, ⟨0, .eventTime, ⟨2, [1], []⟩⟩], drained)) :
          Except StateError _) ∧
      ⟨0, .eventTime, ⟨5, [1], []⟩⟩ ∈ drained.timers := by
  refine ⟨((timer_service_is_a_set emptyService).2.2.2.2.2.2 0 _ ⟨0, by decide, rfl⟩
    emptyService_vacant).mpr ⟨[timerAt 1, timerAt 2], by decide, by decide, rfl⟩, ?_⟩
  have howns : ∀ item ∈ threeTimers, emptyService.Owns item.1 := by
    intro item hitem
    fin_cases hitem <;> exact ⟨0, by decide, rfl⟩
  obtain ⟨hbatch, inserted, service, hregister, -, htimers⟩ :=
    (timer_service_is_a_set emptyService).2.2.1 threeTimers howns
  have hdue : (emptyService.registerBatch threeTimers).toOption.map (fun r =>
    r.2.due .eventTime 3) =
      some [⟨0, .eventTime, ⟨1, [1], []⟩⟩, ⟨0, .eventTime, ⟨2, [1], []⟩⟩] := by decide +kernel
  rw [hbatch, hregister] at hdue ⊢
  have hdue : service.due .eventTime 3 = _ := Option.some.inj hdue
  obtain ⟨⟨result, hdrain, hfired, hsome⟩, -⟩ :=
    ((timer_service_is_a_set service).2.2.2.1 .eventTime 3).2.2.2.1 [1, 1, 1] (by decide)
  obtain ⟨⟨fired, drained⟩, rfl⟩ := Option.isSome_iff_exists.mp (hsome (by rw [hdue]; decide))
  obtain ⟨rfl, -, hstays⟩ := hfired fired drained rfl
  refine ⟨inserted, service, drained, rfl, hdrain.trans (by rw [hdue]), ?_⟩
  rw [hstays, htimers]
  exact ⟨Or.inr (by simp [threeTimers, timerAt]), by decide⟩

/-- The later timer first. -/
def reversedTimers : Slice := ⟨frame 0 [timerAt 2, timerAt 1], by decide⟩

/-- The reversed timers are restored all the same, and no service writes them. -/
theorem restore_accepts_any_order :
    (∃ restored, emptyService.restoreKeyGroup 0 reversedTimers = .ok restored) ∧
    ∀ service : NativeTimerService, service.Owns 0 →
      service.snapshotKeyGroup 0 ≠ .ok reversedTimers.toBytes := by
  have hfits : Fits [timerAt 2, timerAt 1] := by decide
  constructor
  · have hindex : 0 < emptyService.groups.length := by decide
    have hnodup : [timerAt 2, timerAt 1].Nodup := by decide
    have hbytes : reversedTimers.toBytes =
      frame (emptyService.keyGroupAt 0) [timerAt 2, timerAt 1] := rfl
    obtain ⟨restored, hrestore, -⟩ :=
      restoreKeyGroup_of_frame hindex emptyService_vacant hfits hnodup hbytes
    exact ⟨restored, hrestore⟩
  · rintro service ⟨index, hindex, hkeyGroup⟩ hsnapshot
    rw [hkeyGroup, snapshotKeyGroup_eq_ok hindex, ← hkeyGroup] at hsnapshot
    have hentries : (service.groups.getD index {}).entries = [timerAt 2, timerAt 1] :=
      Except.ok.inj
        ((decodeSnapshot_eq_ok.mpr hsnapshot).symm.trans (decodeSnapshot_eq_ok.mpr ⟨hfits, rfl⟩))
    have hsorted := (service.groups.getD index {}).entries_sorted
    rw [hentries] at hsorted
    have hlt := (List.pairwise_cons.mp hsorted).1 (timerAt 1) List.mem_cons_self rfl
    exact absurd hlt (by decide)

end StreamFusion.State.TimerService
