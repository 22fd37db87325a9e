import StreamFusion.State.TimerService.Drains

/-!
# Snapshots of timers

A key group's timers are written behind a header (the magic `SFTM`, a version, the key group and the
number of timers), those of the event-time set first.  `frame` is the closed form of these bytes.

Restoring accepts more than what is written: the timers of a frame may come in any order, as long as
none of them is repeated (`restoreKeyGroup_of_frame`, `frame_of_restoreKeyGroup`).
-/

namespace StreamFusion.State.TimerService

open Wire Except TimerGroup Cursor List Std.ExtTreeSet

/-- What a frame of timers starts with. -/
def snapshotMagic : Bytes := [0x53, 0x46, 0x54, 0x4d]

/-- The version of the format. -/
def snapshotVersion : UInt8 := 1

/-! ## Writing -/

/-- Writes a number, if it fits. -/
def writeU32 (output : Bytes) (value : Nat) (description : String) : Except StateError Bytes :=
  if value < 2 ^ 32 then
    .ok (output ++ leBytes 4 value)
  else
    .error (.execution ("native " ++ description ++ " exceeds the snapshot format"))

/-- Writes bytes behind their length. -/
def writeBytes (output bytes : Bytes) (description : String) : Except StateError Bytes := do
  let output ← writeU32 output bytes.length description
  .ok (output ++ bytes)

/-- The byte of a domain. -/
def domainByte : TimerDomain → UInt8
  | .eventTime => 0
  | .processingTime => 1

/-- Writes a timer. -/
def writeTimer (output : Bytes) (entry : TimerDomain × TimerKey) : Except StateError Bytes := do
  let output := output ++ [domainByte entry.1] ++ leBytes 8 entry.2.timestamp.toUInt64.toNat
  let output ← writeBytes output entry.2.key "timer key"
  writeBytes output entry.2.space "timer namespace"

/-- The timers of a group in the order in which they are written. -/
def TimerGroup.entries (group : TimerGroup) : List (TimerDomain × TimerKey) :=
  group.eventTime.toList.map (.eventTime, ·) ++ group.processingTime.toList.map (.processingTime, ·)

/-- The frame of a key group's timers. -/
def NativeTimerService.snapshotKeyGroup (service : NativeTimerService) (keyGroup : UInt32) :
    Except StateError Bytes := do
  let group ← service.group keyGroup
  match checkedAdd group.eventTime.toList.length group.processingTime.toList.length with
  | none => .error (.execution "native timer count overflow")
  | some count => do
    let output := snapshotMagic ++ [snapshotVersion] ++ leBytes 4 keyGroup.toNat
    let output ← writeU32 output count "timer count"
    group.entries.foldlM writeTimer output

/-! ## Reading -/

/-- Takes so many bytes. -/
def readExact (input : Cursor) (length : Nat) (description : String) :
    Except StateError (Bytes × Cursor) :=
  match checkedAdd input.offset length with
  | none => .error (.execution ("native " ++ description ++ " length overflow"))
  | some _ =>
    match input.take? length with
    | none => .error (.execution ("truncated native " ++ description))
    | some result => .ok result

/-- Reads a byte. -/
def readU8 (input : Cursor) (description : String) : Except StateError (UInt8 × Cursor) := do
  let (bytes, input) ← readExact input 1 description
  .ok (bytes.headD 0, input)

/-- Reads a number. -/
def readU32 (input : Cursor) (description : String) : Except StateError (UInt32 × Cursor) := do
  let (bytes, input) ← readExact input 4 description
  .ok (UInt32.ofNat (leNat bytes), input)

/-- Reads a time. -/
def readI64 (input : Cursor) (description : String) : Except StateError (Int64 × Cursor) := do
  let (bytes, input) ← readExact input 8 description
  .ok ((UInt64.ofNat (leNat bytes)).toInt64, input)

/-- Reads bytes behind their length. -/
def readBytes (input : Cursor) (description : String) : Except StateError (Bytes × Cursor) := do
  let (length, input) ← readU32 input (description ++ " length")
  readExact input length.toNat description

/-- Reads a domain. -/
def readDomain (input : Cursor) : Except StateError (TimerDomain × Cursor) := do
  let (value, input) ← readU8 input "timer domain"
  if value = 0 then
    .ok (.eventTime, input)
  else if value = 1 then
    .ok (.processingTime, input)
  else
    .error (.execution ("invalid native timer domain " ++ toString value))

/-- Reads a timer. -/
def readTimer (input : Cursor) : Except StateError ((TimerDomain × TimerKey) × Cursor) := do
  let (domain, input) ← readDomain input
  let (timestamp, input) ← readI64 input "timer timestamp"
  let (key, input) ← readBytes input "timer key"
  let (space, input) ← readBytes input "timer namespace"
  .ok ((domain, ⟨timestamp, key, space⟩), input)

/-- The header, and the number of timers that it announces. -/
def readHeader (keyGroup : UInt32) (bytes : Slice) : Except StateError (Nat × Cursor) := do
  let (magic, input) ← readExact ⟨bytes, 0⟩ 4 "timer magic"
  if magic ≠ snapshotMagic then
    .error (.execution "invalid native timer snapshot magic")
  else
    let (version, input) ← readU8 input "timer version"
    if version ≠ snapshotVersion then
      .error (.execution ("unsupported native timer snapshot version " ++ toString version))
    else
      let (encodedKeyGroup, input) ← readU32 input "timer key group"
      if encodedKeyGroup ≠ keyGroup then
        .error (.execution ("timer snapshot key group " ++ toString encodedKeyGroup ++
          " does not match assigned group " ++ toString keyGroup))
      else
        let (count, input) ← readU32 input "timer count"
        if count.toNat > (bytes.toBytes.length - input.offset) / 17 then
          .error (.execution "invalid native timer snapshot count")
        else
          .ok (count.toNat, input)

/-- Reads a frame of timers. -/
def decodeSnapshot (keyGroup : UInt32) (bytes : Slice) :
    Except StateError (List (TimerDomain × TimerKey)) := do
  let (count, input) ← readHeader keyGroup bytes
  let (timers, input) ← readMany readTimer count input
  if input.offset ≠ bytes.toBytes.length then
    .error (.execution "native timer snapshot has trailing bytes")
  else
    .ok timers

/-- Inserts the timers of a snapshot; none of them may be there. -/
def insertDecoded (group : TimerGroup) : List (TimerDomain × TimerKey) →
    Except StateError TimerGroup
  | [] => .ok group
  | (domain, timer) :: timers =>
    if (group.timerSet domain).contains timer then
      .error (.execution "native timer snapshot contains a duplicate timer")
    else
      insertDecoded (group.setTimerSet domain ((group.timerSet domain).insert timer)) timers

/-- Restores the timers of a key group, once. -/
def NativeTimerService.restoreKeyGroup (service : NativeTimerService) (keyGroup : UInt32)
    (bytes : Slice) : Except StateError NativeTimerService := do
  let index ← service.groupIndex keyGroup
  let group := service.groups.getD index {}
  if !group.eventTime.isEmpty || !group.processingTime.isEmpty then
    .error (.execution ("timer key group " ++ toString keyGroup ++ " was restored more than once"))
  else
    let decoded ← decodeSnapshot keyGroup bytes
    let group ← insertDecoded group decoded
    .ok (service.setGroup index group)

/-! ## The frame -/

open Snapshot (framed length_framed)

/-- The stored form of a timer. -/
def timerBytes (entry : TimerDomain × TimerKey) : Bytes :=
  [domainByte entry.1] ++ leBytes 8 entry.2.timestamp.toUInt64.toNat ++ framed entry.2.key ++
    framed entry.2.space

/-- The stored form of a header. -/
def headerBytes (keyGroup : UInt32) (count : Nat) : Bytes :=
  snapshotMagic ++ [snapshotVersion] ++ leBytes 4 keyGroup.toNat ++ leBytes 4 count

/-- The frame of timers. -/
def frame (keyGroup : UInt32) (entries : List (TimerDomain × TimerKey)) : Bytes :=
  headerBytes keyGroup entries.length ++ entries.flatMap timerBytes

/-- The lengths of a timer fit in the format. -/
def EntryFits (entry : TimerDomain × TimerKey) : Prop :=
  entry.2.key.length < 2 ^ 32 ∧ entry.2.space.length < 2 ^ 32

/-- The lengths fit the format. -/
def Fits (entries : List (TimerDomain × TimerKey)) : Prop :=
  entries.length < 2 ^ 32 ∧ ∀ entry ∈ entries, EntryFits entry

instance : DecidablePred EntryFits := fun _ => inferInstanceAs (Decidable (_ ∧ _))

instance : DecidablePred Fits := fun _ => inferInstanceAs (Decidable (_ ∧ _))

theorem seventeen_le_length_timerBytes (entry : TimerDomain × TimerKey) :
    17 ≤ (timerBytes entry).length := by
  simp [timerBytes, length_framed]
  omega

theorem seventeen_mul_length_le (entries : List (TimerDomain × TimerKey)) :
    17 * entries.length ≤ (entries.flatMap timerBytes).length := by
  induction entries with
  | nil => simp
  | cons entry entries ih =>
    have := seventeen_le_length_timerBytes entry
    rw [flatMap_cons, length_append, length_cons]
    omega

/-! ## What is written -/

variable {output bytes result : Bytes} {description : String}

theorem writeBytes_eq_ok : writeBytes output bytes description = .ok result ↔
      bytes.length < 2 ^ 32 ∧ result = output ++ framed bytes := by
  unfold writeBytes writeU32
  by_cases h : bytes.length < 2 ^ 32
  · rw [if_pos h, ok_bind, ok.injEq, framed, append_assoc]
    exact ⟨fun heq => ⟨h, heq.symm⟩, fun heq => heq.2.symm⟩
  · rw [if_neg h, error_bind]
    refine ⟨fun heq => ?_, fun heq => absurd heq.1 h⟩
    cases heq

theorem writeTimer_eq_ok {entry : TimerDomain × TimerKey} : writeTimer output entry = .ok result ↔
      EntryFits entry ∧ result = output ++ timerBytes entry := by
  simp only [writeTimer, bind_eq_ok, writeBytes_eq_ok, EntryFits, timerBytes]
  constructor
  · rintro ⟨_, ⟨hkey, rfl⟩, hspace, rfl⟩
    exact ⟨⟨hkey, hspace⟩, by simp⟩
  · rintro ⟨⟨hkey, hspace⟩, rfl⟩
    exact ⟨_, ⟨hkey, rfl⟩, hspace, by simp⟩

variable {entries : List (TimerDomain × TimerKey)}

theorem foldlM_writeTimer_eq_ok : entries.foldlM writeTimer output = .ok result ↔
      (∀ entry ∈ entries, EntryFits entry) ∧ result = output ++ entries.flatMap timerBytes := by
  induction entries generalizing output with
  | nil =>
    rw [foldlM_nil]
    simp [eq_comm]
  | cons entry entries ih =>
    simp only [foldlM_cons, bind_eq_ok, writeTimer_eq_ok, ih, flatMap_cons, forall_mem_cons]
    constructor
    · rintro ⟨_, ⟨hentry, rfl⟩, hentries, rfl⟩
      exact ⟨⟨hentry, hentries⟩, by simp⟩
    · rintro ⟨⟨hentry, hentries⟩, rfl⟩
      exact ⟨_, ⟨hentry, rfl⟩, hentries, by simp⟩

variable {service : NativeTimerService} {index : Nat}

/-- **What is written** is the frame of the timers in their order, if they fit the format. -/
theorem snapshotKeyGroup_eq_ok (hindex : index < service.groups.length) :
    service.snapshotKeyGroup (service.keyGroupAt index) = .ok bytes ↔
      Fits (service.groups.getD index {}).entries ∧
        bytes = frame (service.keyGroupAt index) (service.groups.getD index {}).entries := by
  rw [NativeTimerService.snapshotKeyGroup, NativeTimerService.group_ok hindex, ok_bind]
  generalize service.groups.getD index {} = group
  have hlength : group.entries.length =
      group.eventTime.toList.length + group.processingTime.toList.length := by
    simp [entries]
  unfold Fits frame
  rw [hlength]
  rcases hcount :
    checkedAdd group.eventTime.toList.length group.processingTime.toList.length with _ | count
  · have hlarge :
        ¬ group.eventTime.toList.length + group.processingTime.toList.length < 2 ^ 32 := by
      intro hlt
      have : checkedAdd group.eventTime.toList.length group.processingTime.toList.length =
          some (group.eventTime.toList.length + group.processingTime.toList.length) :=
        checkedAdd_eq_some.mpr ⟨lt_trans hlt (by decide), rfl⟩
      rw [hcount] at this
      cases this
    exact ⟨nofun, fun heq => absurd heq.1.1 hlarge⟩
  · obtain ⟨-, rfl⟩ := checkedAdd_eq_some.mp hcount
    dsimp only
    unfold writeU32
    split
    next hlt =>
      rw [ok_bind, foldlM_writeTimer_eq_ok]
      exact ⟨fun h => ⟨⟨hlt, h.1⟩, h.2⟩, fun h => ⟨h.1.2, h.2⟩⟩
    next hlarge => exact ⟨nofun, fun heq => absurd heq.1.1 hlarge⟩

/-! ## What is read -/

variable {c c' : Cursor} {xs : Bytes}

theorem readExact_eq_ok {length : Nat} :
    readExact c length description = .ok (xs, c') ↔ xs.length = length ∧ c.Reads xs c' := by
  rw [← take?_eq_some]
  unfold readExact
  by_cases hle : c.offset + length ≤ c.bytes.toBytes.length
  · rw [checkedAdd_of_le hle]
    cases c.take? length <;> simp
  · have hnone : c.take? length = none := by rw [take?, if_neg hle]
    rw [hnone]
    split <;> simp

theorem readU8_eq_ok {value : UInt8} : readU8 c description = .ok (value, c') ↔
    c.Reads [value] c' := by
  simp only [readU8, bind_eq_ok, Prod.exists, readExact_eq_ok, ok.injEq, Prod.mk.injEq]
  constructor
  · rintro ⟨xs, d, ⟨hlength, hr⟩, rfl, rfl⟩
    obtain ⟨value, rfl⟩ := length_eq_one_iff.mp hlength
    exact hr
  · intro hr
    exact ⟨_, _, ⟨rfl, hr⟩, rfl, rfl⟩

theorem readU32_eq_ok {n : UInt32} : readU32 c description = .ok (n, c') ↔
    c.Reads (leBytes 4 n.toNat) c' := by
  simp only [readU32, bind_eq_ok, Prod.exists, readExact_eq_ok, ok.injEq, Prod.mk.injEq]
  exact reads_converted _ _ (fun _ => UInt32.toNat_ofNat_of_lt') n.toNat_lt UInt32.ofNat_toNat

theorem readI64_eq_ok {n : Int64} :
    readI64 c description = .ok (n, c') ↔ c.Reads (leBytes 8 n.toUInt64.toNat) c' := by
  simp only [readI64, bind_eq_ok, Prod.exists, readExact_eq_ok, ok.injEq, Prod.mk.injEq]
  refine reads_converted (fun k => (UInt64.ofNat k).toInt64) (·.toUInt64.toNat)
    (fun k hk => ?_) ?_ ?_
  · rw [UInt64.toUInt64_toInt64, UInt64.toNat_ofNat_of_lt' hk]
  · exact n.toUInt64.toNat_lt
  · rw [UInt64.ofNat_toNat, Int64.toInt64_toUInt64]

theorem readBytes_eq_ok :
    readBytes c description = .ok (xs, c') ↔ xs.length < 2 ^ 32 ∧ c.Reads (framed xs) c' := by
  simp only [readBytes, bind_eq_ok, Prod.exists, readU32_eq_ok, readExact_eq_ok]
  exact reads_lengthPrefixed

variable {domain : TimerDomain}

/-- Exactly the two domains are read. -/
theorem readDomain_eq_ok : readDomain c = .ok (domain, c') ↔ c.Reads [domainByte domain] c' := by
  simp only [readDomain, bind_eq_ok, Prod.exists, readU8_eq_ok]
  constructor
  · rintro ⟨value, d, hr, h⟩
    split at h
    next hvalue =>
      cases h
      rw [hvalue] at hr
      exact hr
    next =>
      split at h
      next hvalue =>
        cases h
        rw [hvalue] at hr
        exact hr
      next => cases h
  · intro hr
    refine ⟨_, _, hr, ?_⟩
    cases domain <;> rfl

theorem readTimer_decodes : Decodes readTimer EntryFits timerBytes := by
  intro c entry c'
  simp only [readTimer, bind_eq_ok, Prod.exists, readDomain_eq_ok, readI64_eq_ok,
    readBytes_eq_ok, ok.injEq, Prod.mk.injEq, timerBytes, reads_append]
  constructor
  · rintro ⟨domain, c₁, h₁, timestamp, c₂, h₂, key, c₃, ⟨hkey, h₃⟩, space, c₄, ⟨hspace, h₄⟩, rfl,
      rfl⟩
    exact ⟨⟨hkey, hspace⟩, c₃, ⟨c₂, ⟨c₁, h₁, h₂⟩, h₃⟩, h₄⟩
  · rintro ⟨⟨hkey, hspace⟩, c₃, ⟨c₂, ⟨c₁, h₁, h₂⟩, h₃⟩, h₄⟩
    exact ⟨_, c₁, h₁, _, c₂, h₂, _, c₃, ⟨hkey, h₃⟩, _, c', ⟨hspace, h₄⟩, rfl, rfl⟩

variable {keyGroup : UInt32} {s : Slice}

/-- A header whose count fits in the frame is read. -/
theorem readHeader_eq_ok {count : Nat} : readHeader keyGroup s = .ok (count, c) ↔ count < 2 ^ 32 ∧
      count ≤ (s.toBytes.length - 13) / 17 ∧
      (mk s 0).Reads (headerBytes keyGroup count) c := by
  simp only [readHeader, bind_eq_ok, Prod.exists, readExact_eq_ok, readU8_eq_ok, readU32_eq_ok,
    ite_error_eq_ok, ne_eq, not_not, Except.ok.injEq, Prod.mk.injEq, headerBytes, reads_append]
  have hoffset : ∀ {c₁ c₂ c₃ c₄ : Cursor} {n : Nat}, (Cursor.mk s 0).Reads snapshotMagic c₁ →
      c₁.Reads [snapshotVersion] c₂ → c₂.Reads (leBytes 4 keyGroup.toNat) c₃ →
        c₃.Reads (leBytes 4 n) c₄ →
      c₄.offset = 13 := by
    intro c₁ c₂ c₃ c₄ n hmagic hversion hgroup hcount
    rw [hcount.offset_eq, hgroup.offset_eq, hversion.offset_eq, hmagic.offset_eq]
    simp [snapshotMagic]
  constructor
  · rintro ⟨_, c₁, ⟨-, hmagic⟩, rfl, _, c₂, hversion, rfl, _, c₃, hgroup, rfl, n, _,
      hcount, hn, rfl, rfl⟩
    rw [hoffset hmagic hversion hgroup hcount] at hn
    exact ⟨n.toNat_lt, by omega, c₃, ⟨c₂, ⟨c₁, hmagic, hversion⟩, hgroup⟩, hcount⟩
  · rintro ⟨hlt, hle, c₃, ⟨c₂, ⟨c₁, hmagic, hversion⟩, hgroup⟩, hcount⟩
    have hn : (UInt32.ofNat count).toNat = count := UInt32.toNat_ofNat_of_lt' hlt
    refine ⟨_, c₁, ⟨rfl, hmagic⟩, rfl, _, c₂, hversion, rfl, _, c₃, hgroup, rfl,
      UInt32.ofNat count, c,
      hn.symm ▸ hcount, ?_, hn, rfl⟩
    rw [hoffset hmagic hversion hgroup hcount]
    omega

theorem length_headerBytes (keyGroup : UInt32) (count : Nat) :
    (headerBytes keyGroup count).length = 13 := by
  simp [headerBytes, snapshotMagic]

/-- **Decoding** accepts exactly the frames, of timers in any order. -/
theorem decodeSnapshot_eq_ok :
    decodeSnapshot keyGroup s = .ok entries ↔ Fits entries ∧
        s.toBytes = frame keyGroup entries := by
  simp only [decodeSnapshot, bind_eq_ok, Prod.exists, readHeader_eq_ok]
  constructor
  · rintro ⟨count, c, ⟨hlt, -, hheader⟩, timers, c', hmany, h⟩
    split at h
    · cases h
    next hend =>
    cases h
    have hc : c.offset ≤ c.bytes.toBytes.length := hheader.bytes_eq ▸ hheader.offset_le
    obtain ⟨rfl, hfits, hr⟩ := (readTimer_decodes.readMany hc).mp hmany
    refine ⟨⟨hlt, hfits⟩, ?_⟩
    have hwhole : (mk s 0).Reads (frame keyGroup entries) c' :=
      reads_append.mpr ⟨c, hheader, hr⟩
    exact (reads_from_start.mp ⟨hwhole, not_not.mp hend⟩).1
  · rintro ⟨⟨hlt, hfits⟩, hbytes⟩
    obtain ⟨hwhole, hend⟩ :=
      reads_from_start.mpr ⟨hbytes, (rfl : (⟨s, s.toBytes.length⟩ : Cursor) = _)⟩
    obtain ⟨c, hheader, hr⟩ := reads_append.mp hwhole
    have hc : c.offset ≤ c.bytes.toBytes.length := hheader.bytes_eq ▸ hheader.offset_le
    have hcount : entries.length ≤ (s.toBytes.length - 13) / 17 := by
      have hmul := seventeen_mul_length_le entries
      have hlength := congrArg List.length hbytes
      rw [frame, length_append, length_headerBytes] at hlength
      omega
    refine ⟨entries.length, c, ⟨hlt, hcount, hheader⟩, entries, _,
      (readTimer_decodes.readMany hc).mpr ⟨rfl, hfits, hr⟩, ?_⟩
    rw [if_neg (not_not.mpr hend)]

/-! ## Restoring -/

variable {group : TimerGroup} {timer : TimerKey}

theorem mem_timerSet_insert {domain' : TimerDomain} {timer' : TimerKey} :
    timer' ∈ (group.setTimerSet domain
        ((group.timerSet domain).insert timer)).timerSet domain' ↔
      timer' ∈ group.timerSet domain' ∨ (domain', timer') = (domain, timer) := by
  by_cases hdomain : domain' = domain
  · subst hdomain
    rw [timerSet_setTimerSet, mem_insert, Std.LawfulEqOrd.compare_eq_iff_eq]
    simp only [Prod.mk.injEq, true_and]
    tauto
  · rw [timerSet_setTimerSet_of_ne _ hdomain]
    simp [hdomain]

/-- Timers are inserted unless one comes twice. -/
theorem insertDecoded_eq_ok {group' : TimerGroup} : insertDecoded group entries = .ok group' ↔
      entries.Nodup ∧ (∀ entry ∈ entries, entry.2 ∉ group.timerSet entry.1) ∧
        ∀ domain timer, timer ∈ group'.timerSet domain ↔
          timer ∈ group.timerSet domain ∨ (domain, timer) ∈ entries := by
  induction entries generalizing group with
  | nil =>
    constructor
    · intro h
      cases h
      simp
    · rintro ⟨-, -, h⟩
      refine congrArg ok (ext_timerSet fun domain timer => ?_)
      rw [h]
      simp
  | cons entry entries ih =>
    obtain ⟨domain, timer⟩ := entry
    rw [insertDecoded]
    split
    next hcontains =>
      refine ⟨nofun, fun h => ?_⟩
      exact absurd (contains_iff_mem.mp hcontains) (h.2.1 (domain, timer) mem_cons_self)
    next hcontains =>
      have hnot : timer ∉ group.timerSet domain := by
        rw [← Std.ExtTreeSet.contains_iff_mem]
        exact hcontains
      rw [ih, nodup_cons, forall_mem_cons]
      simp only [mem_timerSet_insert, mem_cons]
      constructor
      · rintro ⟨hnodup, habsent, hmem⟩
        refine ⟨⟨fun hin => (habsent _ hin) (Or.inr rfl), hnodup⟩,
          ⟨hnot, fun entry hentry hin => habsent entry hentry (Or.inl hin)⟩, fun d t => ?_⟩
        rw [hmem, or_assoc]
      · rintro ⟨⟨hin, hnodup⟩, ⟨-, habsent⟩, hmem⟩
        refine ⟨hnodup, fun entry hentry => ?_, fun d t => by rw [hmem, or_assoc]⟩
        rintro (h | h)
        · exact habsent entry hentry h
        · obtain ⟨d, t⟩ := entry
          exact hin (h ▸ hentry)

theorem exists_insertDecoded
    (hnodup : entries.Nodup) (habsent : ∀ entry ∈ entries, entry.2 ∉ group.timerSet entry.1) :
    ∃ group', insertDecoded group entries = .ok group' := by
  induction entries generalizing group with
  | nil => exact ⟨group, rfl⟩
  | cons entry entries ih =>
    obtain ⟨hin, hnodup⟩ := nodup_cons.mp hnodup
    obtain ⟨hnot, habsent⟩ := forall_mem_cons.mp habsent
    rw [insertDecoded, if_neg fun h => hnot (contains_iff_mem.mp h)]
    refine ih hnodup fun entry' hentry' hmem => ?_
    rw [mem_timerSet_insert] at hmem
    rcases hmem with hmem | heq
    · exact habsent entry' hentry' hmem
    · have : entry' = entry := heq
      exact hin (this ▸ hentry')

theorem TimerGroup.mem_entries : (domain, timer) ∈ group.entries ↔
    timer ∈ group.timerSet domain := by
  cases domain <;> simp [entries, timerSet, mem_toList]

theorem TimerGroup.nodup_entries (group : TimerGroup) : group.entries.Nodup := by
  have hset : ∀ set : TimerSet, set.toList.Nodup := by
    intro set
    refine (ordered_toList (t := set)).imp ?_
    rintro a _ hlt rfl
    simp [Std.ReflCmp.compare_self] at hlt
  rw [entries, nodup_append]
  refine ⟨(hset _).map fun _ _ h => (Prod.mk.inj h).2, (hset _).map fun _ _ h =>
    (Prod.mk.inj h).2, ?_⟩
  intro a ha b hb heq
  obtain ⟨_, -, rfl⟩ := mem_map.mp ha
  obtain ⟨_, -, rfl⟩ := mem_map.mp hb
  cases heq

/-- The timers of a domain are written in their order. -/
theorem TimerGroup.entries_sorted (group : TimerGroup) :
    group.entries.Pairwise fun a b => a.1 = b.1 → compare a.2 b.2 = .lt := by
  have hset : ∀ (domain : TimerDomain) (set : TimerSet), (set.toList.map (domain, ·)).Pairwise
      fun a b => a.1 = b.1 → compare a.2 b.2 = .lt := by
    intro domain set
    rw [pairwise_map]
    refine (ordered_toList (t := set)).imp ?_
    intro a b hlt _
    exact hlt
  rw [entries, pairwise_append]
  refine ⟨hset _ _, hset _ _, ?_⟩
  intro a ha b hb heq
  obtain ⟨_, -, rfl⟩ := mem_map.mp ha
  obtain ⟨_, -, rfl⟩ := mem_map.mp hb
  cases heq

/-- No timer of the group is registered. -/
def NativeTimerService.Vacant (service : NativeTimerService) (keyGroup : UInt32) : Prop :=
  ∀ x ∈ service.timers, x.keyGroup ≠ keyGroup

section

variable (hindex : index < service.groups.length) (h : service.Vacant (service.keyGroupAt index))
include hindex h

theorem isEmpty_of_vacant (domain : TimerDomain) (timer : TimerKey) :
    timer ∉ (service.groups.getD index {}).timerSet domain := fun hmem =>
  h ⟨service.keyGroupAt index, domain, timer⟩ ⟨index, hindex, rfl, hmem⟩ rfl

theorem group_of_vacant : service.groups.getD index {} = {} :=
  ext_timerSet fun domain timer =>
    ⟨fun hmem => absurd hmem (isEmpty_of_vacant hindex h domain timer),
      fun hmem => by cases domain <;> simp [timerSet] at hmem⟩

/-- The timers of a service whose vacant group is filled. -/
theorem timers_setGroup_of_vacant (group : TimerGroup) :
    (service.setGroup index group).timers = service.timers ∪
      { x | x.keyGroup = service.keyGroupAt index ∧ x.timer ∈ group.timerSet x.domain } := by
  ext x
  rw [NativeTimerService.mem_timers_setGroup hindex]
  split
  next hkeyGroup =>
    have hx : x ∉ service.timers := fun hmem => h x hmem hkeyGroup
    exact ⟨fun hmem => Or.inr ⟨hkeyGroup, hmem⟩, fun hmem => (hmem.resolve_left hx).2⟩
  next hne => exact ⟨Or.inl, fun hmem => hmem.resolve_right fun hmem => hne hmem.1⟩

end

theorem restoreKeyGroup_of_vacant (bytes : Slice)
    (hindex : index < service.groups.length) (h : service.Vacant (service.keyGroupAt index)) :
    service.restoreKeyGroup (service.keyGroupAt index) bytes =
      (decodeSnapshot (service.keyGroupAt index) bytes >>= insertDecoded {} >>= fun group =>
        .ok (service.setGroup index group)) := by
  unfold NativeTimerService.restoreKeyGroup
  rw [NativeTimerService.groupIndex_eq_ok.mpr ⟨hindex, rfl⟩, ok_bind,
    group_of_vacant hindex h, bind_assoc]
  simp

/-- **Restoring** a frame of distinct timers adds them. -/
theorem restoreKeyGroup_of_frame {bytes : Slice}
    (hindex : index < service.groups.length) (h : service.Vacant (service.keyGroupAt index))
    (hfits : Fits entries) (hnodup : entries.Nodup)
    (hbytes : bytes.toBytes = frame (service.keyGroupAt index) entries) :
    ∃ restored, service.restoreKeyGroup (service.keyGroupAt index) bytes = .ok restored ∧
      service.SameRange restored ∧ restored.timers = service.timers ∪
        { x | x.keyGroup = service.keyGroupAt index ∧ (x.domain, x.timer) ∈ entries } := by
  have hnew : ∀ entry : TimerDomain × TimerKey, entry.2 ∉ ({} : TimerGroup).timerSet entry.1 := by
    intro entry hmem
    cases hdomain : entry.1 <;> simp [timerSet, hdomain] at hmem
  obtain ⟨group, hinsert⟩ := exists_insertDecoded hnodup fun entry _ => hnew entry
  obtain ⟨-, -, hmem⟩ := insertDecoded_eq_ok.mp hinsert
  refine ⟨service.setGroup index group, ?_, NativeTimerService.sameRange_setGroup _ _, ?_⟩
  · rw [restoreKeyGroup_of_vacant bytes hindex h, decodeSnapshot_eq_ok.mpr ⟨hfits, hbytes⟩,
      ok_bind, hinsert]
    rfl
  · rw [timers_setGroup_of_vacant hindex h]
    ext x
    refine or_congr_right (and_congr_right fun _ => ?_)
    rw [hmem]
    exact or_iff_right (hnew (x.domain, x.timer))

/-- **Nothing else is accepted.** -/
theorem frame_of_restoreKeyGroup {restored : NativeTimerService}
    {bytes : Slice} (hindex : index < service.groups.length)
    (h : service.Vacant (service.keyGroupAt index))
    (hrestore : service.restoreKeyGroup (service.keyGroupAt index) bytes = .ok restored) :
    ∃ entries, Fits entries ∧ entries.Nodup ∧
        bytes.toBytes = frame (service.keyGroupAt index) entries := by
  rw [restoreKeyGroup_of_vacant bytes hindex h] at hrestore
  simp only [bind_eq_ok, decodeSnapshot_eq_ok] at hrestore
  obtain ⟨group, ⟨entries, ⟨hfits, hbytes⟩, hinsert⟩, -⟩ := hrestore
  exact ⟨entries, hfits, (insertDecoded_eq_ok.mp hinsert).1, hbytes⟩

end StreamFusion.State.TimerService
