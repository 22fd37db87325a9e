import Mathlib.Data.Nat.Bitwise
import Mathlib.Tactic.Ring
import StreamFusion.Lib.Wire

/-!
# Slots and variable parts

A container of fields starts with a bit mask of the fields that are missing, followed by one slot of
a fixed width for every field.  What does not fit into a slot is appended behind the slots, and the
slot then says where it is, relative to the start of the container.

A field is a `Cell`, or `none` if it is missing.  `containerBytes` is the whole container, and
`Region` one in the making: some of the slots are filled and the rest is still zero.  Filling the
slots one after the other gives the container (`bytes_putAll`), and two containers with the same
bytes have the same cells at the same places (`alike_of_containerBytes_eq`), provided that a slot
tells how long its variable part is.
-/

namespace StreamFusion.SlotLayout

open Wire List

/-! ## Bits -/

/-- Sets a bit. -/
def setBit (bit : Nat) (bytes : Bytes) : Bytes :=
  bytes.modify (bit / 8) fun byte => byte ||| 1 <<< UInt8.ofNat (bit % 8)

/-- Is the bit set? -/
def testBit (bit : Nat) (bytes : Bytes) : Bool :=
  (bytes.getD (bit / 8) 0).toNat.testBit (bit % 8)

@[simp] theorem length_setBit (bit : Nat) (bytes : Bytes) : (setBit bit bytes).length =
    bytes.length := by
  rw [setBit, length_modify]

theorem toNat_bit {i : Nat} (h : i < 8) : (1 <<< UInt8.ofNat i : UInt8).toNat = 2 ^ i := by
  interval_cases i <;> rfl

variable {bit : Nat}

/-- Setting a bit changes that bit only. -/
theorem testBit_setBit {bytes : Bytes} (h : bit / 8 < bytes.length) (bit' : Nat) :
    testBit bit' (setBit bit bytes) = (decide (bit = bit') || testBit bit' bytes) := by
  unfold testBit setBit
  rw [getD_eq_getElem?_getD, List.getElem?_modify, getD_eq_getElem?_getD]
  by_cases hbyte : bit / 8 = bit' / 8
  · simp only [if_pos hbyte]
    rw [← hbyte, List.getElem?_eq_getElem h]
    show (bytes[bit / 8] ||| 1 <<< UInt8.ofNat (bit % 8)).toNat.testBit (bit' % 8) =
      (decide (bit = bit') || bytes[bit / 8].toNat.testBit (bit' % 8))
    rw [UInt8.toNat_or, Nat.testBit_or, toNat_bit (Nat.mod_lt _ (by decide)), Nat.testBit_two_pow,
      Bool.or_comm]
    congr 1
    refine decide_eq_decide.mpr ⟨fun hmod => ?_, fun heq => by rw [heq]⟩
    omega
  · have hne : bit ≠ bit' := fun heq => hbyte (by rw [heq])
    simp only [if_neg hbyte]
    rw [decide_eq_false hne, Bool.false_or]
    simp

/-- A change inside a part leaves its neighbours. -/
theorem modify_between {before part after : Bytes} {index : Nat} (h : index < part.length)
    (change : UInt8 → UInt8) :
    (before ++ (part ++ after)).modify (before.length + index) change =
      before ++ (part.modify index change ++ after) := by
  have hinside : (part ++ after).modify index change = part.modify index change ++ after := by
    induction part generalizing index with
    | nil => exact absurd h (Nat.not_lt_zero _)
    | cons byte part ih =>
      cases index with
      | zero => rfl
      | succ index =>
        rw [cons_append, modify_succ_cons, ih (Nat.lt_of_succ_lt_succ h),
          modify_succ_cons, cons_append]
  induction before with
  | nil => simpa using hinside
  | cons byte before ih =>
    rw [cons_append, length_cons, Nat.add_right_comm, modify_succ_cons, ih, cons_append]

/-! ## Containers -/

/-- What a field stores: its slot, for a given offset of its variable part, and its variable
part. -/
structure Cell where
  slot : Nat → Bytes
  var : Bytes

/-- Zero bytes. -/
def zeros (n : Nat) : Bytes := List.replicate n 0

@[simp] theorem length_zeros (n : Nat) : (zeros n).length = n := length_replicate

theorem zeros_append (m n : Nat) : zeros m ++ zeros n = zeros (m + n) :=
  replicate_append_replicate

/-- A slot is filled up with zeros. -/
def fill (stride : Nat) (slot : Bytes) : Bytes := slot ++ zeros (stride - slot.length)

variable {stride : Nat} {slot : Bytes}

theorem length_fill (h : slot.length ≤ stride) : (fill stride slot).length = stride := by
  rw [fill, length_append, length_zeros]
  omega

/-- The mask with the bits of the missing fields, from a bit on. -/
def mark (bit : Nat) : List (Option Cell) → Bytes → Bytes
  | [], mask => mask
  | none :: items, mask => mark (bit + 1) items (setBit bit mask)
  | some _ :: items, mask => mark (bit + 1) items mask

/-- The slots of the fields, the first variable part being at an offset. -/
def slots (stride : Nat) : Nat → List (Option Cell) → Bytes
  | _, [] => []
  | offset, none :: items => zeros stride ++ slots stride offset items
  | offset, some cell :: items =>
    fill stride (cell.slot offset) ++ slots stride (offset + cell.var.length) items

/-- The variable parts of the fields. -/
def vars : List (Option Cell) → Bytes
  | [] => []
  | none :: items => vars items
  | some cell :: items => cell.var ++ vars items

/-- Rounds up to whole words. -/
def nextMultipleOf8 (n : Nat) : Nat := (n + 7) / 8 * 8

theorem le_nextMultipleOf8 (n : Nat) : n ≤ nextMultipleOf8 n := by
  unfold nextMultipleOf8
  omega

theorem nextMultipleOf8_mod (n : Nat) : nextMultipleOf8 n % 8 = 0 := by
  unfold nextMultipleOf8
  omega

/-- Where the variable parts of a container start. -/
def fixedSize (mask : Bytes) (stride count : Nat) : Nat :=
  nextMultipleOf8 (mask.length + count * stride)

/-- A container over a mask without bits of fields. -/
def containerBytes (mask : Bytes) (firstBit stride : Nat) (items : List (Option Cell)) : Bytes :=
  mark firstBit items mask ++ slots stride (fixedSize mask stride items.length) items ++
    zeros (fixedSize mask stride items.length - (mask.length + items.length * stride)) ++ vars items

@[simp] theorem length_mark (bit : Nat) (items : List (Option Cell)) (mask : Bytes) :
    (mark bit items mask).length = mask.length := by
  induction items generalizing bit mask with
  | nil => rfl
  | cons item items ih =>
    cases item with
    | none => rw [mark, ih, length_setBit]
    | some cell => rw [mark, ih]

/-- The slots of all fields fit. -/
def Fit (stride : Nat) (items : List (Option Cell)) : Prop :=
  ∀ cell, some cell ∈ items → ∀ offset, (cell.slot offset).length ≤ stride

variable {items : List (Option Cell)} {item : Option Cell}

theorem Fit.tail (h : Fit stride (item :: items)) : Fit stride items :=
  fun cell hcell => h cell (mem_cons_of_mem _ hcell)

theorem Fit.cons (h : Fit stride items)
    (hitem : ∀ cell, some cell = item → ∀ offset, (cell.slot offset).length ≤ stride) :
    Fit stride (item :: items) :=
  fun cell hcell => (mem_cons.mp hcell).elim (hitem cell) (h cell)

theorem length_slots (h : Fit stride items)
    (offset : Nat) : (slots stride offset items).length = items.length * stride := by
  induction items generalizing offset with
  | nil => simp [slots]
  | cons item items ih =>
    cases item with
    | none =>
      rw [slots, length_append, length_zeros, ih h.tail, length_cons]
      ring
    | some cell =>
      rw [slots, length_append, length_fill (h cell mem_cons_self offset), ih h.tail, length_cons]
      ring

variable {mask : Bytes} {firstBit : Nat}

theorem length_containerBytes (h : Fit stride items) :
    (containerBytes mask firstBit stride items).length =
      fixedSize mask stride items.length + (vars items).length := by
  have hle := le_nextMultipleOf8 (mask.length + items.length * stride)
  unfold containerBytes fixedSize
  rw [length_append, length_append, length_append, length_mark, length_slots h, length_zeros]
  omega

/-! ## Writing a container -/

/-- A container in the making, behind other bytes: some slots are filled, the others are zero. -/
structure Region where
  before : Bytes
  mask : Bytes
  slots : Bytes
  room : Nat
  vars : Bytes

variable {cell : Cell}

namespace Region

/-- The bytes of a container in the making. -/
def bytes (r : Region) : Bytes := r.before ++ r.mask ++ r.slots ++ zeros r.room ++ r.vars

/-- The size of the container so far, where the next variable part will be. -/
def size (r : Region) : Nat := r.mask.length + r.slots.length + r.room + r.vars.length

/-- Fills the next slot. -/
def put (stride bit : Nat) (r : Region) : Option Cell → Region
  | none =>
    { r with
      mask := setBit bit r.mask
      slots := r.slots ++ zeros stride
      room := r.room - stride }
  | some cell =>
    { r with
      slots := r.slots ++ fill stride (cell.slot r.size)
      room := r.room - stride
      vars := r.vars ++ cell.var }

/-- Fills all slots. -/
def putAll (stride : Nat) : Nat → List (Option Cell) → Region → Region
  | _, [], r => r
  | bit, item :: items, r => putAll stride (bit + 1) items (r.put stride bit item)

theorem length_bytes (r : Region) : r.bytes.length = r.before.length + r.size := by
  unfold bytes size
  simp only [length_append, length_zeros]
  omega

variable {r : Region}

theorem size_put_none (stride bit : Nat) (h : stride ≤ r.room) :
    (r.put stride bit none).size = r.size := by
  unfold size put
  simp only [length_setBit, length_append, length_zeros]
  omega

theorem size_put_some (stride bit : Nat) (h : stride ≤ r.room)
    (hfit : (cell.slot r.size).length ≤ stride) :
    (r.put stride bit (some cell)).size = r.size + cell.var.length := by
  show r.mask.length + (r.slots ++ fill stride (cell.slot r.size)).length + (r.room - stride) +
    (r.vars ++ cell.var).length = r.size + cell.var.length
  rw [length_append, length_append, length_fill hfit, size]
  omega

/-- More behind the container. -/
def extend (r : Region) (var : Bytes) : Region := { r with vars := r.vars ++ var }

theorem bytes_extend (r : Region) (var : Bytes) : (r.extend var).bytes = r.bytes ++ var := by
  simp only [extend, bytes, append_assoc]

theorem size_extend (r : Region) (var : Bytes) : (r.extend var).size = r.size + var.length := by
  simp only [extend, size, length_append]
  omega

/-- The container after a cell, without the filling of its slot. -/
theorem bytes_put_some (hslot : (cell.slot r.size).length ≤ stride) (hroom : stride ≤ r.room) :
    (r.put stride bit (some cell)).bytes =
      r.before ++ r.mask ++ r.slots ++ cell.slot r.size ++
        zeros (r.room - (cell.slot r.size).length) ++
        (r.vars ++ cell.var) := by
  have hzeros : zeros (stride - (cell.slot r.size).length) ++ zeros (r.room - stride) =
      zeros (r.room - (cell.slot r.size).length) := by
    rw [zeros_append]
    congr 1
    omega
  rw [← hzeros]
  simp only [put, bytes, fill, append_assoc]

/-- **Filling the slots gives the container.** -/
theorem bytes_putAll (hfit : Fit stride items) (bit : Nat)
    (hroom : items.length * stride ≤ r.room) :
    (r.putAll stride bit items).bytes =
      r.before ++ mark bit items r.mask ++ (r.slots ++ SlotLayout.slots stride r.size items) ++
        zeros (r.room - items.length * stride) ++ (r.vars ++ SlotLayout.vars items) := by
  -- the size of the region is the offset of the next variable part
  induction items generalizing bit r with
  | nil =>
    unfold putAll bytes mark SlotLayout.slots SlotLayout.vars
    simp
  | cons item items ih =>
    rw [length_cons, Nat.add_mul, Nat.one_mul] at hroom
    have hroom' : items.length * stride ≤ (r.put stride bit item).room := by
      cases item <;> exact Nat.le_sub_of_add_le hroom
    rw [putAll, ih hfit.tail _ hroom', length_cons, Nat.add_mul, Nat.one_mul]
    cases item with
    | none =>
      rw [size_put_none _ _ (by omega), mark, SlotLayout.slots, SlotLayout.vars]
      simp only [put, append_assoc, Nat.sub_sub, Nat.add_comm stride]
    | some cell =>
      rw [size_put_some _ _ (by omega) (hfit cell mem_cons_self _), mark, SlotLayout.slots,
        SlotLayout.vars]
      simp only [put, append_assoc, Nat.sub_sub, Nat.add_comm stride]

/-- A container without filled slots. -/
def start (before mask : Bytes) (stride count : Nat) : Region :=
  ⟨before, mask, [], fixedSize mask stride count - mask.length, []⟩

theorem bytes_start (before mask : Bytes) (stride count : Nat) :
    (start before mask stride count).bytes =
      before ++ mask ++ zeros (fixedSize mask stride count - mask.length) := by
  simp [start, bytes]

theorem size_start (before mask : Bytes) (stride count : Nat) :
    (start before mask stride count).size = fixedSize mask stride count := by
  have hle := le_nextMultipleOf8 (mask.length + count * stride)
  simp only [start, size, fixedSize, length_nil]
  omega

theorem bytes_putAll_start (before mask : Bytes) (hfit : Fit stride items) (bit : Nat) :
    ((start before mask stride items.length).putAll stride bit items).bytes =
      before ++ containerBytes mask bit stride items := by
  have hle := le_nextMultipleOf8 (mask.length + items.length * stride)
  rw [bytes_putAll hfit bit (by simp only [start, fixedSize]; omega), size_start]
  simp only [start, containerBytes, nil_append, append_assoc, Nat.sub_sub]

end Region

/-! ## Reading a container back -/

/-- The slots have the same width and tell the length of the variable part, below a bound of the
container's size. -/
def Comparable (bound : Nat) (item item' : Option Cell) : Prop :=
  ∀ cell ∈ item, ∀ cell' ∈ item', ∀ offset,
    (cell.slot offset).length = (cell'.slot offset).length ∧
      (offset + cell.var.length ≤ bound → offset + cell'.var.length ≤ bound →
        cell.slot offset = cell'.slot offset → cell.var.length = cell'.var.length)

/-- Both fields are missing, or they have the same slot and the same variable part. -/
inductive Alike (bound : Nat) : Option Cell → Option Cell → Prop
  | missing : Alike bound none none
  | cells {cell cell' : Cell} (offset : Nat) (hbound : offset + cell.var.length ≤ bound)
      (hslot : cell.slot offset = cell'.slot offset) (hvar : cell.var = cell'.var) :
      Alike bound (some cell) (some cell')

theorem testBit_mark_of_lt {bit' : Nat} (h : bit + items.length ≤ 8 * mask.length)
    (hlt : bit' < bit) :
    testBit bit' (mark bit items mask) = testBit bit' mask := by
  induction items generalizing bit mask with
  | nil => rfl
  | cons item items ih =>
    rw [length_cons] at h
    cases item with
    | none =>
      rw [mark, ih (by rw [length_setBit]; omega) (by omega), testBit_setBit (by omega),
        decide_eq_false (by omega), Bool.false_or]
    | some cell => rw [mark, ih (by omega) (by omega)]

/-- The bit of a field says whether it is missing. -/
theorem testBit_mark_cons
    (h : bit + (items.length + 1) ≤ 8 * mask.length) (hclear : testBit bit mask = false) :
    testBit bit (mark bit (item :: items) mask) = item.isNone := by
  cases item with
  | none =>
    rw [mark, testBit_mark_of_lt (by rw [length_setBit]; omega) (by omega),
      testBit_setBit (by omega), decide_eq_true rfl]
    rfl
  | some cell =>
    rw [mark, testBit_mark_of_lt (by omega) (by omega), hclear]
    rfl

/-- Neighbouring parts of the same length can be told apart. -/
theorem append_split {xs xs' ys ys' : Bytes} (h : xs ++ ys = xs' ++ ys')
    (hlength : xs.length = xs'.length) :
    xs = xs' ∧ ys = ys' :=
  append_inj h hlength

theorem fill_inj {slot' : Bytes} (hlength : slot.length = slot'.length)
    (h : fill stride slot = fill stride slot') : slot = slot' :=
  (append_split h hlength).1

variable {bound : Nat} {items' : List (Option Cell)}

section

variable (hcomparable : List.Forall₂ (Comparable bound) items items') (hfit : Fit stride items)
  (hfit' : Fit stride items')
include hcomparable hfit hfit'

/-- Equal containers hold cells that are alike. -/
theorem alike_of_eq {mask' : Bytes} (hbits : bit + items.length ≤ 8 * mask.length)
    (hlength : mask.length = mask'.length)
    (hclear : ∀ k, bit ≤ k → testBit k mask = false ∧ testBit k mask' = false)
    (hmask : mark bit items mask = mark bit items' mask') {offset : Nat}
    (hbound : offset + (vars items).length ≤ bound)
    (hslots : slots stride offset items = slots stride offset items') (hvars :
      vars items = vars items') :
    List.Forall₂ (Alike bound) items items' := by
  induction hcomparable generalizing bit mask mask' offset with
  | nil => exact .nil
  | @cons item item' items items' hhead htail ih =>
    rw [length_cons] at hbits
    have hsame := htail.length_eq
    have hnone : item.isNone = item'.isNone := by
      have hbits' : bit + (items'.length + 1) ≤ 8 * mask'.length := by omega
      rw [← testBit_mark_cons hbits (hclear bit le_rfl).1,
        ← testBit_mark_cons hbits' (hclear bit le_rfl).2, hmask]
    cases item with
    | none =>
      cases item' with
      | some cell' => cases hnone
      | none =>
        refine .cons .missing (ih hfit.tail hfit'.tail ?_ ?_ ?_ hmask hbound ?_ hvars)
        · rw [length_setBit]
          omega
        · rw [length_setBit, length_setBit, hlength]
        · intro k hk
          rw [testBit_setBit (by omega), testBit_setBit (by omega), decide_eq_false (by omega),
            Bool.false_or, Bool.false_or]
          exact hclear k (by omega)
        · exact (append_split hslots rfl).2
    | some cell =>
      cases item' with
      | none => cases hnone
      | some cell' =>
        obtain ⟨hwidth, hsize⟩ := hhead cell rfl cell' rfl offset
        have hfits := hfit cell mem_cons_self offset
        have hfits' := hfit' cell' mem_cons_self offset
        obtain ⟨hfill, hslots⟩ :=
          append_split hslots (by rw [length_fill hfits, length_fill hfits'])
        have hslot := fill_inj hwidth hfill
        rw [vars, length_append] at hbound
        have hbound' : offset + cell'.var.length ≤ bound := by
          have := congrArg List.length hvars
          rw [vars, vars, length_append, length_append] at this
          omega
        have hlengths := hsize (by omega) hbound' hslot
        obtain ⟨hvar, hvars⟩ := append_split hvars hlengths
        rw [← hlengths] at hslots
        have hbits' : bit + 1 + items.length ≤ 8 * mask.length := by omega
        have hclear' : ∀ k, bit + 1 ≤ k → testBit k mask = false ∧ testBit k mask' = false :=
          fun k hk => hclear k (by omega)
        have hbound'' : offset + cell.var.length + (vars items).length ≤ bound := by omega
        exact .cons (.cells offset (by omega) hslot hvar)
          (ih hfit.tail hfit'.tail hbits' hlength hclear' hmask hbound'' hslots hvars)

/-- **Containers with the same bytes have the same cells.** -/
theorem alike_of_containerBytes_eq (hbits : firstBit + items.length ≤ 8 * mask.length)
    (hclear : ∀ k, firstBit ≤ k → testBit k mask = false)
    (hbound : (containerBytes mask firstBit stride items).length ≤ bound)
    (h : containerBytes mask firstBit stride items = containerBytes mask firstBit stride items') :
    List.Forall₂ (Alike bound) items items' := by
  have hsame := hcomparable.length_eq
  rw [length_containerBytes hfit] at hbound
  unfold containerBytes at h
  rw [← hsame] at h
  simp only [append_assoc] at h
  obtain ⟨hmask, h⟩ := append_split h (by rw [length_mark, length_mark])
  obtain ⟨hslots, h⟩ := append_split h (by rw [length_slots hfit, length_slots hfit', hsame])
  obtain ⟨-, hvars⟩ := append_split h rfl
  exact alike_of_eq hcomparable hfit hfit' hbits rfl (fun k hk => ⟨hclear k hk, hclear k hk⟩) hmask
    hbound hslots hvars

end

/-! ## Where the variable parts are -/

/-- The slot of a field is written for the offset of its variable part. -/
theorem slot_at (hfit : Fit stride items) {position : Nat}
    (h : items[position]? = some (some cell)) (offset : Nat) :
    ∃ before after, vars items = before ++ (cell.var ++ after) ∧
      ((slots stride offset items).drop (position * stride)).take stride =
        fill stride (cell.slot (offset + before.length)) := by
  induction items generalizing position offset with
  | nil => simp at h
  | cons item items ih =>
    cases position with
    | zero =>
      obtain rfl : item = some cell := by simpa using h
      refine ⟨[], vars items, rfl, ?_⟩
      rw [slots, Nat.zero_mul, drop_zero, take_left' (length_fill (hfit cell mem_cons_self offset))]
      rfl
    | succ position =>
      have hnext : items[position]? = some (some cell) := by simpa using h
      have hskip : (position + 1) * stride = stride + position * stride := by ring
      cases item with
      | none =>
        obtain ⟨before, after, hvars, hslot⟩ := ih hfit.tail hnext offset
        refine ⟨before, after, hvars, ?_⟩
        rw [slots, hskip, ← drop_drop, drop_left' (length_zeros stride), hslot]
      | some cell' =>
        have hlength := length_fill (hfit cell' mem_cons_self offset)
        obtain ⟨before, after, hvars, hslot⟩ := ih hfit.tail hnext (offset + cell'.var.length)
        refine ⟨cell'.var ++ before, after, by rw [vars, hvars, append_assoc], ?_⟩
        rw [slots, hskip, ← drop_drop, drop_left' hlength, hslot, length_append, Nat.add_assoc]

theorem testBit_append {bytes after : Bytes} (h : bit / 8 < bytes.length) :
    testBit bit (bytes ++ after) = testBit bit bytes := by
  unfold testBit
  rw [getD_eq_getElem?_getD, List.getElem?_append_left h, getD_eq_getElem?_getD]

variable {position : Nat}

theorem testBit_mark_missing (hbits : bit + items.length ≤ 8 * mask.length)
    (h : items[position]? = some none) :
    testBit (bit + position) (mark bit items mask) = true := by
  induction items generalizing bit position mask with
  | nil => simp at h
  | cons item items ih =>
    rw [length_cons] at hbits
    cases position with
    | zero =>
      obtain rfl : item = none := by simpa using h
      rw [Nat.add_zero, mark, testBit_mark_of_lt (by rw [length_setBit]; omega) (by omega),
        testBit_setBit (by omega), decide_eq_true rfl, Bool.true_or]
    | succ position =>
      have hnext : items[position]? = some none := by simpa using h
      have hbit : bit + (position + 1) = bit + 1 + position := by omega
      rw [hbit]
      cases item with
      | none => exact ih (by rw [length_setBit]; omega) hnext
      | some cell => exact ih (by omega) hnext

/-- **Reading a field.**  A field that is not marked as missing has its slot at its place, for an
offset behind the slots at which the container has the variable part of the field. -/
theorem field_at (hfit : Fit stride items) (hbits : firstBit + items.length ≤ 8 * mask.length)
    (hitem : items[position]? = some item)
    (hnull : testBit (firstBit + position) (containerBytes mask firstBit stride items) = false) :
    ∃ cell offset, item = some cell ∧ mask.length + items.length * stride ≤ offset ∧
      offset + cell.var.length ≤ (containerBytes mask firstBit stride items).length ∧
      ((containerBytes mask firstBit stride items).drop offset).take cell.var.length = cell.var ∧
      ((containerBytes mask firstBit stride items).drop (mask.length + position * stride)).take
        stride =
        fill stride (cell.slot offset) := by
  have hposition : position < items.length := (List.getElem?_eq_some_iff.mp hitem).1
  have hfixed := le_nextMultipleOf8 (mask.length + items.length * stride)
  have hlength := length_slots hfit (fixedSize mask stride items.length)
  have htotal : (containerBytes mask firstBit stride items).length = _ := length_containerBytes hfit
  cases item with
  | none =>
    unfold containerBytes at hnull
    rw [append_assoc, append_assoc, testBit_append (by rw [length_mark]; omega),
      testBit_mark_missing hbits hitem] at hnull
    cases hnull
  | some cell =>
    obtain ⟨before, after, hvars, hslot⟩ := slot_at hfit hitem (fixedSize mask stride items.length)
    refine ⟨cell, fixedSize mask stride items.length + before.length, rfl, ?_, ?_, ?_, ?_⟩
    · exact hfixed.trans (Nat.le_add_right _ _)
    · rw [htotal, hvars]
      simp only [length_append]
      omega
    · have hfront :
        (mark firstBit items mask ++ slots stride (fixedSize mask stride items.length) items ++
          zeros (fixedSize mask stride items.length -
            (mask.length + items.length * stride))).length =
          fixedSize mask stride items.length := by
        rw [length_append, length_append, length_mark, hlength, length_zeros]
        unfold fixedSize
        omega
      rw [containerBytes, hvars, ← drop_drop, drop_left' hfront, drop_left' rfl, take_left' rfl]
    · have hroom : position * stride + stride ≤ items.length * stride := by
        rw [← Nat.succ_mul]
        exact Nat.mul_le_mul_right _ hposition
      rw [← hslot, containerBytes, append_assoc, append_assoc, ← drop_drop,
        drop_left' (length_mark ..),
        drop_append_of_le_length (by omega), take_append_of_le_length]
      rw [length_drop, hlength]
      omega

theorem length_vars_mod {n : Nat}
    (h : ∀ cell, some cell ∈ items → cell.var.length % n = 0) : (vars items).length % n = 0 := by
  induction items with
  | nil => simp [vars]
  | cons item items ih =>
    have htail := ih fun cell hcell => h cell (mem_cons_of_mem _ hcell)
    cases item with
    | none => exact htail
    | some cell =>
      rw [vars, length_append, Nat.add_mod, h cell mem_cons_self, htail]
      simp

end StreamFusion.SlotLayout
