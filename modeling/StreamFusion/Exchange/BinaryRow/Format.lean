import StreamFusion.Exchange.BinaryRow.Model

/-!
# The format of keys

The writer fills one buffer from several places.  The format says the same without a buffer: every
value is a cell, that is, a slot and a variable part, and a container is put together from its cells
(`cellOf`).  The variable part of a list, a map or a struct is the container of its own cells.

The main result is `encodeBinaryRowInto_eq`: the writer writes the format.  The proof follows the
writer through the values.  Its invariant is that the buffer is a `Region`, whose variable parts end
at a multiple of eight bytes.
-/

namespace StreamFusion.Exchange.BinaryRow

open Wire SlotLayout Except Region List

/-! ## Cells -/

/-- Filled up to a multiple of eight bytes. -/
def padded (content : Bytes) : Bytes :=
  content ++ zeros (nextMultipleOf8 content.length - content.length)

/-- The cell of a scalar. -/
def scalarCell : Scalar → Cell
  | .fixed value => ⟨fun _ => value, []⟩
  | .bytes value =>
    if value.length ≤ 7 then
      ⟨fun _ => value ++ zeros (7 - value.length) ++ [0x80 ||| UInt8.ofNat value.length], []⟩
    else ⟨fun offset => offsetAndSize offset value.length, padded value⟩
  | .noncompactTimestamp millis nanos => ⟨fun offset => offsetAndSize offset nanos, leInt 8 millis⟩
  | .noncompactDecimal unscaled =>
    let encoded := minimalTwosComplement unscaled
    ⟨fun offset => offsetAndSize offset encoded.length, encoded ++ zeros (16 - encoded.length)⟩

/-- The cell of a nested value. -/
def nestedCell (content : Bytes) : Cell :=
  ⟨fun offset => offsetAndSize offset content.length, padded content⟩

/-- The null bits of a row without nulls. -/
def rowMask (arity : Nat) : Bytes := zeros ((arity + 63 + 8) / 64 * 8)

/-- A row of cells. -/
def rowBytes (items : List (Option Cell)) : Bytes := containerBytes (rowMask items.length) 8 8 items

/-- The count and the null bits of an array without nulls. -/
def arrayMask (count : Nat) : Bytes := leInt 4 count ++ zeros (arrayNullBytes count - 4)

/-- An array of cells. -/
def arrayBytes (kind : KeyField) (items : List (Option Cell)) : Bytes :=
  containerBytes (arrayMask items.length) 32 (arrayStride kind) items

/-- A map from its two arrays. -/
def mapBytes (keys values : Bytes) : Bytes := leInt 4 keys.length ++ keys ++ values

mutual

/-- The cell of a value. -/
def cellOf (kind : KeyField) (type : DataType) : Value → Except ExchangeError (Option Cell)
  | .null => .ok none
  | .list elements =>
    match kind, type with
    | .nested, .list element => do
      let kind ← fromArrowType element
      let items ← elementCells kind element elements
      .ok (some (nestedCell (arrayBytes kind items)))
    | _, _ => .error (.castError "key row expected another array")
  | .map keys values =>
    match kind, type with
    | .nested, .map key value => do
      let keyKind ← fromArrowType key
      let keyItems ← elementCells keyKind key keys
      let valueKind ← fromArrowType value
      let valueItems ← elementCells valueKind value values
      .ok (some (nestedCell
        (mapBytes (arrayBytes keyKind keyItems) (arrayBytes valueKind valueItems))))
    | _, _ => .error (.castError "key row expected another array")
  | .struct columns =>
    match kind, type with
    | .nested, .struct fields => do
      let items ← columnCells fields columns
      .ok (some (nestedCell (rowBytes items)))
    | _, _ => .error (.castError "key row expected another array")
  | value => do
    let scalar ← scalarOf kind type value
    .ok (some (scalarCell scalar))

/-- The cells of the elements of an array. -/
def elementCells (kind : KeyField) (type : DataType) : List Value →
    Except ExchangeError (List (Option Cell))
  | [] => .ok []
  | value :: values => do
    let item ← match kind, value with
      | .float, .float bits => .ok (some (scalarCell (.fixed (leBytes 4 (canonicalFloat bits)))))
      | .double, .float bits => .ok (some (scalarCell (.fixed (leBytes 8 (canonicalDouble bits)))))
      | _, _ => cellOf kind type value
    let items ← elementCells kind type values
    .ok (item :: items)

/-- The cells of the fields of a struct. -/
def columnCells : List DataType → List Value → Except ExchangeError (List (Option Cell))
  | type :: types, value :: values => do
    let kind ← fromArrowType type
    let item ← cellOf kind type value
    let items ← columnCells types values
    .ok (item :: items)
  | _, _ => .ok []

end

/-- The cells of the key fields of a row. -/
def fieldCells (row : List Column) : List (Nat × KeyField) →
    Except ExchangeError (List (Option Cell))
  | [] => .ok []
  | (column, kind) :: fields =>
    match row[column]? with
    | some cell => do
      let item ← cellOf kind cell.type cell.value
      let items ← fieldCells row fields
      .ok (item :: items)
    | none => .error (.assertion "index out of bounds")

/-! ## Widths -/

@[simp] theorem length_offsetAndSize (offset size : Nat) : (offsetAndSize offset size).length = 8 :=
  length_leBytes ..

@[simp] theorem length_leInt (width : Nat) (value : Int) : (leInt width value).length = width :=
  length_leBytes ..

theorem length_padded (content : Bytes) : (padded content).length =
    nextMultipleOf8 content.length := by
  have hle := le_nextMultipleOf8 content.length
  rw [padded, length_append, length_zeros]
  omega

theorem length_dropSign_le (bytes : Bytes) : (dropSign bytes).length ≤ bytes.length := by
  fun_induction dropSign bytes with
  | case1 current next rest _ ih => exact ih.trans (Nat.le_succ _)
  | case2 => exact le_rfl
  | case3 => exact le_rfl

theorem length_minimalTwosComplement_le (value : Int) :
    (minimalTwosComplement value).length ≤ 16 := by
  refine (length_dropSign_le _).trans ?_
  rw [length_reverse, length_leInt]

/-- A slot of the width of its kind, and a variable part of whole words. -/
structure Cell.WellFormed (kind : KeyField) (cell : Cell) : Prop where
  slot : ∀ offset, (cell.slot offset).length = arrayStride kind
  var : cell.var.length % 8 = 0

theorem nestedCell_wellFormed (content : Bytes) : Cell.WellFormed .nested (nestedCell content) :=
  ⟨fun _ => length_offsetAndSize .., by
    show (padded content).length % 8 = 0
    rw [length_padded, nextMultipleOf8_mod]⟩

variable {kind : KeyField}

theorem scalarCell_bytes_wellFormed (hkind : arrayStride kind = 8) (value : Bytes) :
    Cell.WellFormed kind (scalarCell (.bytes value)) := by
  unfold scalarCell
  dsimp only
  split_ifs with hshort
  · refine ⟨fun _ => ?_, rfl⟩
    simp only [length_append, length_zeros, length_singleton, hkind]
    omega
  · refine ⟨fun _ => ?_, ?_⟩
    · rw [length_offsetAndSize, hkind]
    · rw [length_padded, nextMultipleOf8_mod]

variable {type : DataType} {value : Value} {scalar : Scalar}

/-- The cell of a scalar fits in its slot. -/
theorem scalarCell_wellFormed
    (h : scalarOf kind type value = .ok scalar) : Cell.WellFormed kind (scalarCell scalar) := by
  unfold scalarOf at h
  split at h
  case h_1 => cases h; exact ⟨fun _ => rfl, rfl⟩
  case h_8 | h_9 | h_10 => cases h; exact scalarCell_bytes_wellFormed rfl _
  case h_12 unit value =>
    obtain ⟨millis, -, h⟩ := bind_eq_ok.mp h
    cases h
    exact ⟨fun _ => length_leInt .., rfl⟩
  case h_13 precision unit value =>
    obtain ⟨parts, -, h⟩ := bind_eq_ok.mp h
    split_ifs at h <;> cases h
    · exact ⟨fun _ => length_leInt .., rfl⟩
    · exact ⟨fun _ => length_offsetAndSize .., by
        show (leInt 8 _).length % 8 = 0
        rw [length_leInt]⟩
  case h_14 precision _ value =>
    split_ifs at h <;> cases h
    · exact ⟨fun _ => length_leInt .., rfl⟩
    · have hle := length_minimalTwosComplement_le value
      refine ⟨fun _ => length_offsetAndSize .., ?_⟩
      show (minimalTwosComplement value ++ zeros _).length % 8 = 0
      rw [length_append, length_zeros]
      omega
  case h_15 | h_16 => cases h
  all_goals
    cases h
    exact ⟨fun _ => by simp [scalarCell, arrayStride], rfl⟩

variable {item : Option Cell}

/-- A value is null, a nested container or a scalar. -/
theorem cellOf_ok (h : cellOf kind type value = .ok item) :
    (value = .null ∧ item = none) ∨ (kind = .nested ∧ ∃ content, item = some (nestedCell content)) ∨
      ∃ scalar, scalarOf kind type value = .ok scalar ∧ item = some (scalarCell scalar) := by
  unfold cellOf at h
  split at h
  case h_1 =>
    cases h
    exact Or.inl ⟨rfl, rfl⟩
  case h_2 =>
    split at h
    · obtain ⟨_, -, h⟩ := bind_eq_ok.mp h
      obtain ⟨_, -, h⟩ := bind_eq_ok.mp h
      exact Or.inr (Or.inl ⟨rfl, _, (ok.inj h).symm⟩)
    · cases h
  case h_3 =>
    split at h
    · obtain ⟨_, -, h⟩ := bind_eq_ok.mp h
      obtain ⟨_, -, h⟩ := bind_eq_ok.mp h
      obtain ⟨_, -, h⟩ := bind_eq_ok.mp h
      obtain ⟨_, -, h⟩ := bind_eq_ok.mp h
      exact Or.inr (Or.inl ⟨rfl, _, (ok.inj h).symm⟩)
    · cases h
  case h_4 =>
    split at h
    · obtain ⟨_, -, h⟩ := bind_eq_ok.mp h
      exact Or.inr (Or.inl ⟨rfl, _, (ok.inj h).symm⟩)
    · cases h
  case h_5 =>
    obtain ⟨scalar, hscalar, h⟩ := bind_eq_ok.mp h
    exact Or.inr (Or.inr ⟨scalar, hscalar, (ok.inj h).symm⟩)

variable {cell : Cell}

/-- The cell of a value fits in its slot. -/
theorem cellOf_wellFormed (h : cellOf kind type value = .ok (some cell)) :
    Cell.WellFormed kind cell := by
  rcases cellOf_ok h with ⟨-, hnone⟩ | ⟨rfl, content, hcell⟩ | ⟨scalar, hscalar, hcell⟩
  · cases hnone
  · cases hcell
    exact nestedCell_wellFormed content
  · cases hcell
    exact scalarCell_wellFormed hscalar

/-! ## One slot is written -/

theorem splice_append (before after value : Bytes) :
    splice before.length value (before ++ after) = before ++ value ++ after.drop value.length := by
  rw [splice, take_left, drop_append, drop_eq_nil_of_le (by omega), nil_append,
    Nat.add_sub_cancel_left]

theorem drop_zeros (n m : Nat) : (zeros m).drop n = zeros (m - n) := drop_replicate

/-- The writer of a region, with room for some more slots. -/
structure Ready (writer : BinaryRowWriter) (position count : Nat) (r : Region) : Prop where
  base : writer.base = r.before.length
  nullBytes : writer.nullBytes = r.mask.length
  slots : r.slots.length = position * writer.stride
  room : count * writer.stride ≤ r.room
  bits : position + count + writer.nullBitOffset ≤ 8 * r.mask.length
  aligned : r.size % 8 = 0

variable {writer : BinaryRowWriter} {position : Nat} {r : Region} {count : Nat} {bytes : Bytes}

section Slot

section

variable (h : Ready writer position count r)
include h

theorem Ready.extend {var : Bytes} (hvar : var.length % 8 = 0) :
    Ready writer position count (r.extend var) := by
  refine ⟨h.base, h.nullBytes, h.slots, h.room, h.bits, ?_⟩
  have haligned := h.aligned
  rw [size_extend]
  omega

theorem Ready.fieldOffset : writer.fieldOffset position =
    (r.before ++ r.mask ++ r.slots).length := by
  rw [BinaryRowWriter.fieldOffset, h.base, h.nullBytes, ← h.slots, length_append, length_append]

theorem Ready.length : r.bytes.length = writer.base + r.size := by
  rw [length_bytes, h.base]

end

theorem Ready.room_one (h : Ready writer position (count + 1) r) : writer.stride ≤ r.room := by
  have hroom := h.room
  rw [Nat.add_mul, Nat.one_mul] at hroom
  omega

theorem writeFixed_bytes
    (hoffset : writer.fieldOffset position = (r.before ++ r.mask ++ r.slots).length)
    {value : Bytes} (hvalue : value.length ≤ r.room) :
    writer.writeFixed position value r.bytes =
      r.before ++ r.mask ++ r.slots ++ value ++ zeros (r.room - value.length) ++ r.vars := by
  rw [BinaryRowWriter.writeFixed, hoffset]
  unfold bytes
  rw [append_assoc _ (zeros r.room), splice_append, drop_append, drop_zeros, length_zeros,
    Nat.sub_eq_zero_of_le hvalue, drop_zero, ← append_assoc]

/-- The variable part is behind the container, then the slot is written. -/
theorem Ready.put_cell (h : Ready writer position (count + 1) r)
    (hkind : arrayStride kind ≤ writer.stride) (hcell : Cell.WellFormed kind cell)
    (bit : Nat) :
    writer.writeFixed position (cell.slot r.size) (r.extend cell.var).bytes =
      (r.put writer.stride bit (some cell)).bytes := by
  have hslot : (cell.slot r.size).length ≤ writer.stride := by rw [hcell.slot]; exact hkind
  rw [writeFixed_bytes (h.extend hcell.var).fieldOffset (hslot.trans h.room_one),
    bytes_put_some hslot h.room_one]
  rfl

theorem align_eq (haligned : r.size % 8 = 0) (content : Bytes)
    (hlength : bytes.length = writer.base + r.size + content.length) :
    writer.align bytes = bytes ++ zeros (nextMultipleOf8 content.length - content.length) := by
  have hle := le_nextMultipleOf8 content.length
  have hnext : nextMultipleOf8 (bytes.length - writer.base) =
      r.size + nextMultipleOf8 content.length := by
    rw [hlength]
    unfold nextMultipleOf8
    omega
  rw [BinaryRowWriter.align, resize, hnext, take_of_length_le (by omega), hlength]
  congr 2
  omega

/-- The marker of a short value is set at the end of its slot. -/
theorem set_marker {before value after : Bytes} {room more : Nat} {marker : UInt8}
    (hshort : value.length ≤ 7) (hmore : room = 8 + more) :
    (before ++ value ++ (zeros (7 - value.length) ++ ([0] ++ zeros more)) ++ after).set
        (before.length + 7) marker =
      before ++ (value ++ zeros (7 - value.length) ++ [marker]) ++
        zeros (room - (value ++ zeros (7 - value.length) ++ [marker]).length) ++ after := by
  have hlength : (before ++ value ++ zeros (7 - value.length)).length = before.length + 7 := by
    simp only [length_append, length_zeros]
    omega
  have hroom : room - (value ++ zeros (7 - value.length) ++ [marker]).length = more := by
    simp only [length_append, length_zeros, length_singleton]
    omega
  rw [hroom, ← hlength]
  have hsplit : before ++ value ++ (zeros (7 - value.length) ++ ([0] ++ zeros more)) ++ after =
      (before ++ value ++ zeros (7 - value.length)) ++ ([0] ++ (zeros more ++ after)) := by
    simp only [append_assoc]
  rw [hsplit, set_append_right _ _ le_rfl, Nat.sub_self]
  simp only [append_assoc]
  rfl

section

variable (h : Ready writer position (count + 1) r)
include h

/-- Writing a scalar puts its cell. -/
theorem Ready.writeScalar (hkind : arrayStride kind ≤ writer.stride)
    (hcell : Cell.WellFormed kind (scalarCell scalar)) (bit : Nat) :
    writer.writeScalar position scalar r.bytes =
      (r.put writer.stride bit (some (scalarCell scalar))).bytes := by
  have hput := h.put_cell hkind hcell bit
  have hoffset : r.bytes.length - writer.base = r.size := by
    rw [h.length, Nat.add_sub_cancel_left]
  cases scalar with
  | fixed value =>
    rw [bytes_extend] at hput
    refine Eq.trans ?_ hput
    show writer.writeFixed position value r.bytes = writer.writeFixed position value (r.bytes ++ [])
    rw [append_nil]
  | bytes value =>
    by_cases hshort : value.length ≤ 7
    · -- the marker is set behind the value, at the end of the slot
      have hinline : scalarCell (.bytes value) =
          ⟨fun _ => value ++ zeros (7 - value.length) ++ [0x80 ||| UInt8.ofNat value.length], []⟩ :=
        if_pos hshort
      have hslot := hcell.slot r.size
      have hroom := h.room_one
      rw [hinline] at hput hslot ⊢
      simp only [length_append, length_zeros, length_singleton] at hslot
      obtain ⟨more, hmore⟩ : ∃ more, r.room = 8 + more := ⟨r.room - 8, by omega⟩
      have hzeros : zeros (r.room - value.length) = zeros (7 - value.length) ++
          ([0] ++ zeros more) := by
        rw [show ([0] : Bytes) = zeros 1 from rfl, zeros_append, zeros_append]
        congr 1
        omega
      have hwrite := writeFixed_bytes h.fieldOffset (show value.length ≤ r.room by omega)
      rw [BinaryRowWriter.writeFixed] at hwrite
      rw [← hput, bytes_extend, append_nil, writeFixed_bytes h.fieldOffset (by simp; omega)]
      show writer.writeBytes position value r.bytes = _
      rw [BinaryRowWriter.writeBytes, if_pos hshort, hwrite, h.fieldOffset, hzeros]
      exact set_marker hshort hmore
    · have hlong : scalarCell (.bytes value) =
          ⟨fun offset => offsetAndSize offset value.length, padded value⟩ := if_neg hshort
      rw [hlong] at hput ⊢
      rw [← hput, bytes_extend]
      show writer.writeBytes position value r.bytes = _
      have halign : writer.align (r.bytes ++ value) = r.bytes ++ padded value := by
        rw [align_eq h.aligned value (by rw [length_append, h.length]), padded, append_assoc]
      rw [BinaryRowWriter.writeBytes, if_neg hshort, halign]
      dsimp only
      rw [hoffset]
      rfl
  | noncompactTimestamp millis nanos =>
    rw [← hput, bytes_extend]
    show writer.writeNoncompactTimestamp position millis nanos r.bytes = _
    rw [BinaryRowWriter.writeNoncompactTimestamp, hoffset]
    rfl
  | noncompactDecimal unscaled =>
    have hle := length_minimalTwosComplement_le unscaled
    rw [← hput, bytes_extend]
    show writer.writeNoncompactDecimal position unscaled r.bytes = _
    have hresize : resize (r.bytes.length + 16) r.bytes = r.bytes ++ zeros 16 := by
      rw [resize, take_of_length_le (by omega), Nat.add_sub_cancel_left]
    rw [BinaryRowWriter.writeNoncompactDecimal, hoffset, hresize, splice_append,
      drop_zeros, append_assoc]
    rfl

/-- Finishing a nested value puts its cell. -/
theorem Ready.finishNested (hkind : 8 ≤ writer.stride) (content : Bytes) (bit : Nat) :
    writer.finishNested position r.bytes.length (r.bytes ++ content) =
      (r.put writer.stride bit (some (nestedCell content))).bytes := by
  have hoffset : r.bytes.length - writer.base = r.size := by
    rw [h.length, Nat.add_sub_cancel_left]
  have hslot : (offsetAndSize r.size content.length).length ≤ writer.stride := by
    rw [length_offsetAndSize]
    exact hkind
  have hwrite :
    writer.writeFixed position (offsetAndSize r.size content.length) (r.extend content).bytes =
      r.before ++ r.mask ++ r.slots ++ offsetAndSize r.size content.length ++ zeros (r.room - 8) ++
        (r.vars ++ content) := by
    have hwrite := writeFixed_bytes (r := r.extend content) h.fieldOffset (hslot.trans h.room_one)
    rw [length_offsetAndSize] at hwrite
    exact hwrite
  rw [BinaryRowWriter.finishNested, hoffset, length_append, Nat.add_sub_cancel_left,
    ← bytes_extend, hwrite, align_eq h.aligned content,
    bytes_put_some (by exact hslot) h.room_one]
  · simp only [nestedCell, padded, length_offsetAndSize, append_assoc]
  · have hroom := h.room_one
    rw [h.base, size]
    simp only [length_append, length_offsetAndSize, length_zeros]
    omega

/-- Writing a null puts a missing cell. -/
theorem Ready.setNull : writer.setNull position r.bytes =
      (r.put writer.stride (position + writer.nullBitOffset) none).bytes := by
  have hbits := h.bits
  have hroom := h.room_one
  have hzeros : zeros writer.stride ++ zeros (r.room - writer.stride) = zeros r.room := by
    rw [zeros_append]
    congr 1
    omega
  have hput : (r.put writer.stride (position + writer.nullBitOffset) none).bytes =
      r.before ++ (setBit (position + writer.nullBitOffset) r.mask ++
        (r.slots ++ zeros r.room ++ r.vars)) := by
    rw [← hzeros]
    simp only [put, bytes, append_assoc]
  rw [hput, BinaryRowWriter.setNull, h.base]
  unfold bytes
  rw [append_assoc, append_assoc, append_assoc, modify_between (by omega), setBit, append_assoc]

end

end Slot

/-! ## The writer writes the format -/

section Run

/-- The writer is ready for the next field. -/
theorem Ready.put (h : Ready writer position (count + 1) r)
    (hkind : arrayStride kind ≤ writer.stride)
    (hitem : ∀ cell ∈ item, Cell.WellFormed kind cell) (bit : Nat) :
    Ready writer (position + 1) count (r.put writer.stride bit item) := by
  have hroom := h.room
  have hone := h.room_one
  have hbits := h.bits
  have hslots := h.slots
  have haligned := h.aligned
  rw [Nat.add_mul, Nat.one_mul] at hroom
  cases item with
  | none =>
    refine ⟨h.base, ?_, ?_, ?_, ?_, ?_⟩
    · exact h.nullBytes.trans (length_setBit ..).symm
    · show (r.slots ++ zeros writer.stride).length = _
      rw [length_append, length_zeros, hslots, Nat.add_mul, Nat.one_mul]
    · show _ ≤ r.room - writer.stride
      omega
    · show _ ≤ 8 * (setBit bit r.mask).length
      rw [length_setBit]
      omega
    · rw [size_put_none _ _ hone]
      exact haligned
  | some cell =>
    have hcell := hitem cell rfl
    have hslot : (cell.slot r.size).length ≤ writer.stride := by rw [hcell.slot]; exact hkind
    refine ⟨h.base, h.nullBytes, ?_, ?_, ?_, ?_⟩
    · show (r.slots ++ fill writer.stride (cell.slot r.size)).length = _
      rw [length_append, length_fill hslot, hslots, Nat.add_mul, Nat.one_mul]
    · show _ ≤ r.room - writer.stride
      omega
    · show _ ≤ 8 * r.mask.length
      omega
    · have hvar := hcell.var
      rw [size_put_some _ _ hone hslot]
      omega

theorem resize_append (before : Bytes) (n : Nat) : resize (before.length + n) before =
    before ++ zeros n := by
  rw [resize, take_of_length_le (Nat.le_add_right ..), Nat.add_sub_cancel_left]

theorem length_arrayMask (count : Nat) : (arrayMask count).length = arrayNullBytes count := by
  rw [arrayMask, length_append, length_leInt, length_zeros, arrayNullBytes]
  omega

section

variable (kind : KeyField) (count : Nat) (bytes : Bytes)

theorem openArray_eq : openArray kind count bytes =
      (⟨bytes.length, arrayStride kind, 32, arrayNullBytes count⟩,
        (start bytes (arrayMask count) (arrayStride kind) count).bytes) := by
  have hle := le_nextMultipleOf8 (arrayNullBytes count + count * arrayStride kind)
  have hmask : 4 ≤ arrayNullBytes count := Nat.le_add_right ..
  refine Prod.ext rfl ?_
  show splice bytes.length (leInt 4 count) _ = _
  rw [resize_append, splice_append, length_leInt, drop_zeros, bytes_start, fixedSize,
    length_arrayMask, arrayMask, append_assoc, append_assoc, append_assoc, zeros_append]
  congr 3
  omega

theorem ready_openArray :
    Ready ⟨bytes.length, arrayStride kind, 32, arrayNullBytes count⟩ 0 count
      (start bytes (arrayMask count) (arrayStride kind) count) := by
  have hle := le_nextMultipleOf8 ((arrayMask count).length + count * arrayStride kind)
  refine ⟨rfl, (length_arrayMask count).symm, (Nat.zero_mul _).symm, ?_, ?_, ?_⟩
  · show count * arrayStride kind ≤ fixedSize _ _ _ - _
    rw [fixedSize]
    omega
  · show 0 + count + 32 ≤ 8 * (arrayMask count).length
    rw [length_arrayMask, arrayNullBytes]
    omega
  · rw [size_start, fixedSize, nextMultipleOf8_mod]

end

theorem openRow_eq (arity : Nat) (bytes : Bytes) : openRow arity bytes =
      (⟨bytes.length, 8, 8, (rowMask arity).length⟩,
          (start bytes (rowMask arity) 8 arity).bytes) := by
  rw [rowMask, length_zeros]
  refine Prod.ext rfl ?_
  show resize _ bytes = _
  rw [resize_append, bytes_start, fixedSize, length_zeros, append_assoc, zeros_append]
  congr 2
  unfold nextMultipleOf8
  omega

theorem ready_openRow (arity : Nat) (bytes : Bytes) :
    Ready ⟨bytes.length, 8, 8, (rowMask arity).length⟩ 0 arity
      (start bytes (rowMask arity) 8 arity) := by
  have hle := le_nextMultipleOf8 ((rowMask arity).length + arity * 8)
  refine ⟨rfl, rfl, rfl, ?_, ?_, ?_⟩
  · show arity * 8 ≤ fixedSize _ _ _ - _
    rw [fixedSize]
    omega
  · show 0 + arity + 8 ≤ 8 * (rowMask arity).length
    rw [rowMask, length_zeros]
    omega
  · rw [size_start, fixedSize, nextMultipleOf8_mod]

/-- Writes one element of an array. -/
def writeElement (writer : BinaryRowWriter) (position : Nat) (kind : KeyField) (type : DataType)
    (value : Value) (bytes : Bytes) : Except ExchangeError Bytes :=
  match kind, value with
  | .float, .float bits => .ok (writer.writeFixed position (leBytes 4 (canonicalFloat bits)) bytes)
  | .double, .float bits =>
    .ok (writer.writeFixed position (leBytes 8 (canonicalDouble bits)) bytes)
  | _, _ => writeValue writer position kind type value bytes

theorem Ready.writeScalar_map (h : Ready writer position (count + 1) r)
    (hkind : arrayStride kind ≤ writer.stride) (bit : Nat) :
    (do
      let scalar ← scalarOf kind type value
      .ok (writer.writeScalar position scalar r.bytes)) =
      (do
        let scalar ← scalarOf kind type value
        .ok (some (scalarCell scalar)) : Except ExchangeError (Option Cell)).map fun item =>
        (r.put writer.stride bit item).bytes := by
  cases hscalar : scalarOf kind type value with
  | error error => rfl
  | ok scalar => exact congrArg ok (h.writeScalar hkind (scalarCell_wellFormed hscalar) bit)

end Run

theorem arrayStride_le (kind : KeyField) : arrayStride kind ≤ 8 := by
  cases kind <;> simp [arrayStride]

/-- The cell of one element. -/
def elementCell (kind : KeyField) (type : DataType) (value : Value) :
    Except ExchangeError (Option Cell) :=
  match kind, value with
  | .float, .float bits => .ok (some (scalarCell (.fixed (leBytes 4 (canonicalFloat bits)))))
  | .double, .float bits => .ok (some (scalarCell (.fixed (leBytes 8 (canonicalDouble bits)))))
  | _, _ => cellOf kind type value

theorem elementCells_cons (kind : KeyField) (type : DataType) (value : Value)
    (values : List Value) :
    elementCells kind type (value :: values) = (do
      let item ← elementCell kind type value
      let items ← elementCells kind type values
      .ok (item :: items)) := by
  cases kind <;> cases value <;> rfl

theorem elementCell_wellFormed
    (h : elementCell kind type value = .ok (some cell)) : Cell.WellFormed kind cell := by
  unfold elementCell at h
  split at h
  · cases h
    exact ⟨fun _ => length_leBytes .., rfl⟩
  · cases h
    exact ⟨fun _ => length_leBytes .., rfl⟩
  · exact cellOf_wellFormed h

variable {values : List Value} {items : List (Option Cell)}

/-- An array has a cell for each element. -/
theorem elementCells_ok (h : elementCells kind type values = .ok items) :
    items.length = values.length ∧ Fit (arrayStride kind) items := by
  induction values generalizing items with
  | nil =>
    rw [elementCells] at h
    cases h
    exact ⟨rfl, nofun⟩
  | cons value values ih =>
    rw [elementCells_cons] at h
    obtain ⟨item, rest, hitem, hrest, rfl⟩ := of_cons_eq_ok h
    obtain ⟨hlength, hfit⟩ := ih hrest
    refine ⟨congrArg (· + 1) hlength, hfit.cons ?_⟩
    rintro cell rfl offset
    exact ((elementCell_wellFormed hitem).slot offset).le

/-- A row has a cell for each column. -/
theorem columnCells_ok {types : List DataType}
    (htyped : haveTypes types values = true) (h : columnCells types values = .ok items) :
    items.length = types.length ∧ Fit 8 items := by
  induction types generalizing values items with
  | nil =>
    rw [columnCells] at h
    · cases h
      exact ⟨rfl, nofun⟩
    · nofun
  | cons type types ih =>
    cases values with
    | nil => simp [haveTypes] at htyped
    | cons value values =>
      rw [haveTypes, Bool.and_eq_true] at htyped
      rw [columnCells] at h
      obtain ⟨kind, -, h⟩ := bind_eq_ok.mp h
      obtain ⟨item, rest, hitem, hrest, rfl⟩ := of_cons_eq_ok h
      obtain ⟨hlength, hfit⟩ := ih htyped.2 hrest
      refine ⟨congrArg (· + 1) hlength, hfit.cons ?_⟩
      rintro cell rfl offset
      exact ((cellOf_wellFormed hitem).slot offset).le.trans (arrayStride_le kind)

theorem writeElements_cons (writer : BinaryRowWriter) (kind : KeyField) (type : DataType)
    (position : Nat) (value : Value) (values : List Value) (bytes : Bytes) :
    writeElements writer kind type position (value :: values) bytes = (do
      let bytes ← writeElement writer position kind type value bytes
      writeElements writer kind type (position + 1) values bytes) := by
  cases kind <;> cases value <;> rfl

theorem hasType_list {elements : List Value} (h : hasType type (.list elements) = true) :
    ∃ element, type = .list element ∧ haveType element elements = true := by
  cases type with
  | list element => exact ⟨element, rfl, h⟩
  | _ => simp [hasType] at h

theorem hasType_map {keys : List Value} (h : hasType type (.map keys values) = true) :
    ∃ key value, type = .map key value ∧ keys.length = values.length ∧ haveType key keys = true ∧
      haveType value values = true := by
  cases type with
  | map key value =>
    rw [hasType, Bool.and_eq_true, Bool.and_eq_true, decide_eq_true_eq] at h
    exact ⟨key, value, rfl, h.1.1, h.1.2, h.2⟩
  | _ => simp [hasType] at h

theorem hasType_struct {columns : List Value} (h : hasType type (.struct columns) = true) :
    ∃ fields, type = .struct fields ∧ haveTypes fields columns = true := by
  cases type with
  | struct fields => exact ⟨fields, rfl, h⟩
  | _ => simp [hasType] at h

/-- Writes an array behind other bytes. -/
def appendArray (type : DataType) (values : List Value) (bytes : Bytes) :
    Except ExchangeError Bytes := do
  let kind ← fromArrowType type
  let (child, bytes) := openArray kind values.length bytes
  writeElements child kind type 0 values bytes

/-- The bytes of an array. -/
def arrayOf (type : DataType) (values : List Value) : Except ExchangeError Bytes := do
  let kind ← fromArrowType type
  let items ← elementCells kind type values
  .ok (arrayBytes kind items)

theorem writeValue_list (writer : BinaryRowWriter) (position : Nat) (element : DataType)
    (elements : List Value) (bytes : Bytes) :
    writeValue writer position .nested (.list element) (.list elements) bytes = (do
      let appended ← appendArray element elements bytes
      .ok (writer.finishNested position bytes.length appended)) := by
  rw [appendArray, bind_assoc]
  rfl

theorem cellOf_list (element : DataType) (elements : List Value) :
    cellOf .nested (.list element) (.list elements) = (do
      let content ← arrayOf element elements
      .ok (some (nestedCell content))) := by
  rw [arrayOf, bind_assoc]
  simp only [bind_assoc]
  rfl

theorem writeValue_map (writer : BinaryRowWriter) (position : Nat) (key value : DataType)
    (keys values : List Value) (bytes : Bytes) :
    writeValue writer position .nested (.map key value) (.map keys values) bytes = (do
      let appended ← appendArray key keys (bytes ++ zeros 4)
      let appended ← appendArray value values
        (splice bytes.length (leInt 4 (appended.length - bytes.length - 4 : Nat)) appended)
      .ok (writer.finishNested position bytes.length appended)) := by
  rw [writeValue]
  unfold appendArray
  cases fromArrowType key with
  | error error => rfl
  | ok keyKind =>
    show (do
      let appended ← writeElements (openArray keyKind keys.length (bytes ++ zeros 4)).1
        keyKind key 0 keys
        (openArray keyKind keys.length (bytes ++ zeros 4)).2
      _) = (do
      let appended ← writeElements (openArray keyKind keys.length (bytes ++ zeros 4)).1
        keyKind key 0 keys
        (openArray keyKind keys.length (bytes ++ zeros 4)).2
      _)
    refine bind_congr fun appended => ?_
    cases fromArrowType value with
    | error error => rfl
    | ok valueKind => rfl

theorem cellOf_map (key value : DataType) (keys values : List Value) :
    cellOf .nested (.map key value) (.map keys values) = (do
      let keyBytes ← arrayOf key keys
      let valueBytes ← arrayOf value values
      .ok (some (nestedCell (mapBytes keyBytes valueBytes)))) := by
  simp only [arrayOf, bind_assoc]
  rfl

theorem cellOf_struct (fields : List DataType) (columns : List Value) :
    cellOf .nested (.struct fields) (.struct columns) = (do
      let items ← columnCells fields columns
      .ok (some (nestedCell (rowBytes items)))) := rfl

/-- A cell, and the cells behind it. -/
theorem Ready.write_cons
    (h : Ready writer position (count + 1) r) (hkind : arrayStride kind ≤ writer.stride)
    {first : Except ExchangeError (Option Cell)} {rest : Except ExchangeError (List (Option Cell))}
    {write : Bytes → Except ExchangeError Bytes}
    (hfirst : ∀ {cell}, first = .ok (some cell) → Cell.WellFormed kind cell)
    (hrest : ∀ {r}, Ready writer (position + 1) count r → write r.bytes = rest.map fun items =>
      (r.putAll writer.stride (position + 1 + writer.nullBitOffset) items).bytes) :
    (first.map fun item =>
      (r.put writer.stride (position + writer.nullBitOffset) item).bytes) >>= write =
      (do
        let item ← first
        let items ← rest
        .ok (item :: items) : Except ExchangeError _).map fun items =>
          (r.putAll writer.stride (position + writer.nullBitOffset) items).bytes := by
  cases first with
  | error error => rfl
  | ok item =>
    have hready :=
      h.put hkind (fun cell hcell => hfirst (congrArg ok hcell)) (position + writer.nullBitOffset)
    show write (r.put _ _ item).bytes = _
    rw [hrest hready, ok_bind]
    cases rest with
    | error error => rfl
    | ok items =>
      refine congrArg ok ?_
      show (putAll _ (position + 1 + _) items _).bytes = (putAll _ _ (item :: items) r).bytes
      rw [putAll, Nat.add_right_comm]

/-- An array behind some bytes, if its elements are written as they should be. -/
theorem appendArray_of (hwrite : ∀ kind, ∀ {writer : BinaryRowWriter} {position : Nat} {r : Region},
      Ready writer position values.length r → arrayStride kind ≤ writer.stride →
      writeElements writer kind type position values r.bytes =
        (elementCells kind type values).map fun items =>
          (r.putAll writer.stride (position + writer.nullBitOffset) items).bytes) :
    appendArray type values bytes = (arrayOf type values).map fun content => bytes ++ content := by
  unfold appendArray arrayOf
  cases fromArrowType type with
  | error error => rfl
  | ok kind =>
    rw [ok_bind, ok_bind, openArray_eq]
    dsimp only
    rw [hwrite kind (ready_openArray kind values.length bytes) le_rfl]
    cases hitems : elementCells kind type values with
    | error error => rfl
    | ok items =>
      obtain ⟨hlength, hfit⟩ := elementCells_ok hitems
      rw [← hlength]
      exact congrArg ok (bytes_putAll_start _ _ hfit _)

theorem splice_keySize (bytes keyBytes : Bytes) :
    splice bytes.length (leInt 4 ((bytes ++ zeros 4 ++ keyBytes).length - bytes.length - 4 : Nat))
        (bytes ++ zeros 4 ++ keyBytes) =
      bytes ++ (leInt 4 keyBytes.length ++ keyBytes) := by
  have hsize : (bytes ++ zeros 4 ++ keyBytes).length - bytes.length - 4 = keyBytes.length := by
    simp only [length_append, length_zeros]
    omega
  rw [hsize, append_assoc, splice_append, length_leInt, drop_left' (length_zeros 4), append_assoc]

mutual

/-- Writing a value puts its cell. -/
theorem writeValue_eq (kind : KeyField) (type : DataType) : ∀ (value : Value),
    hasType type value = true → ∀ {writer : BinaryRowWriter} {position count : Nat} {r : Region},
    Ready writer position (count + 1) r → arrayStride kind ≤ writer.stride →
    writeValue writer position kind type value r.bytes = (cellOf kind type value).map fun item =>
        (r.put writer.stride (position + writer.nullBitOffset) item).bytes
  | .null, _, writer, position, count, r, h, _ => by
    rw [writeValue, cellOf, h.setNull]
    rfl
  | .bool _, _, _, _, _, _, h, hkind | .int _, _, _, _, _, _, h, hkind | .float _, _, _,
    _, _, _, h, hkind
  | .bytes _, _, _, _, _, _, h, hkind => by
    rw [writeValue, cellOf]
    · exact h.writeScalar_map hkind _
    all_goals nofun
  | .list elements, htyped, writer, position, count, r, h, hkind => by
    obtain ⟨element, rfl, htyped⟩ := hasType_list htyped
    by_cases hnested : kind = .nested
    · subst hnested
      have happend : appendArray element elements r.bytes =
          (arrayOf element elements).map fun content => r.bytes ++ content :=
        appendArray_of fun kind => writeElements_eq kind element elements htyped
      rw [writeValue_list, cellOf_list, happend]
      cases arrayOf element elements with
      | error error => rfl
      | ok content => exact congrArg ok (h.finishNested hkind content _)
    · cases kind <;> first | rfl | exact absurd rfl hnested
  | .map keys values, htyped, writer, position, count, r, h, hkind => by
    obtain ⟨key, value, rfl, -, hkeys, hvalues⟩ := hasType_map htyped
    by_cases hnested : kind = .nested
    · subst hnested
      have happendKeys : ∀ bytes, appendArray key keys bytes =
          (arrayOf key keys).map fun content => bytes ++ content :=
        fun bytes => appendArray_of fun kind => writeElements_eq kind key keys hkeys
      have happendValues : ∀ bytes, appendArray value values bytes =
          (arrayOf value values).map fun content => bytes ++ content :=
        fun bytes => appendArray_of fun kind => writeElements_eq kind value values hvalues
      rw [writeValue_map, cellOf_map, happendKeys]
      cases arrayOf key keys with
      | error error => rfl
      | ok keyBytes =>
        show (do
          let appended ← appendArray value values
            (splice r.bytes.length _ (r.bytes ++ zeros 4 ++ keyBytes))
          .ok (writer.finishNested position r.bytes.length appended)) = _
        rw [splice_keySize, happendValues, ok_bind]
        cases arrayOf value values with
        | error error => rfl
        | ok valueBytes =>
          refine congrArg ok ?_
          show writer.finishNested position r.bytes.length
            (r.bytes ++ (leInt 4 keyBytes.length ++ keyBytes) ++ valueBytes) = _
          rw [append_assoc]
          exact h.finishNested hkind (mapBytes keyBytes valueBytes) _
    · cases kind <;> first | rfl | exact absurd rfl hnested
  | .struct columns, htyped, writer, position, count, r, h, hkind => by
    obtain ⟨fields, rfl, htyped⟩ := hasType_struct htyped
    by_cases hnested : kind = .nested
    · subst hnested
      rw [writeValue, cellOf_struct, openRow_eq]
      dsimp only
      rw [writeColumns_eq fields columns htyped (ready_openRow fields.length r.bytes) le_rfl]
      cases hitems : columnCells fields columns with
      | error error => rfl
      | ok items =>
        obtain ⟨hlength, hfit⟩ := columnCells_ok htyped hitems
        rw [← hlength]
        have hbytes := bytes_putAll_start r.bytes (rowMask items.length) hfit 8
        exact congrArg ok ((congrArg (writer.finishNested position r.bytes.length) hbytes).trans
          (h.finishNested hkind _ _))
    · cases kind <;> first | rfl | exact absurd rfl hnested

/-- Writing elements puts their cells. -/
theorem writeElements_eq (kind : KeyField) (type : DataType) : ∀ (values : List Value),
    haveType type values = true → ∀ {writer : BinaryRowWriter} {position : Nat} {r : Region},
    Ready writer position values.length r → arrayStride kind ≤ writer.stride →
    writeElements writer kind type position values r.bytes =
        (elementCells kind type values).map fun items =>
        (r.putAll writer.stride (position + writer.nullBitOffset) items).bytes
  | [], _, writer, position, r, _, _ => by
    rw [writeElements, elementCells]
    rfl
  | value :: values, htyped, writer, position, r, h, hkind => by
    rw [haveType, Bool.and_eq_true] at htyped
    have hvalue : writeElement writer position kind type value r.bytes =
        (elementCell kind type value).map fun item =>
          (r.put writer.stride (position + writer.nullBitOffset) item).bytes := by
      have hplain := writeValue_eq kind type value htyped.1 h hkind
      unfold writeElement elementCell
      split
      case h_1 bits =>
        have hcell :
            Cell.WellFormed .float (scalarCell (.fixed (leBytes 4 (canonicalFloat bits)))) :=
          ⟨fun _ => length_leBytes .., rfl⟩
        exact congrArg ok (h.writeScalar hkind hcell _)
      case h_2 bits =>
        have hcell :
            Cell.WellFormed .double (scalarCell (.fixed (leBytes 8 (canonicalDouble bits)))) :=
          ⟨fun _ => length_leBytes .., rfl⟩
        exact congrArg ok (h.writeScalar hkind hcell _)
      case h_3 => exact hplain
    rw [writeElements_cons, elementCells_cons, hvalue]
    exact h.write_cons hkind elementCell_wellFormed fun hready =>
      writeElements_eq kind type values htyped.2 hready hkind

theorem writeColumns_eq : ∀ (types : List DataType) (values : List Value),
    haveTypes types values = true → ∀ {writer : BinaryRowWriter} {position : Nat} {r : Region},
    Ready writer position types.length r → 8 ≤ writer.stride →
    writeColumns writer position types values r.bytes = (columnCells types values).map fun items =>
        (r.putAll writer.stride (position + writer.nullBitOffset) items).bytes
  | [], values, _, writer, position, r, _, _ => by
    rw [writeColumns, columnCells]
    · rfl
    all_goals nofun
  | type :: types, [], htyped, _, _, _, _, _ => by
    simp [haveTypes] at htyped
  | type :: types, value :: values, htyped, writer, position, r, h, hkind => by
    rw [haveTypes, Bool.and_eq_true] at htyped
    rw [writeColumns, columnCells]
    cases htype : fromArrowType type with
    | error error => rfl
    | ok kind =>
      have hwidth := (arrayStride_le kind).trans hkind
      rw [ok_bind, ok_bind, writeValue_eq kind type value htyped.1 h hwidth]
      exact h.write_cons hwidth cellOf_wellFormed fun hready =>
        writeColumns_eq types values htyped.2 hready hkind

end

/-! ## Keys -/

theorem writeFields_eq (row : List Column) (fields : List (Nat × KeyField))
    (h : Ready writer position fields.length r) (hwidth : 8 ≤ writer.stride) :
    writeFields writer row position fields r.bytes = (fieldCells row fields).map fun items =>
        (r.putAll writer.stride (position + writer.nullBitOffset) items).bytes := by
  induction fields generalizing position r with
  | nil => rfl
  | cons field fields ih =>
    obtain ⟨column, kind⟩ := field
    rw [writeFields, fieldCells]
    cases row[column]? with
    | none => rfl
    | some cell =>
      have hkind := (arrayStride_le kind).trans hwidth
      dsimp only
      rw [writeValue_eq kind cell.type cell.value cell.typed h hkind]
      exact h.write_cons hkind cellOf_wellFormed ih

variable {row : List Column} {fields : List (Nat × KeyField)}

theorem fieldCells_cons {column : Nat} (h : fieldCells row ((column, kind) :: fields) = .ok items) :
    ∃ cell item rest, row[column]? = some cell ∧ cellOf kind cell.type cell.value = .ok item ∧
      fieldCells row fields = .ok rest ∧ items = item :: rest := by
  rw [fieldCells] at h
  cases hcolumn : row[column]? with
  | none =>
    rw [hcolumn] at h
    cases h
  | some cell =>
    rw [hcolumn] at h
    obtain ⟨item, rest, hitem, hrest, rfl⟩ := of_cons_eq_ok h
    exact ⟨cell, item, rest, rfl, hitem, hrest, rfl⟩

/-- A key has a cell for each field. -/
theorem fieldCells_ok (h : fieldCells row fields = .ok items) :
    items.length = fields.length ∧ Fit 8 items := by
  induction fields generalizing items with
  | nil =>
    cases h
    exact ⟨rfl, nofun⟩
  | cons field fields ih =>
    obtain ⟨cell, item, rest, -, hitem, hrest, rfl⟩ := fieldCells_cons h
    obtain ⟨hlength, hfit⟩ := ih hrest
    refine ⟨congrArg (· + 1) hlength, hfit.cons ?_⟩
    rintro cell rfl offset
    exact ((cellOf_wellFormed hitem).slot offset).le.trans (arrayStride_le _)

/-- **The writer writes the format.** -/
theorem encodeBinaryRowInto_eq (fields : List (Nat × KeyField)) (row : List Column) :
    encodeBinaryRowInto fields row = (fieldCells row fields).map rowBytes := by
  unfold encodeBinaryRowInto
  rw [openRow_eq]
  dsimp only
  rw [writeFields_eq row fields (ready_openRow fields.length []) le_rfl]
  cases hitems : fieldCells row fields with
  | error error => rfl
  | ok items =>
    obtain ⟨hlength, hfit⟩ := fieldCells_ok hitems
    rw [← hlength]
    exact congrArg ok (bytes_putAll_start [] (rowMask items.length) hfit 8)

end StreamFusion.Exchange.BinaryRow
