import StreamFusion.Exchange.BinaryRow.Injective

/-!
# Stored ranges

A slot that does not hold its value stores where the value is: an offset, counted from the start of
the container, and a size.  Such a range lies behind the slots and inside the container.  If the
value is a list, a map or a struct then the bytes of the range are a container again, and `Delimits`
says the same of the ranges in it, down to the innermost one.
-/

namespace StreamFusion.Exchange.BinaryRow

open Wire SlotLayout Except List Option

/-! ## The range of a slot -/

/-- The slot of a field of a row. -/
def slotAt (arity position : Nat) (bytes : Bytes) : Bytes :=
  (bytes.drop ((rowMask arity).length + position * 8)).take 8

/-- The offset and the size that a slot stores, unless it holds the value itself. -/
def storedRange (kind : KeyField) (slot : Bytes) : Option (Nat × Nat) :=
  let offset := leNat slot / 2 ^ 32
  let size := leNat slot % 2 ^ 32
  match kind with
  | .nested => some (offset, size)
  | .string => if leNat slot < 2 ^ 63 then some (offset, size) else none
  | .binary => if leNat slot < 2 ^ 63 then some (offset, size) else none
  | .timestamp precision => if precision ≤ 3 then none else some (offset, 8)
  | .decimal precision => if precision ≤ 18 then none else some (offset, size)
  | _ => none

variable {kind : KeyField}

theorem rangeOf_offsetAndSize (offset size : Nat) (hoffset : offset < 2 ^ 32)
    (hsize : size < 2 ^ 32) :
    leNat (offsetAndSize offset size) / 2 ^ 32 = offset ∧
      leNat (offsetAndSize offset size) % 2 ^ 32 = size := by
  rw [leNat_offsetAndSize hoffset hsize]
  omega

theorem le_leNat_shortSlot {value : Bytes} (h : value.length ≤ 7) :
    2 ^ 63 ≤ leNat (shortSlot value) := by
  have hlength : (value ++ zeros (7 - value.length)).length = 7 := by
    simp only [length_append, length_zeros]
    omega
  have hpow : (256 : Nat) ^ 7 = 2 ^ 56 := by norm_num
  rw [shortSlot, leNat_append, hlength, leNat_cons, leNat_nil, toNat_marker h, hpow]
  omega

variable {cell : Cell}

/-- Outside containers the range depends on the form only. -/
theorem storedRange_eq (hkind : kind ≠ .nested) (slot : Bytes) :
    storedRange kind slot = match kind.form with
      | .fixed => none
      | .bytes => if leNat slot <
                    2 ^ 63 then some (leNat slot / 2 ^ 32, leNat slot % 2 ^ 32) else none
      | .timestamp => some (leNat slot / 2 ^ 32, 8)
      | .decimal => some (leNat slot / 2 ^ 32, leNat slot % 2 ^ 32) := by
  cases kind with
  | nested => exact absurd rfl hkind
  | timestamp precision | decimal precision =>
    rw [storedRange, KeyField.form]
    split_ifs <;> rfl
  | _ => rfl

/-- What the slot of a cell stores is its offset and not more than its variable part. -/
theorem storedRange_inside (hcell : CellFrom kind cell) {offset bound : Nat}
    (hbound : offset + cell.var.length ≤ bound) (hsmall : bound < 2 ^ 31) {start size : Nat}
    (h : storedRange kind (cell.slot offset) = some (start, size)) :
    start = offset ∧ size ≤ cell.var.length := by
  rcases hcell with ⟨rfl, content, rfl⟩ | ⟨hkind, scalar, hform, hnanos, rfl⟩
  · have hle : content.length ≤ (padded content).length := length_le_padded content
    have hbound : offset + (padded content).length ≤ bound := hbound
    obtain ⟨hstart, hsize⟩ := rangeOf_offsetAndSize offset content.length (by omega) (by omega)
    have hpair := Prod.mk.inj (some.inj h)
    exact ⟨hpair.1.symm.trans hstart, (hpair.2.symm.trans hsize).le.trans hle⟩
  · rw [storedRange_eq hkind, ← hform] at h
    cases scalar with
    | fixed value => cases h
    | bytes value =>
      dsimp only [Scalar.form] at h
      by_cases hshort : value.length ≤ 7
      · rw [scalarCell_bytes_short hshort, if_neg (not_lt.mpr (le_leNat_shortSlot hshort))] at h
        cases h
      · rw [scalarCell_bytes_long hshort] at h hbound ⊢
        have hle : value.length ≤ (padded value).length := length_le_padded value
        have hbound : offset + (padded value).length ≤ bound := hbound
        obtain ⟨hstart, hsize⟩ := rangeOf_offsetAndSize offset value.length (by omega) (by omega)
        split_ifs at h
        have hpair := Prod.mk.inj (some.inj h)
        exact ⟨hpair.1.symm.trans hstart, (hpair.2.symm.trans hsize).le.trans hle⟩
    | noncompactTimestamp millis nanos =>
      obtain ⟨hstart, -⟩ := rangeOf_offsetAndSize offset nanos (by omega) hnanos
      have hpair := Prod.mk.inj (some.inj h)
      refine ⟨hpair.1.symm.trans hstart, hpair.2.symm.le.trans ?_⟩
      exact (length_leInt 8 millis).ge
    | noncompactDecimal unscaled =>
      have hle := length_minimalTwosComplement_le unscaled
      obtain ⟨hstart, hsize⟩ := rangeOf_offsetAndSize offset
        (minimalTwosComplement unscaled).length (by omega) (by omega)
      have hpair := Prod.mk.inj (some.inj h)
      refine ⟨hpair.1.symm.trans hstart, (hpair.2.symm.trans hsize).le.trans ?_⟩
      exact length_append ▸ Nat.le_add_right _ _

/-- Slots that store a range fill their place. -/
theorem storedRange_fill (h : Cell.WellFormed kind cell) (offset : Nat) :
    storedRange kind (fill 8 (cell.slot offset)) = storedRange kind (cell.slot offset) := by
  have hslot := h.slot offset
  have hwide : arrayStride kind = 8 → fill 8 (cell.slot offset) = cell.slot offset := by
    intro hstride
    rw [fill, hslot, hstride]
    exact append_nil _
  cases kind with
  | nested => rw [hwide rfl]
  | string => rw [hwide rfl]
  | binary => rw [hwide rfl]
  | timestamp precision => rw [hwide rfl]
  | decimal precision => rw [hwide rfl]
  | _ => rfl

/-! ## Ranges at every depth -/

/-- What a slot stores is behind the slots and inside the container, and `inner` holds of its
bytes. -/
def SlotDelimits (inner : Bytes → Prop) (kind : KeyField) (fixed : Nat)
    (slot content : Bytes) : Prop :=
  ∀ offset size, storedRange kind slot = some (offset, size) →
    fixed ≤ offset ∧ offset + size ≤ content.length ∧ inner ((content.drop offset).take size)

/-- The slots of an array, whose number is in its first four bytes. -/
def ArrayDelimits (inner : Bytes → Prop) (kind : KeyField) (content : Bytes) : Prop :=
  let count := leNat (content.take 4)
  ∀ position < count, testBit (32 + position) content = false →
    SlotDelimits inner kind (arrayNullBytes count + count * arrayStride kind)
      ((content.drop (arrayNullBytes count + position * arrayStride kind)).take (arrayStride kind))
        content

mutual

/-- The ranges in the content of a nested value of a type, at every depth. -/
def Delimits : DataType → Bytes → Prop
  | .list element, content =>
    ∀ kind, fromArrowType element = .ok kind → ArrayDelimits (Delimits element) kind content
  | .map key value, content =>
    ∀ keyKind valueKind, fromArrowType key = .ok keyKind → fromArrowType value = .ok valueKind →
      4 + leNat (content.take 4) ≤ content.length ∧
      ArrayDelimits (Delimits key) keyKind ((content.drop 4).take (leNat (content.take 4))) ∧
      ArrayDelimits (Delimits value) valueKind (content.drop (4 + leNat (content.take 4)))
  | .struct fields, content => ColumnsDelimit fields.length 0 fields content
  | _, _ => True

/-- The slots of a row from a position on. -/
def ColumnsDelimit (arity : Nat) : Nat → List DataType → Bytes → Prop
  | _, [], _ => True
  | position, type :: types, content =>
    (∀ kind, fromArrowType type = .ok kind → testBit (position + 8) content = false →
      SlotDelimits (Delimits type) kind ((rowMask arity).length + arity * 8)
        (slotAt arity position content) content) ∧
      ColumnsDelimit arity (position + 1) types content

end

variable {inner : Bytes → Prop} {bound : Nat} {item : Option Cell} {items : List (Option Cell)}

/-- A cell of a kind, of which `inner` holds if it is a container that is not too long. -/
structure Delimited (inner : Bytes → Prop) (bound : Nat) (kind : KeyField)
    (cell : Cell) : Prop where
  cellFrom : CellFrom kind cell
  wellFormed : Cell.WellFormed kind cell
  scalar : kind ≠ .nested → ∀ content, inner content
  nested : kind = .nested → ∃ content, cell = nestedCell content ∧
    (content.length ≤ bound → inner content)

theorem Delimited.slot (h : Delimited inner bound kind cell) {content slot : Bytes}
    {offset fixed : Nat}
    (hsmall : bound < 2 ^ 31) (hbound : content.length ≤ bound)
    (hinside : offset + cell.var.length ≤ content.length)
    (hvar : (content.drop offset).take cell.var.length = cell.var) (hfixed : fixed ≤ offset)
    (hslot : storedRange kind slot = storedRange kind (cell.slot offset)) :
    SlotDelimits inner kind fixed slot content := by
  intro start size hrange
  rw [hslot] at hrange
  obtain ⟨rfl, hsize⟩ := storedRange_inside h.cellFrom hinside (hbound.trans_lt hsmall) hrange
  refine ⟨hfixed, by omega, ?_⟩
  by_cases hkind : kind = .nested
  · obtain ⟨inside, rfl, hinner⟩ := h.nested hkind
    subst hkind
    have hle : inside.length ≤ (padded inside).length := length_le_padded inside
    have hinside : start + (padded inside).length ≤ content.length := hinside
    obtain ⟨-, hlength⟩ := rangeOf_offsetAndSize start inside.length (by omega) (by omega)
    have hsame : inside.length = size := hlength.symm.trans (Prod.mk.inj (some.inj hrange)).2
    have hcontent : (content.drop start).take size = inside := by
      have htake := congrArg (List.take size) hvar
      rw [take_take, Nat.min_eq_left hsize] at htake
      rw [htake, ← hsame]
      exact take_left
    rw [hcontent]
    exact hinner (by omega)
  · exact h.scalar hkind _

/-- A column of a row. -/
theorem slotDelimits_rowBytes {position : Nat} (hsmall : bound < 2 ^ 31)
    (hbound : (rowBytes items).length ≤ bound) (hfit : Fit 8 items)
    (hitem : items[position]? = some item) (hcell : ∀ cell ∈ item, Delimited inner bound kind cell)
    (hnull : testBit (position + 8) (rowBytes items) = false) :
    SlotDelimits inner kind ((rowMask items.length).length + items.length * 8)
      (slotAt items.length position (rowBytes items)) (rowBytes items) := by
  have hbits : 8 + items.length ≤ 8 * (rowMask items.length).length := by
    rw [rowMask, length_zeros]
    omega
  rw [Nat.add_comm] at hnull
  obtain ⟨cell, offset, rfl, hfixed, hinside, hvar, hslot⟩ := field_at hfit hbits hitem hnull
  have hdelimited := hcell cell rfl
  refine hdelimited.slot hsmall hbound hinside hvar hfixed ?_
  rw [slotAt]
  exact (congrArg _ hslot).trans (storedRange_fill hdelimited.wellFormed offset)

theorem leNat_leInt {n : Nat} (h : n < 2 ^ 31) : leNat (leInt 4 (n : Int)) = n := by
  have hmod : ((n : Int) % 2 ^ (8 * 4)).toNat = n := by omega
  rw [leInt, hmod, leNat_leBytes_of_lt (by omega)]

/-- The elements of an array. -/
theorem arrayDelimits_arrayBytes (hsmall : bound < 2 ^ 31)
    (hbound : (arrayBytes kind items).length ≤ bound)
    (hcells : ∀ item ∈ items, ∀ cell ∈ item, Delimited inner bound kind cell) :
    ArrayDelimits inner kind (arrayBytes kind items) := by
  have hfit : Fit (arrayStride kind) items := fun cell hcell offset =>
    ((hcells _ hcell cell rfl).wellFormed.slot offset).le
  have hcount : leNat ((arrayBytes kind items).take 4) = items.length := by
    rw [take_arrayBytes,
      leNat_leInt ((length_le_arrayBytes hfit).trans_lt (hbound.trans_lt hsmall))]
  unfold ArrayDelimits
  dsimp only
  rw [hcount]
  intro position hposition hnull
  have hbits : 32 + items.length ≤ 8 * (arrayMask items.length).length := by
    rw [length_arrayMask, arrayNullBytes]
    omega
  have hitem : items[position]? = some items[position] := List.getElem?_eq_getElem hposition
  obtain ⟨cell, offset, hcell, hfixed, hinside, hvar, hslot⟩ := field_at hfit hbits hitem hnull
  have hdelimited := hcells _ (getElem_mem hposition) cell hcell
  rw [length_arrayMask] at hfixed hslot
  refine hdelimited.slot hsmall hbound hinside hvar hfixed ?_
  have hfill : fill (arrayStride kind) (cell.slot offset) = cell.slot offset := by
    rw [fill, hdelimited.wellFormed.slot, Nat.sub_self]
    exact append_nil _
  exact congrArg _ (hslot.trans hfill)

/-- Scalars have no content. -/
theorem delimits_of_scalar {type : DataType} (htype : fromArrowType type = .ok kind)
    (hkind : kind ≠ .nested)
    (content : Bytes) : Delimits type content := by
  cases type with
  | list element | struct fields =>
    rw [fromArrowType] at htype
    obtain ⟨_, -, h⟩ := bind_eq_ok.mp htype
    exact absurd (ok.inj h).symm hkind
  | map key value =>
    rw [fromArrowType] at htype
    obtain ⟨_, -, h⟩ := bind_eq_ok.mp htype
    obtain ⟨_, -, h⟩ := bind_eq_ok.mp h
    exact absurd (ok.inj h).symm hkind
  | _ => simp only [Delimits]

theorem delimits_of_scalarOf {type : DataType} {value : Value} {scalar : Scalar}
    (h : scalarOf kind type value = .ok scalar) (content : Bytes) : Delimits type content := by
  unfold scalarOf at h
  split at h
  case h_15 | h_16 => cases h
  all_goals simp only [Delimits]

/-! ## The induction over the values -/

theorem delimited_of_cellOf {type : DataType} {value : Value}
    (htype : fromArrowType type = .ok kind)
    (hcell : cellOf kind type value = .ok (some cell))
    (hnested : kind = .nested → ∃ content, cell = nestedCell content ∧
      (content.length ≤ bound → Delimits type content)) :
          Delimited (Delimits type) bound kind cell :=
  ⟨cellFrom_cellOf hcell, cellOf_wellFormed hcell, delimits_of_scalar htype, hnested⟩

/-- The elements of an array delimit their parts, so the array does. -/
theorem arrayDelimits_arrayOf {type : DataType} {values : List Value} {content : Bytes}
    (hsmall : bound < 2 ^ 31) (h : arrayOf type values = .ok content) (hbound :
      content.length ≤ bound)
    (hcells : ∀ kind items, fromArrowType type = .ok kind →
      elementCells kind type values = .ok items →
      ∀ item ∈ items, ∀ cell ∈ item, Delimited (Delimits type) bound kind cell)
    (hkind : fromArrowType type = .ok kind) : ArrayDelimits (Delimits type) kind content := by
  obtain ⟨kind', hkind', h⟩ := bind_eq_ok.mp h
  obtain ⟨items, hitems, h⟩ := bind_eq_ok.mp h
  rw [hkind] at hkind'
  cases hkind'
  cases h
  exact arrayDelimits_arrayBytes hsmall hbound (hcells kind items hkind hitems)

mutual

/-- A nested value tells where it ends. -/
theorem nested_delimits {bound : Nat} (hsmall : bound < 2 ^ 31) (type : DataType) :
    ∀ (value : Value),
    hasType type value = true → ∀ {cell : Cell}, cellOf .nested type value = .ok (some cell) →
      ∃ content, cell = nestedCell content ∧ (content.length ≤ bound → Delimits type content)
  | .list elements, htyped, cell, h => by
    obtain ⟨element, rfl, helements⟩ := hasType_list htyped
    rw [cellOf_list] at h
    obtain ⟨content, hcontent, h⟩ := bind_eq_ok.mp h
    cases h
    refine ⟨content, rfl, fun hbound => ?_⟩
    simp only [Delimits]
    exact fun kind hkind => arrayDelimits_arrayOf hsmall hcontent hbound
      (fun kind items hkind hitems =>
        elements_delimited hsmall hkind elements helements hitems) hkind
  | .map keys values, htyped, cell, h => by
    obtain ⟨key, value, rfl, -, hkeys, hvalues⟩ := hasType_map htyped
    rw [cellOf_map] at h
    obtain ⟨keyBytes, hkeyBytes, h⟩ := bind_eq_ok.mp h
    obtain ⟨valueBytes, hvalueBytes, h⟩ := bind_eq_ok.mp h
    cases h
    refine ⟨_, rfl, fun hbound => ?_⟩
    have hlength : (mapBytes keyBytes valueBytes).length =
        4 + keyBytes.length + valueBytes.length := by
      rw [mapBytes, length_append, length_append, length_leInt]
    have hsize : leNat ((mapBytes keyBytes valueBytes).take 4) = keyBytes.length := by
      rw [mapBytes, append_assoc, take_left' (length_leInt ..), leNat_leInt (by omega)]
    have hdrop : (mapBytes keyBytes valueBytes).drop 4 = keyBytes ++ valueBytes := by
      rw [mapBytes, append_assoc, drop_left' (length_leInt ..)]
    simp only [Delimits]
    intro keyKind valueKind hkeyKind hvalueKind
    rw [hsize, ← drop_drop, hdrop, take_left' rfl, drop_left' rfl]
    refine ⟨by omega, ?_, ?_⟩
    · exact arrayDelimits_arrayOf hsmall hkeyBytes (by omega)
        (fun kind items hkind hitems => elements_delimited hsmall hkind keys hkeys hitems) hkeyKind
    · exact arrayDelimits_arrayOf hsmall hvalueBytes (by omega)
        (fun kind items hkind hitems =>
          elements_delimited hsmall hkind values hvalues hitems) hvalueKind
  | .struct columns, htyped, cell, h => by
    obtain ⟨fields, rfl, hcolumns⟩ := hasType_struct htyped
    rw [cellOf_struct] at h
    obtain ⟨items, hitems, h⟩ := bind_eq_ok.mp h
    cases h
    obtain ⟨hlength, hfit⟩ := columnCells_ok hcolumns hitems
    refine ⟨_, rfl, fun hbound => ?_⟩
    simp only [Delimits]
    rw [← hlength]
    exact columns_delimit hsmall fields columns hcolumns hitems 0 items rfl hfit hbound
  | .null, _, cell, h | .bool _, _, cell, h | .int _, _, cell, h | .float _, _, cell, h
  | .bytes _, _, cell, h => by simp [cellOf, scalarOf_nested] at h

theorem elements_delimited {bound : Nat} (hsmall : bound < 2 ^ 31) {kind : KeyField}
    {type : DataType}
    (hkind : fromArrowType type = .ok kind) : ∀ (values : List Value), haveType type values = true →
      ∀ {items : List (Option Cell)}, elementCells kind type values = .ok items →
        ∀ item ∈ items, ∀ cell ∈ item, Delimited (Delimits type) bound kind cell
  | [], _, items, h => by
    rw [elementCells] at h
    cases h
    nofun
  | value :: values, htyped, items, h => by
    rw [haveType, Bool.and_eq_true] at htyped
    rw [elementCells_cons] at h
    obtain ⟨item, rest, hitem, hrest, rfl⟩ := of_cons_eq_ok h
    intro item' hmem cell hcell
    rcases mem_cons.mp hmem with rfl | hmem
    · rw [mem_def.mp hcell] at hitem
      refine ⟨cellFrom_elementCell hitem, elementCell_wellFormed hitem,
        delimits_of_scalar hkind, ?_⟩
      rintro rfl
      rw [elementCell_of_ne (by decide) (by decide)] at hitem
      exact nested_delimits hsmall type value htyped.1 hitem
    · exact elements_delimited hsmall hkind values htyped.2 hrest item' hmem cell hcell

/-- The columns of a nested row tell where they end. -/
theorem columns_delimit {bound : Nat} (hsmall : bound < 2 ^ 31) : ∀ (types : List DataType)
    (values : List Value), haveTypes types values = true →
      ∀ {items : List (Option Cell)}, columnCells types values = .ok items →
        ∀ (position : Nat) (all : List (Option Cell)), all.drop position = items → Fit 8 all →
          (rowBytes all).length ≤ bound → ColumnsDelimit all.length position types (rowBytes all)
  | [], _, _, _, _, _, _, _, _, _ => by simp only [ColumnsDelimit]
  | type :: types, [], htyped, _, _, _, _, _, _, _ => by simp [haveTypes] at htyped
  | type :: types, value :: values, htyped, items, h, position, all, hdrop, hfit, hbound => by
    rw [haveTypes, Bool.and_eq_true] at htyped
    rw [columnCells] at h
    obtain ⟨kind, hkind, h⟩ := bind_eq_ok.mp h
    obtain ⟨item, rest, hitem, hrest, rfl⟩ := of_cons_eq_ok h
    have hat : all[position]? = some item := by
      rw [← Nat.add_zero position, ← List.getElem?_drop, hdrop]
      rfl
    have hnext : all.drop (position + 1) = rest := by
      rw [← drop_drop, hdrop]
      rfl
    simp only [ColumnsDelimit]
    refine ⟨fun kind' hkind' hnull => ?_,
      columns_delimit hsmall types values htyped.2 hrest (position + 1) all
      hnext hfit hbound⟩
    rw [hkind] at hkind'
    cases hkind'
    refine slotDelimits_rowBytes hsmall hbound hfit hat (fun cell hcell => ?_) hnull
    rw [mem_def.mp hcell] at hitem
    refine delimited_of_cellOf hkind hitem ?_
    rintro rfl
    exact nested_delimits hsmall type value htyped.1 hitem

end

/-- The cell of a column of a row. -/
theorem delimited_column (hsmall : bound < 2 ^ 31) {column : Column}
    (h : cellOf kind column.type column.value = .ok (some cell)) :
    Delimited (Delimits column.type) bound kind cell := by
  refine ⟨cellFrom_cellOf h, cellOf_wellFormed h, fun hkind => ?_, ?_⟩
  · obtain ⟨scalar, hscalar, -⟩ := cellOf_scalar hkind h
    exact delimits_of_scalarOf hscalar
  · rintro rfl
    exact nested_delimits hsmall column.type column.value column.typed h

end StreamFusion.Exchange.BinaryRow
