import StreamFusion.Exchange.BinaryRow.Ranges

/-!
# Keys are told apart

Two keys of one schema have the same bytes exactly when they have the same values, as far as the
encoding keeps them (`binary_row_keys`).  A key consists of whole words, and the offsets and sizes
in its slots delimit bytes of the key.

The size of a key matters: offsets from 2 GiB on have the bit set that marks a short value, and then
different keys can have the same bytes (`long_keys_clash`).
-/

namespace StreamFusion.Exchange.BinaryRow

open Wire SlotLayout Except List Option

/-! ## Equal values have equal cells -/

theorem canonicalFloat_idem (bits : Nat) : canonicalFloat (canonicalFloat bits) =
    canonicalFloat bits := by
  by_cases h : FloatBits.binary32.isNaN bits = true
  · have hcanonical : canonicalFloat bits = 0x7fc00000 := if_pos h
    rw [hcanonical]
    decide
  · have hsame : canonicalFloat bits = bits := if_neg h
    rw [hsame, hsame]

theorem canonicalDouble_idem (bits : Nat) : canonicalDouble (canonicalDouble bits) =
    canonicalDouble bits := by
  by_cases h : FloatBits.binary64.isNaN bits = true
  · have hcanonical : canonicalDouble bits = 0x7ff8000000000000 := if_pos h
    rw [hcanonical]
    decide
  · have hsame : canonicalDouble bits = bits := if_neg h
    rw [hsame, hsame]

variable {kind : KeyField} {type : DataType} {value : Value}

theorem elementCell_normal (hkind : fromArrowType type = .ok kind)
    (hplain : cellOf kind type (normal type value) = cellOf kind type value) :
    elementCell kind type (normalElement type value) = elementCell kind type value := by
  rcases kind_cases hkind with ⟨rfl, rfl⟩ | ⟨rfl, rfl⟩ | ⟨hfloat, hdouble, hkindFloat, hkindDouble⟩
  · cases value with
    | float bits =>
      show ok (some (scalarCell (.fixed (leBytes 4 (canonicalFloat (canonicalFloat bits)))))) = _
      rw [canonicalFloat_idem]
      rfl
    | _ => rfl
  · cases value with
    | float bits =>
      show ok (some (scalarCell (.fixed (leBytes 8 (canonicalDouble (canonicalDouble bits)))))) = _
      rw [canonicalDouble_idem]
      rfl
    | _ => rfl
  · rw [elementCell_of_ne hkindFloat hkindDouble, elementCell_of_ne hkindFloat hkindDouble,
      normalElement_of_ne hfloat hdouble, hplain]

theorem arrayOf_congr {values values' : List Value} (h : ∀ kind, fromArrowType type = .ok kind →
      elementCells kind type values = elementCells kind type values') :
    arrayOf type values = arrayOf type values' := by
  unfold arrayOf
  cases hkind : fromArrowType type with
  | error error => rfl
  | ok kind =>
    rw [ok_bind, ok_bind, h kind hkind]

mutual

/-- The cell of a value only depends on what the encoding keeps. -/
theorem cellOf_normal (kind : KeyField) (type : DataType) : ∀ (value : Value),
    hasType type value = true →
    cellOf kind type (normal type value) = cellOf kind type value
  | .null, _ => by cases type <;> rfl
  | .bool value, _ => by cases type <;> rfl
  | .int value, _ => by cases type <;> rfl
  | .float bits, _ => by cases type <;> rfl
  | .bytes value, _ => by cases type <;> rfl
  | .list elements, htyped => by
    obtain ⟨element, rfl, htyped⟩ := hasType_list htyped
    by_cases hkind : kind = .nested
    · subst hkind
      show cellOf .nested (.list element) (.list (normalElements element elements)) = _
      rw [cellOf_list, cellOf_list, arrayOf_congr fun kind hkind =>
        elementCells_normal hkind elements htyped]
    · cases kind <;> first | rfl | exact absurd rfl hkind
  | .map keys values, htyped => by
    obtain ⟨key, value, rfl, -, hkeys, hvalues⟩ := hasType_map htyped
    by_cases hkind : kind = .nested
    · subst hkind
      show cellOf .nested (.map key value)
        (.map (normalElements key keys) (normalElements value values)) = _
      rw [cellOf_map, cellOf_map, arrayOf_congr fun kind hkind =>
        elementCells_normal hkind keys hkeys,
        arrayOf_congr fun kind hkind => elementCells_normal hkind values hvalues]
    · cases kind <;> first | rfl | exact absurd rfl hkind
  | .struct columns, htyped => by
    obtain ⟨fields, rfl, htyped⟩ := hasType_struct htyped
    by_cases hkind : kind = .nested
    · subst hkind
      show cellOf .nested (.struct fields) (.struct (normalColumns fields columns)) = _
      rw [cellOf_struct, cellOf_struct, columnCells_normal fields columns htyped]
    · cases kind <;> first | rfl | exact absurd rfl hkind

theorem elementCells_normal {kind : KeyField} {type : DataType}
    (hkind : fromArrowType type = .ok kind) :
    ∀ (values : List Value), haveType type values = true →
    elementCells kind type (normalElements type values) = elementCells kind type values
  | [], _ => rfl
  | value :: values, htyped => by
    rw [haveType, Bool.and_eq_true] at htyped
    rw [normalElements_cons, elementCells_cons, elementCells_cons,
      elementCell_normal hkind (cellOf_normal kind type value htyped.1),
      elementCells_normal hkind values htyped.2]

theorem columnCells_normal : ∀ (types : List DataType) (values : List Value),
    haveTypes types values = true →
    columnCells types (normalColumns types values) = columnCells types values
  | [], values, _ => by cases values <;> rfl
  | type :: types, [], _ => rfl
  | type :: types, value :: values, htyped => by
    rw [haveTypes, Bool.and_eq_true] at htyped
    rw [normalColumns, columnCells, columnCells, columnCells_normal types values htyped.2]
    cases hkind : fromArrowType type with
    | error error => rfl
    | ok kind => rw [ok_bind, ok_bind, cellOf_normal kind type value htyped.1]

end

variable {precision : Nat} {unit : TimeUnit} {value' : Int}

theorem timestampParts_congr {value : Int}
    {parts parts' : Int × Nat} (hprecision : precision ≤ 3) (h :
      timestampParts unit value = .ok parts)
    (h' : timestampParts unit value' = .ok parts')
    (htruncated : truncated precision unit value = truncated precision unit value') :
    parts.1 = parts'.1 := by
  unfold truncated at htruncated
  rw [if_pos hprecision, if_pos hprecision] at htruncated
  cases unit with
  | second =>
    unfold timestampParts at h h'
    dsimp only at h h' htruncated
    split_ifs at h h'
    cases h
    cases h'
    rw [htruncated]
  | millisecond =>
    cases h
    cases h'
    exact htruncated
  | microsecond | nanosecond =>
    cases h
    cases h'
    dsimp only at htruncated ⊢
    omega

variable {item item' : Option Cell}

/-- A compact timestamp only depends on its milliseconds. -/
theorem timestamp_congr {value : Int}
    (h : cellOf (.timestamp precision) (.timestamp unit) (.int value) = .ok item)
    (h' : cellOf (.timestamp precision) (.timestamp unit) (.int value') = .ok item')
    (htruncated : truncated precision unit value = truncated precision unit value') :
        item = item' := by
  by_cases hprecision : precision ≤ 3
  · have hcell : ∀ {v : Int} {i : Option Cell},
        cellOf (.timestamp precision) (.timestamp unit) (.int v) = .ok i →
        ∃ parts, timestampParts unit v = .ok parts ∧
            i = some (scalarCell (.fixed (leInt 8 parts.1))) := by
      intro v i hv
      obtain ⟨scalar, hscalar, hv⟩ := bind_eq_ok.mp hv
      obtain ⟨parts, hparts, hscalar⟩ := bind_eq_ok.mp hscalar
      rw [if_pos hprecision] at hscalar
      cases hscalar
      cases hv
      exact ⟨parts, hparts, rfl⟩
    obtain ⟨parts, hparts, rfl⟩ := hcell h
    obtain ⟨parts', hparts', rfl⟩ := hcell h'
    rw [timestampParts_congr hprecision hparts hparts' htruncated]
  · unfold truncated at htruncated
    rw [if_neg hprecision, if_neg hprecision] at htruncated
    rw [htruncated, h'] at h
    exact (ok.inj h).symm

/-- Values that agree as far as the encoding keeps them have the same cell. -/
theorem cellOf_congr {value' : Value}
    (htyped : hasType type value = true) (htyped' : hasType type value' = true)
    (h : cellOf kind type value = .ok item) (h' : cellOf kind type value' = .ok item')
    (hnormal : keyNormal kind type value = keyNormal kind type value') : item = item' := by
  have hplain : normal type value = normal type value' → item = item' := by
    intro hsame
    rw [← cellOf_normal kind type value htyped, hsame,
      cellOf_normal kind type value' htyped', h'] at h
    exact (ok.inj h).symm
  cases kind with
  | timestamp precision =>
    cases type with
    | timestamp unit =>
      cases value with
      | int value =>
        cases value' with
        | int value' => exact timestamp_congr h h' (Value.int.inj hnormal)
        | null => cases hnormal
        | _ => cases htyped'
      | null =>
        cases value' with
        | null => exact hplain rfl
        | int value' => cases hnormal
        | _ => cases htyped'
      | _ => cases htyped
    | _ => exact hplain hnormal
  | _ => exact hplain hnormal

/-! ## Keys -/

/-- The key fields of a row, as far as the encoding keeps them. -/
def keyOf (fields : List (Nat × KeyField)) (row : List Column) : List (Option Value) :=
  fields.map fun field => row[field.1]?.map fun cell => keyNormal field.2 cell.type cell.value

variable {fields : List (Nat × KeyField)}

section Keys

variable {row row' : List Column} {items items' : List (Option Cell)} {bound : Nat}

theorem type_eq_of_schema (htypes : row.map Column.type = row'.map Column.type) {column : Nat}
    {cell cell' : Column} (h : row[column]? = some cell) (h' : row'[column]? = some cell') :
    cell.type = cell'.type := by
  have hsame := congrArg (·[column]?) htypes
  simp only [List.getElem?_map, h, h'] at hsame
  exact some.inj hsame

section

variable (hsmall : bound < 2 ^ 31) (htypes : row.map Column.type = row'.map Column.type)
  (h : fieldCells row fields = .ok items) (h' : fieldCells row' fields = .ok items')
include hsmall htypes h h'

theorem comparable_fieldCells : List.Forall₂ (Comparable bound) items items' := by
  induction fields generalizing items items' with
  | nil =>
    cases h
    cases h'
    exact .nil
  | cons field fields ih =>
    obtain ⟨cell, item, rest, hcell, hitem, hrest, rfl⟩ := fieldCells_cons h
    obtain ⟨cell', item', rest', hcell', hitem', hrest', rfl⟩ := fieldCells_cons h'
    rw [← type_eq_of_schema htypes hcell hcell'] at hitem'
    exact .cons (comparable_cellOf hsmall hitem hitem') (ih hrest hrest')

/-- Rows with the same cells have the same key. -/
theorem keyOf_eq_of_alike (halike : List.Forall₂ (Alike bound) items items') :
    keyOf fields row = keyOf fields row' := by
  induction fields generalizing items items' with
  | nil => rfl
  | cons field fields ih =>
    obtain ⟨cell, item, rest, hcell, hitem, hrest, rfl⟩ := fieldCells_cons h
    obtain ⟨cell', item', rest', hcell', hitem', hrest', rfl⟩ := fieldCells_cons h'
    have htype := type_eq_of_schema htypes hcell hcell'
    obtain ⟨hhead, htail⟩ := forall₂_cons.mp halike
    have hvalue : keyNormal field.2 cell.type cell.value =
        keyNormal field.2 cell'.type cell'.value := by
      rw [← htype] at hitem' ⊢
      exact value_inj hsmall field.2 cell.type cell.value cell'.value cell.typed
        (by rw [htype]; exact cell'.typed) hitem hitem' hhead
    show row[field.1]?.map _ :: keyOf fields row = row'[field.1]?.map _ :: keyOf fields row'
    rw [ih hrest hrest' htail, hcell, hcell']
    show some (keyNormal field.2 cell.type cell.value) :: _ =
      some (keyNormal field.2 cell'.type cell'.value) :: _
    rw [hvalue]

end

/-- Rows with the same key have the same cells. -/
theorem fieldCells_eq_of_keyOf (htypes : row.map Column.type = row'.map Column.type)
    (h : fieldCells row fields = .ok items) (h' : fieldCells row' fields = .ok items')
    (hkey : keyOf fields row = keyOf fields row') : items = items' := by
  induction fields generalizing items items' with
  | nil =>
    cases h
    cases h'
    rfl
  | cons field fields ih =>
    obtain ⟨cell, item, rest, hcell, hitem, hrest, rfl⟩ := fieldCells_cons h
    obtain ⟨cell', item', rest', hcell', hitem', hrest', rfl⟩ := fieldCells_cons h'
    have htype := type_eq_of_schema htypes hcell hcell'
    obtain ⟨hhead, htail⟩ := List.cons.inj hkey
    dsimp only at hhead
    rw [hcell, hcell'] at hhead
    have hvalue : keyNormal field.2 cell.type cell.value =
        keyNormal field.2 cell'.type cell'.value :=
      some.inj hhead
    rw [← htype] at hitem' hvalue
    rw [ih hrest hrest' htail,
      cellOf_congr cell.typed (by rw [htype]; exact cell'.typed) hitem hitem' hvalue]

theorem fieldCells_aligned (h : fieldCells row fields = .ok items) :
    ∀ cell, some cell ∈ items → cell.var.length % 8 = 0 := by
  induction fields generalizing items with
  | nil =>
    cases h
    nofun
  | cons field fields ih =>
    obtain ⟨cell, item, rest, hcell, hitem, hrest, rfl⟩ := fieldCells_cons h
    intro cell hmem
    rcases mem_cons.mp hmem with rfl | hmem
    · exact (cellOf_wellFormed hitem).var
    · exact ih hrest cell hmem

theorem getElem?_fieldCells (h : fieldCells row fields = .ok items) {position column : Nat}
    (hfield : fields[position]? = some (column, kind)) :
    ∃ cell item, row[column]? = some cell ∧ items[position]? = some item ∧
      cellOf kind cell.type cell.value = .ok item := by
  induction fields generalizing items position with
  | nil => simp at hfield
  | cons field fields ih =>
    obtain ⟨cell, item, rest, hcell, hitem, hrest, rfl⟩ := fieldCells_cons h
    cases position with
    | zero =>
      obtain rfl : field = (column, kind) := by simpa using hfield
      exact ⟨cell, item, hcell, rfl, hitem⟩
    | succ position =>
      have hnext : fields[position]? = some (column, kind) := by simpa using hfield
      exact ih hrest hnext

end Keys

theorem length_encodeBinaryRowInto (h : encodeBinaryRowInto fields row = .ok bytes) :
    bytes.length % 8 = 0 := by
  rw [encodeBinaryRowInto_eq] at h
  cases hitems : fieldCells row fields with
  | error error =>
    rw [hitems] at h
    cases h
  | ok items =>
    rw [hitems] at h
    obtain rfl : rowBytes items = bytes := ok.inj h
    rw [rowBytes, length_containerBytes (fieldCells_ok hitems).2, Nat.add_mod, fixedSize,
      nextMultipleOf8_mod, length_vars_mod (fieldCells_aligned hitems)]

theorem words_encodeBinaryRowInto {row : List Column}
    (h : encodeBinaryRowInto fields row = .ok bytes) : bytes.length % 4 = 0 := by
  have hwords := length_encodeBinaryRowInto h
  omega

/-- The bytes of a string or binary value. -/
def Value.bytes? : Value → Option Bytes
  | .bytes value => some value
  | _ => none

/-- A cell of a binary column. -/
def ofBinary (bytes : Bytes) : Column := ⟨.binary, .bytes bytes, rfl⟩

/-- Rows of typed cells are what the exchange routes. -/
def binaryRowEncoder : RowEncoder Column KeyField where
  encode := encodeBinaryRowInto
  binaryValue cell := cell.value.bytes?
  ofBinary := ofBinary
  binaryValue_ofBinary _ := rfl
  words := words_encodeBinaryRowInto

/-- **Keys.**  Keys of one schema have the same bytes exactly when their fields have the same
values, as far as the encoding keeps them.  A key has whole words, and its offsets point into it, as
do those of its lists, maps and structs into these. -/
theorem binary_row_keys (fields : List (Nat × KeyField)) (row row' : List Column)
    (htypes : row.map Column.type = row'.map Column.type) (bytes bytes' : Bytes)
    (h : encodeBinaryRowInto fields row = .ok bytes)
    (h' : encodeBinaryRowInto fields row' = .ok bytes') :
    bytes.length % 8 = 0 ∧ (∃ hash, binaryRowHash bytes = .ok hash) ∧
      (bytes.length < 2 ^ 31 → (bytes = bytes' ↔ keyOf fields row = keyOf fields row')) ∧
      (bytes.length < 2 ^ 31 → ∀ position column kind, fields[position]? = some (column, kind) →
        testBit (position + 8) bytes = false → ∀ offset size,
          storedRange kind (slotAt fields.length position bytes) = some (offset, size) →
          (rowMask fields.length).length + fields.length * 8 ≤ offset ∧
            offset + size ≤ bytes.length ∧
            ∀ cell, row[column]? = some cell →
              Delimits cell.type ((bytes.drop offset).take size)) := by
  have hwords := length_encodeBinaryRowInto h
  rw [encodeBinaryRowInto_eq] at h h'
  cases hitems : fieldCells row fields with
  | error error =>
    rw [hitems] at h
    cases h
  | ok items =>
    cases hitems' : fieldCells row' fields with
    | error error =>
      rw [hitems'] at h'
      cases h'
    | ok items' =>
      rw [hitems] at h
      rw [hitems'] at h'
      have hbytes : rowBytes items = bytes := ok.inj h
      have hbytes' : rowBytes items' = bytes' := ok.inj h'
      obtain ⟨hcount, hfit⟩ := fieldCells_ok hitems
      obtain ⟨-, hfit'⟩ := fieldCells_ok hitems'
      refine ⟨hwords, ⟨_, if_pos (by omega)⟩, fun hsmall => ⟨fun heq => ?_, fun hkey => ?_⟩,
        fun hsmall position column kind hfield hnull offset size hrange => ?_⟩
      · rw [← hbytes, ← hbytes'] at heq
        exact keyOf_eq_of_alike hsmall htypes hitems hitems'
          (rowBytes_alike (by rw [hbytes]) hfit hfit'
            (comparable_fieldCells hsmall htypes hitems hitems') heq)
      · rw [← hbytes, ← hbytes', fieldCells_eq_of_keyOf htypes hitems hitems' hkey]
      · obtain ⟨column, item, hcolumn, hitem, hcell⟩ := getElem?_fieldCells hitems hfield
        rw [← hbytes] at hnull hrange hsmall ⊢
        rw [← hcount] at hrange ⊢
        obtain ⟨hfixed, hinside, hdelimits⟩ := slotDelimits_rowBytes hsmall le_rfl hfit hitem
          (fun cell hmem =>
            delimited_column hsmall (hcell.trans (congrArg ok (mem_def.mp hmem)))) hnull
          offset size hrange
        refine ⟨hfixed, hinside, fun cell hcell => ?_⟩
        cases hcell.symm.trans hcolumn
        exact hdelimits

/-- A number, a string that does not fit into its slot, and a list. -/
def listRow (element : Value) (h : hasType .utf8 element = true) : List Column :=
  [⟨.int32, .int 42, by decide⟩, ⟨.utf8, .bytes [97, 98, 99, 100, 101, 102, 103, 104], rfl⟩,
    ⟨.list .utf8, .list [element], by simp [hasType, haveType, h]⟩]

/-- The key fields of such a row. -/
def listFields : List (Nat × KeyField) := [(0, .integer), (1, .string), (2, .nested)]

/-- Two rows that differ inside the list, and the ranges of the first of them: the list lies behind
the string, and its element inside the list. -/
theorem binary_row_keys_list_field :
    keyOf listFields (listRow (.bytes [105, 106, 107, 108, 109, 110, 111, 112]) rfl) ≠
        keyOf listFields (listRow .null rfl) ∧
      Delimits (.list .utf8)
        [1, 0, 0, 0, 0, 0, 0, 0, 8, 0, 0, 0, 16, 0, 0, 0, 105, 106, 107, 108, 109,
            110, 111, 112] := by
  have hkeys := binary_row_keys listFields
    (listRow (.bytes [105, 106, 107, 108, 109, 110, 111, 112]) rfl) (listRow .null rfl) rfl
    [0, 0, 0, 0, 0, 0, 0, 0, 42, 0, 0, 0, 0, 0, 0, 0, 8, 0, 0, 0, 32, 0, 0, 0, 24, 0,
      0, 0, 40, 0, 0, 0,
      97, 98, 99, 100, 101, 102, 103, 104, 1, 0, 0, 0, 0, 0, 0, 0, 8, 0, 0, 0, 16, 0, 0, 0,
      105, 106, 107, 108, 109, 110, 111, 112]
    [0, 0, 0, 0, 0, 0, 0, 0, 42, 0, 0, 0, 0, 0, 0, 0, 8, 0, 0, 0, 32, 0, 0, 0, 16, 0,
      0, 0, 40, 0, 0, 0,
      97, 98, 99, 100, 101, 102, 103, 104, 1, 0, 0, 0, 1, 0, 0, 0, 0, 0, 0, 0, 0, 0, 0, 0]
    (by decide +kernel) (by decide +kernel)
  refine ⟨fun heq => ?_, ?_⟩
  · exact absurd ((hkeys.2.2.1 (by decide)).mpr heq) (by decide)
  · exact (hkeys.2.2.2 (by decide) 2 2 .nested rfl (by decide) 40 24 (by decide)).2.2
      ⟨.list .utf8, .list [.bytes [105, 106, 107, 108, 109, 110, 111, 112]], rfl⟩ rfl

/-! ## Keys of more than 2 GiB -/

/-- A row of four binary values. -/
def fourStrings (a b c d : Bytes) : List Column :=
  [⟨.binary, .bytes a, rfl⟩, ⟨.binary, .bytes b, rfl⟩, ⟨.binary, .bytes c, rfl⟩,
    ⟨.binary, .bytes d, rfl⟩]

/-- All of them are in the key. -/
def fourFields : List (Nat × KeyField) := [(0, .binary), (1, .binary), (2, .binary), (3, .binary)]

theorem fieldCells_fourStrings (a b c d : Bytes) : fieldCells (fourStrings a b c d) fourFields =
      .ok [some (scalarCell (.bytes a)), some (scalarCell (.bytes b)), some (scalarCell (.bytes c)),
        some (scalarCell (.bytes d))] := rfl

/-- Behind two long strings, a slot that holds an offset can look like one that holds a value, and
the string that it belongs to can as well belong to the next field. -/
theorem strings_clash (a b long short : Bytes) (ha : ¬ a.length ≤ 7) (hb : ¬ b.length ≤ 7)
    (hlong : ¬ long.length ≤ 7) (hshort : short.length ≤ 7)
    (hslot : offsetAndSize (40 + (padded a).length + (padded b).length) long.length =
      shortSlot short) :
    encodeBinaryRowInto fourFields (fourStrings a b long short) =
      encodeBinaryRowInto fourFields (fourStrings a b short long) := by
  have hfixed : fixedSize (rowMask 4) 8 4 = 40 := by decide
  rw [encodeBinaryRowInto_eq, encodeBinaryRowInto_eq, fieldCells_fourStrings,
    fieldCells_fourStrings,
    scalarCell_bytes_long ha, scalarCell_bytes_long hb, scalarCell_bytes_long hlong,
    scalarCell_bytes_short hshort]
  refine congrArg ok ?_
  simp only [rowBytes, containerBytes, mark, slots, vars, length_cons, length_nil, hfixed]
  simp [hslot]

/-- Two different keys with the same bytes. -/
theorem long_keys_clash : ∃ row row' : List Column, row.map Column.type = row'.map Column.type ∧
      (∃ bytes, encodeBinaryRowInto fourFields row = .ok bytes ∧
        encodeBinaryRowInto fourFields row' = .ok bytes) ∧
      keyOf fourFields row ≠ keyOf fourFields row' := by
  obtain ⟨a, ha⟩ : ∃ a, a = zeros (2 ^ 31 - 8) := ⟨_, rfl⟩
  obtain ⟨b, hb⟩ : ∃ b, b = zeros (2 ^ 24 - 32) := ⟨_, rfl⟩
  have hlengthA : a.length = 2 ^ 31 - 8 := by rw [ha, length_zeros]
  have hlengthB : b.length = 2 ^ 24 - 32 := by rw [hb, length_zeros]
  have hoffset : 40 + (padded a).length + (padded b).length = 2 ^ 31 + 2 ^ 24 := by
    rw [length_padded, length_padded, hlengthA, hlengthB]
    decide
  have hclash := strings_clash a b (zeros 8) [8] (by omega) (by omega)
    (by decide) (by decide) (by rw [hoffset]; decide)
  refine ⟨fourStrings a b (zeros 8) [8], fourStrings a b [8] (zeros 8), rfl, ?_, fun hkey => ?_⟩
  · obtain ⟨bytes, hbytes⟩ : ∃ bytes,
      encodeBinaryRowInto fourFields (fourStrings a b (zeros 8) [8]) =
        .ok bytes := ⟨rowBytes _, by rw [encodeBinaryRowInto_eq, fieldCells_fourStrings]; rfl⟩
    exact ⟨bytes, hbytes, hclash.symm.trans hbytes⟩
  · have hthird : some (Value.bytes (zeros 8)) = some (Value.bytes [8]) :=
      congrArg (fun key : List (Option Value) => key.getD 2 none) hkey
    cases hthird

end StreamFusion.Exchange.BinaryRow
