import StreamFusion.Exchange.BinaryRow.Scalars

/-!
# Containers are told apart by their values

The argument goes down the containers.  Containers with the same bytes have the same cells at the
same offsets; the slot of a cell tells how long its variable part is, so the variable parts agree
one by one, and what is in them are containers again.  `value_inj` is the induction over the values.
-/

namespace StreamFusion.Exchange.BinaryRow

open Wire SlotLayout Except List

/-! ## Cells of one kind -/

/-- The cell is one of a value of this kind. -/
def CellFrom (kind : KeyField) (cell : Cell) : Prop :=
  (kind = .nested ∧ ∃ content, cell = nestedCell content) ∨
    (kind ≠ .nested ∧ ∃ scalar : Scalar, scalar.form = kind.form ∧ scalar.Small ∧
      cell = scalarCell scalar)

variable {kind : KeyField} {type : DataType} {value : Value} {cell : Cell}

theorem cellOf_scalar (hkind : kind ≠ .nested) (h : cellOf kind type value = .ok (some cell)) :
    ∃ scalar, scalarOf kind type value = .ok scalar ∧ cell = scalarCell scalar := by
  rcases cellOf_ok h with ⟨-, hnone⟩ | ⟨hnested, -⟩ | ⟨scalar, hscalar, hcell⟩
  · cases hnone
  · exact absurd hnested hkind
  · exact ⟨scalar, hscalar, Option.some.inj hcell⟩

theorem scalarOf_nested (type : DataType) (value : Value) :
    scalarOf .nested type value = .error (.invalidArgument "expected nested key") := by
  cases type <;> cases value <;> rfl

theorem cellOf_nested
    (h : cellOf .nested type value = .ok (some cell)) : ∃ content, cell = nestedCell content := by
  rcases cellOf_ok h with ⟨-, hnone⟩ | ⟨-, content, hcell⟩ | ⟨scalar, hscalar, -⟩
  · cases hnone
  · exact ⟨content, Option.some.inj hcell⟩
  · rw [scalarOf_nested] at hscalar
    cases hscalar

theorem cellFrom_cellOf (h : cellOf kind type value = .ok (some cell)) : CellFrom kind cell := by
  by_cases hkind : kind = .nested
  · subst hkind
    exact Or.inl ⟨rfl, cellOf_nested h⟩
  · obtain ⟨scalar, hscalar, rfl⟩ := cellOf_scalar hkind h
    obtain ⟨hform, hsmall⟩ := scalarOf_form hscalar
    exact Or.inr ⟨hkind, scalar, hform, hsmall, rfl⟩

theorem cellFrom_elementCell (h : elementCell kind type value = .ok (some cell)) :
    CellFrom kind cell := by
  unfold elementCell at h
  split at h
  · rename_i bits
    cases h
    refine Or.inr ⟨fun hkind => ?_, .fixed (leBytes 4 (canonicalFloat bits)), rfl, trivial, rfl⟩
    cases hkind
  · rename_i bits
    cases h
    refine Or.inr ⟨fun hkind => ?_, .fixed (leBytes 8 (canonicalDouble bits)), rfl, trivial, rfl⟩
    cases hkind
  · exact cellFrom_cellOf h

variable {content content' : Bytes} {bound : Nat}

theorem nestedCell_slots {offset : Nat} (hsmall : bound < 2 ^ 31)
    (hbound : offset + (nestedCell content).var.length ≤ bound)
    (hbound' : offset + (nestedCell content').var.length ≤ bound)
    (hslot : (nestedCell content).slot offset = (nestedCell content').slot offset) :
    content.length = content'.length := by
  have hle : content.length ≤ (padded content).length := length_le_padded content
  have hle' : content'.length ≤ (padded content').length := length_le_padded content'
  have hbound : offset + (padded content).length ≤ bound := hbound
  have hbound' : offset + (padded content').length ≤ bound := hbound'
  exact offsetAndSize_inj (by omega) (by omega) (by omega) hslot

/-- Nested containers in like cells are equal, and not larger than what they are in. -/
theorem nestedCell_inj (hsmall : bound < 2 ^ 31)
    (h : Alike bound (some (nestedCell content)) (some (nestedCell content'))) :
    content = content' ∧ content.length ≤ bound := by
  obtain _ | ⟨offset, hbound, hslot, hvar⟩ := h
  have hbound' : offset + (nestedCell content').var.length ≤ bound := by rw [← hvar]; exact hbound
  have hlength := nestedCell_slots hsmall hbound hbound' hslot
  refine ⟨padded_inj hlength hvar, ?_⟩
  have hle : content.length ≤ (padded content).length := length_le_padded content
  have hbound : offset + (padded content).length ≤ bound := hbound
  omega

variable {item item' : Option Cell}

theorem comparable_of_cellFrom (kind : KeyField) (hsmall : bound < 2 ^ 31)
    (h : ∀ cell ∈ item, CellFrom kind cell ∧ Cell.WellFormed kind cell)
    (h' : ∀ cell ∈ item', CellFrom kind cell ∧ Cell.WellFormed kind cell) :
    Comparable bound item item' := by
  intro cell hcell cell' hcell' offset
  obtain ⟨hfrom, hwell⟩ := h cell hcell
  obtain ⟨hfrom', hwell'⟩ := h' cell' hcell'
  refine ⟨(hwell.slot offset).trans (hwell'.slot offset).symm, fun hbound hbound' hslot => ?_⟩
  rcases hfrom with ⟨rfl, content, rfl⟩ | ⟨hkind, scalar, hform, hnanos, rfl⟩
  · obtain ⟨-, content', rfl⟩ := hfrom'.resolve_right fun hscalar => hscalar.1 rfl
    have hlength := nestedCell_slots hsmall hbound hbound' hslot
    show (padded content).length = (padded content').length
    rw [length_padded, length_padded, hlength]
  · obtain ⟨-, scalar', hform', hnanos', rfl⟩ := hfrom'.resolve_left fun hnested => hkind hnested.1
    exact (scalarCell_inj (hform.trans hform'.symm) hnanos hnanos' hsmall hbound hbound' hslot).1

variable {value' : Value}

theorem comparable_cellOf (hsmall : bound < 2 ^ 31)
    (h : cellOf kind type value = .ok item) (h' : cellOf kind type value' = .ok item') :
    Comparable bound item item' := by
  refine comparable_of_cellFrom kind hsmall (fun cell hcell => ?_) (fun cell hcell => ?_)
  · rw [Option.mem_def.mp hcell] at h
    exact ⟨cellFrom_cellOf h, cellOf_wellFormed h⟩
  · rw [Option.mem_def.mp hcell] at h'
    exact ⟨cellFrom_cellOf h', cellOf_wellFormed h'⟩

variable {values values' : List Value} {items items' : List (Option Cell)}

/-- The cells of arrays of one type are comparable. -/
theorem comparable_elementCells (hsmall : bound < 2 ^ 31)
    (h : elementCells kind type values = .ok items) (h' :
      elementCells kind type values' = .ok items')
    (hlength : items.length = items'.length) : List.Forall₂ (Comparable bound) items items' := by
  induction values generalizing values' items items' with
  | nil =>
    cases h
    rw [length_nil] at hlength
    rw [eq_nil_of_length_eq_zero hlength.symm]
    exact .nil
  | cons value values ih =>
    rw [elementCells_cons] at h
    obtain ⟨item, rest, hitem, hrest, rfl⟩ := of_cons_eq_ok h
    cases values' with
    | nil =>
      cases h'
      cases hlength
    | cons value' values' =>
      rw [elementCells_cons] at h'
      obtain ⟨item', rest', hitem', hrest', rfl⟩ := of_cons_eq_ok h'
      refine .cons (comparable_of_cellFrom kind hsmall (fun cell hcell =>
        ?_) (fun cell hcell => ?_))
        (ih hrest hrest' (Nat.succ.inj hlength))
      · rw [Option.mem_def.mp hcell] at hitem
        exact ⟨cellFrom_elementCell hitem, elementCell_wellFormed hitem⟩
      · rw [Option.mem_def.mp hcell] at hitem'
        exact ⟨cellFrom_elementCell hitem', elementCell_wellFormed hitem'⟩

/-- The cells of rows of one type are comparable. -/
theorem comparable_columnCells {types : List DataType} (hsmall : bound < 2 ^ 31)
    (htyped : haveTypes types values = true) (htyped' : haveTypes types values' = true)
    (h : columnCells types values = .ok items) (h' : columnCells types values' = .ok items') :
    List.Forall₂ (Comparable bound) items items' := by
  induction types generalizing values values' items items' with
  | nil =>
    rw [columnCells] at h h'
    · cases h
      cases h'
      exact .nil
    all_goals
      intro _ _ _ _ htypes
      cases htypes
  | cons type types ih =>
    cases values with
    | nil => simp [haveTypes] at htyped
    | cons value values =>
      cases values' with
      | nil => simp [haveTypes] at htyped'
      | cons value' values' =>
        rw [haveTypes, Bool.and_eq_true] at htyped htyped'
        rw [columnCells] at h h'
        obtain ⟨kind, hkind, h⟩ := bind_eq_ok.mp h
        obtain ⟨item, rest, hitem, hrest, rfl⟩ := of_cons_eq_ok h
        obtain ⟨kind', hkind', h'⟩ := bind_eq_ok.mp h'
        obtain ⟨item', rest', hitem', hrest', rfl⟩ := of_cons_eq_ok h'
        rw [hkind] at hkind'
        cases hkind'
        exact .cons (comparable_cellOf hsmall hitem hitem') (ih htyped.2 htyped'.2 hrest hrest')

/-! ## Containers of one type -/

variable {bit : Nat}

theorem testBit_append_zeros (header : Bytes) (n : Nat) (h : 8 * header.length ≤ bit) :
    testBit bit (header ++ zeros n) = false := by
  have hbyte : (header ++ zeros n).getD (bit / 8) 0 = 0 := by
    rw [getD_eq_getElem?_getD, List.getElem?_append_right (by omega), zeros,
      List.getElem?_replicate]
    split <;> rfl
  rw [testBit, hbyte]
  simp

theorem take_mark {count : Nat} (h : 8 * count ≤ bit) (items : List (Option Cell)) (mask : Bytes) :
    (mark bit items mask).take count = mask.take count := by
  induction items generalizing bit mask with
  | nil => rfl
  | cons item items ih =>
    cases item with
    | some cell => rw [mark, ih (by omega)]
    | none =>
      rw [mark, ih (by omega), setBit]
      refine ext_getElem? fun k => ?_
      rw [List.getElem?_take, List.getElem?_take, List.getElem?_modify]
      by_cases hk : k < count
      · have hne : bit / 8 ≠ k := by omega
        simp only [if_pos hk, if_neg hne]
        simp
      · rw [if_neg hk, if_neg hk]

/-- Counts and sizes are told apart in four bytes. -/
theorem leInt_nat_inj {n n' : Nat} (hn : n < 2 ^ 31) (hn' : n' < 2 ^ 31)
    (h : leInt 4 (n : Int) = leInt 4 (n' : Int)) : n = n' := by
  have hwidth : ∀ {n : Nat}, n < 2 ^ 31 → inWidth (8 * 4) n = true := by
    intro n hn
    rw [inWidth_iff]
    omega
  have hint : (n : Int) = n' := leInt_inj (by decide : 0 < 4) (hwidth hn) (hwidth hn') h
  exact_mod_cast hint

theorem length_pos_arrayStride (kind : KeyField) : 1 ≤ arrayStride kind := by
  cases kind <;> simp [arrayStride]

theorem length_le_arrayBytes (hfit : Fit (arrayStride kind) items) :
    items.length ≤ (arrayBytes kind items).length := by
  have hstride := Nat.le_mul_of_pos_right items.length (length_pos_arrayStride kind)
  have hle := le_nextMultipleOf8 ((arrayMask items.length).length + items.length * arrayStride kind)
  rw [arrayBytes, length_containerBytes hfit, fixedSize]
  omega

theorem take_arrayBytes (kind : KeyField) (items : List (Option Cell)) :
    (arrayBytes kind items).take 4 = leInt 4 items.length := by
  have hlength : 4 ≤ (mark 32 items (arrayMask items.length)).length := by
    rw [length_mark, length_arrayMask, arrayNullBytes]
    omega
  rw [arrayBytes, containerBytes, append_assoc, append_assoc, take_append_of_le_length hlength,
    take_mark (by omega), arrayMask, take_left' (length_leInt ..)]

/-- The bytes of an array tell how many elements it has. -/
theorem arrayBytes_count (hsmall : bound < 2 ^ 31) (hfit : Fit (arrayStride kind) items)
    (hfit' : Fit (arrayStride kind) items') (hbound : (arrayBytes kind items).length ≤ bound)
    (h : arrayBytes kind items = arrayBytes kind items') : items.length = items'.length := by
  have hle := length_le_arrayBytes hfit
  have hle' := length_le_arrayBytes hfit'
  rw [← h] at hle'
  exact leInt_nat_inj (by omega) (by omega)
    (by rw [← take_arrayBytes kind, ← take_arrayBytes kind, h])

/-- The element of an array as far as the encoding keeps it. -/
def normalElement (type : DataType) (value : Value) : Value :=
  match type, value with
  | .float32, .float bits => .float (canonicalFloat bits)
  | .float64, .float bits => .float (canonicalDouble bits)
  | _, _ => normal type value

theorem normalElements_cons (type : DataType) (value : Value) (values : List Value) :
    normalElements type (value :: values) = normalElement type value ::
        normalElements type values := by
  cases type <;> cases value <;> rfl

/-- The kind of a type cuts nothing off. -/
theorem keyNormal_of_type (h : fromArrowType type = .ok kind)
    (value : Value) : keyNormal kind type value = normal type value := by
  cases type with
  | timestamp unit => cases unit <;> cases h <;> cases value <;> rfl
  | time32 unit => cases kind <;> rfl
  | _ => cases kind <;> rfl

theorem eq_null_of_cellOf (h : cellOf kind type value = .ok none) : value = .null := by
  rcases cellOf_ok h with ⟨hnull, -⟩ | ⟨-, content, hcell⟩ | ⟨scalar, -, hcell⟩
  · exact hnull
  · cases hcell
  · cases hcell

theorem scalar_inj (hsmall : bound < 2 ^ 31) (hkind : kind ≠ .nested)
    (htyped : hasType type value = true) (htyped' : hasType type value' = true)
    (h : cellOf kind type value = .ok item) (h' : cellOf kind type value' = .ok item')
    (halike : Alike bound item item') : keyNormal kind type value = keyNormal kind type value' := by
  cases halike with
  | missing => rw [eq_null_of_cellOf h, eq_null_of_cellOf h']
  | cells offset hbound hslot hvar =>
    obtain ⟨scalar, hscalar, rfl⟩ := cellOf_scalar hkind h
    obtain ⟨scalar', hscalar', rfl⟩ := cellOf_scalar hkind h'
    obtain ⟨hform, hnanos⟩ := scalarOf_form hscalar
    obtain ⟨hform', hnanos'⟩ := scalarOf_form hscalar'
    have hbound' : offset + (scalarCell scalar').var.length ≤ bound := by rw [← hvar]; exact hbound
    exact scalarOf_inj htyped htyped' hscalar hscalar'
      ((scalarCell_inj (hform.trans hform'.symm) hnanos hnanos' hsmall hbound hbound' hslot).2 hvar)

/-- Elements of an array that is told apart by its elements. -/
theorem arrayOf_alike (hsmall : bound < 2 ^ 31) (hbound : content.length ≤ bound)
    (h : arrayOf type values = .ok content) (h' : arrayOf type values' = .ok content) :
    ∃ kind items items', fromArrowType type = .ok kind ∧ elementCells kind type values = .ok items ∧
      elementCells kind type values' = .ok items' ∧ List.Forall₂ (Alike bound) items items' := by
  obtain ⟨kind, hkind, h⟩ := bind_eq_ok.mp h
  obtain ⟨items, hitems, h⟩ := bind_eq_ok.mp h
  obtain ⟨kind', hkind', h'⟩ := bind_eq_ok.mp h'
  obtain ⟨items', hitems', h'⟩ := bind_eq_ok.mp h'
  rw [hkind] at hkind'
  cases hkind'
  have hcontent : arrayBytes kind items = content := ok.inj h
  have hcontent' : arrayBytes kind items' = content := ok.inj h'
  obtain ⟨-, hfit⟩ := elementCells_ok hitems
  obtain ⟨-, hfit'⟩ := elementCells_ok hitems'
  have hsame := hcontent.trans hcontent'.symm
  have hbound : (arrayBytes kind items).length ≤ bound := by rw [hcontent]; exact hbound
  have hcount := arrayBytes_count hsmall hfit hfit' hbound hsame
  refine ⟨kind, items, items', hkind, hitems, hitems', ?_⟩
  unfold arrayBytes at hsame hbound
  rw [← hcount] at hsame
  refine alike_of_containerBytes_eq
    (comparable_elementCells hsmall hitems hitems' hcount) hfit hfit' ?_
    (fun k hk => ?_) hbound hsame
  · rw [length_arrayMask, arrayNullBytes]
    omega
  · exact testBit_append_zeros _ _ (by rw [length_leInt]; omega)

/-- Columns of a row that is told apart by its columns. -/
theorem rowBytes_alike (hbound : (rowBytes items).length ≤ bound) (hfit : Fit 8 items)
    (hfit' : Fit 8 items')
    (hcomparable : List.Forall₂ (Comparable bound) items items') (h :
      rowBytes items = rowBytes items') :
    List.Forall₂ (Alike bound) items items' := by
  have hsame := hcomparable.length_eq
  unfold rowBytes at h hbound
  rw [← hsame] at h
  refine alike_of_containerBytes_eq hcomparable hfit hfit' ?_ (fun k _ => ?_) hbound h
  · rw [rowMask, length_zeros]
    omega
  · exact testBit_append_zeros [] _ (Nat.zero_le _)

theorem mapBytes_inj {keys keys' values values' : Bytes} (hsmall : bound < 2 ^ 31)
    (hbound : (mapBytes keys values).length ≤ bound) (h :
      mapBytes keys values = mapBytes keys' values') :
    keys = keys' ∧ values = values' := by
  have hlengths := congrArg List.length h
  unfold mapBytes at h hbound hlengths
  simp only [length_append, length_leInt] at hbound hlengths
  rw [append_assoc, append_assoc] at h
  obtain ⟨hsize, h⟩ := append_split h ((length_leInt ..).trans (length_leInt ..).symm)
  exact append_split h (leInt_nat_inj (by omega) (by omega) hsize)

/-- Only floating-point types have floating-point fields. -/
theorem kind_cases (h : fromArrowType type = .ok kind) :
    (type = .float32 ∧ kind = .float) ∨ (type = .float64 ∧ kind = .double) ∨
      (type ≠ .float32 ∧ type ≠ .float64 ∧ kind ≠ .float ∧ kind ≠ .double) := by
  cases type with
  | float32 =>
    cases h
    exact Or.inl ⟨rfl, rfl⟩
  | float64 =>
    cases h
    exact Or.inr (Or.inl ⟨rfl, rfl⟩)
  | timestamp unit | time32 unit =>
    cases unit <;> cases h <;> exact Or.inr (Or.inr ⟨nofun, nofun, nofun, nofun⟩)
  | list element | struct fields =>
    rw [fromArrowType] at h
    obtain ⟨_, -, h⟩ := bind_eq_ok.mp h
    cases h
    exact Or.inr (Or.inr ⟨nofun, nofun, nofun, nofun⟩)
  | map key value =>
    rw [fromArrowType] at h
    obtain ⟨_, -, h⟩ := bind_eq_ok.mp h
    obtain ⟨_, -, h⟩ := bind_eq_ok.mp h
    cases h
    exact Or.inr (Or.inr ⟨nofun, nofun, nofun, nofun⟩)
  | other => cases h
  | _ =>
    cases h
    exact Or.inr (Or.inr ⟨nofun, nofun, nofun, nofun⟩)

theorem elementCell_of_ne (hfloat : kind ≠ .float) (hdouble : kind ≠ .double)
    (type : DataType) (value : Value) : elementCell kind type value = cellOf kind type value := by
  cases kind <;> first | rfl | exact absurd rfl hfloat | exact absurd rfl hdouble

theorem normalElement_of_ne (hfloat : type ≠ .float32) (hdouble : type ≠ .float64)
    (value : Value) : normalElement type value = normal type value := by
  cases type <;> first | rfl | exact absurd rfl hfloat | exact absurd rfl hdouble

variable {bits : Nat}

theorem canonicalFloat_lt (h : hasType .float32 (.float bits) = true) : canonicalFloat bits <
    2 ^ (8 * 4) := by
  rw [hasType, decide_eq_true_eq] at h
  unfold canonicalFloat
  split_ifs
  · decide
  · exact h

theorem canonicalDouble_lt (h : hasType .float64 (.float bits) = true) :
    canonicalDouble bits < 2 ^ (8 * 8) := by
  rw [hasType, decide_eq_true_eq] at h
  unfold canonicalDouble
  split_ifs
  · decide
  · exact h

/-- Elements agree if their values do, and not-a-number is one element. -/
theorem element_inj (hkind : fromArrowType type = .ok kind) (htyped : hasType type value = true)
    (htyped' : hasType type value' = true)
    (h : elementCell kind type value = .ok item) (h' : elementCell kind type value' = .ok item')
    (halike : Alike bound item item')
    (hplain : cellOf kind type value = .ok item → cellOf kind type value' = .ok item' →
      keyNormal kind type value = keyNormal kind type value') :
    normalElement type value = normalElement type value' := by
  obtain hfloating | ⟨hfloat, hdouble, hkindFloat, hkindDouble⟩ := or_assoc.mpr (kind_cases hkind)
  · rcases hfloating with ⟨rfl, rfl⟩ | ⟨rfl, rfl⟩ <;> cases value with
    | null =>
      cases h
      cases halike
      cases value' with
      | null => rfl
      | _ => cases h'
    | float bits =>
      cases h
      cases value' with
      | null =>
        cases h'
        cases halike
      | float bits' =>
        cases h'
        obtain _ | ⟨offset, hbound, hslot, hvar⟩ := halike
        refine congrArg Value.float (leBytes_float_inj ?_ ?_ hslot)
        · first | exact canonicalFloat_lt htyped | exact canonicalDouble_lt htyped
        · first | exact canonicalFloat_lt htyped' | exact canonicalDouble_lt htyped'
      | _ => cases htyped'
    | _ => cases htyped
  · rw [elementCell_of_ne hkindFloat hkindDouble] at h h'
    have hvalue := hplain h h'
    rw [keyNormal_of_type hkind, keyNormal_of_type hkind] at hvalue
    rw [normalElement_of_ne hfloat hdouble, normalElement_of_ne hfloat hdouble, hvalue]

mutual

/-- **Values with like cells agree** as far as the encoding keeps them. -/
theorem value_inj {bound : Nat} (hsmall : bound < 2 ^ 31) (kind : KeyField) (type : DataType) :
    ∀ (value value' : Value), hasType type value = true → hasType type value' = true →
    ∀ {item item' : Option Cell}, cellOf kind type value = .ok item →
      cellOf kind type value' = .ok item' →
    Alike bound item item' → keyNormal kind type value = keyNormal kind type value'
  | .null, value', _, _, item, item', h, h', halike => by
    cases h
    cases halike
    rw [eq_null_of_cellOf h']
  | .bool _, _, htyped, htyped', _, _, h, h', halike | .int _, _, htyped, htyped', _,
    _, h, h', halike
  | .float _, _, htyped, htyped', _, _, h, h', halike | .bytes _, _, htyped, htyped', _, _, h,
      h', halike => by
    refine scalar_inj hsmall (fun hkind => ?_) htyped htyped' h h' halike
    subst hkind
    cases h
  | .list elements, value', htyped, htyped', item, item', h, h', halike => by
    obtain ⟨element, rfl, htyped⟩ := hasType_list htyped
    by_cases hkind : kind = .nested
    · subst hkind
      rw [cellOf_list] at h
      obtain ⟨content, hcontent, h⟩ := bind_eq_ok.mp h
      cases h
      cases value' with
      | null =>
        cases h'
        cases halike
      | list elements' =>
        obtain ⟨_, heq, htyped'⟩ := hasType_list htyped'
        cases heq
        rw [cellOf_list] at h'
        obtain ⟨content', hcontent', h'⟩ := bind_eq_ok.mp h'
        cases h'
        obtain ⟨rfl, hbound⟩ := nestedCell_inj hsmall halike
        obtain ⟨kind, items, items', hkind, hitems, hitems', hitemsAlike⟩ :=
          arrayOf_alike hsmall hbound hcontent hcontent'
        exact congrArg Value.list
          (elements_inj hsmall hkind elements elements' htyped htyped' hitems
          hitems' hitemsAlike)
      | _ => simp [hasType] at htyped'
    · cases kind <;> first | cases h | exact absurd rfl hkind
  | .map keys values, value', htyped, htyped', item, item', h, h', halike => by
    obtain ⟨key, value, rfl, -, hkeys, hvalues⟩ := hasType_map htyped
    by_cases hkind : kind = .nested
    · subst hkind
      rw [cellOf_map] at h
      obtain ⟨keyBytes, hkeyBytes, h⟩ := bind_eq_ok.mp h
      obtain ⟨valueBytes, hvalueBytes, h⟩ := bind_eq_ok.mp h
      cases h
      cases value' with
      | null =>
        cases h'
        cases halike
      | map keys' values' =>
        obtain ⟨_, _, heq, -, hkeys', hvalues'⟩ := hasType_map htyped'
        cases heq
        rw [cellOf_map] at h'
        obtain ⟨keyBytes', hkeyBytes', h'⟩ := bind_eq_ok.mp h'
        obtain ⟨valueBytes', hvalueBytes', h'⟩ := bind_eq_ok.mp h'
        cases h'
        obtain ⟨hmap, hbound⟩ := nestedCell_inj hsmall halike
        obtain ⟨rfl, rfl⟩ := mapBytes_inj hsmall hbound hmap
        have hkeyBound : keyBytes.length ≤ bound := by
          simp only [mapBytes, length_append] at hbound
          omega
        have hvalueBound : valueBytes.length ≤ bound := by
          simp only [mapBytes, length_append] at hbound
          omega
        obtain ⟨_, _, _, hkind, hitems, hitems', hitemsAlike⟩ :=
          arrayOf_alike hsmall hkeyBound hkeyBytes hkeyBytes'
        have hkeysEq := elements_inj hsmall hkind keys keys' hkeys hkeys' hitems hitems' hitemsAlike
        obtain ⟨_, _, _, hkind, hitems, hitems', hitemsAlike⟩ :=
          arrayOf_alike hsmall hvalueBound hvalueBytes hvalueBytes'
        have hvaluesEq :=
          elements_inj hsmall hkind values values' hvalues hvalues' hitems hitems' hitemsAlike
        exact congrArg₂ Value.map hkeysEq hvaluesEq
      | _ => simp [hasType] at htyped'
    · cases kind <;> first | cases h | exact absurd rfl hkind
  | .struct columns, value', htyped, htyped', item, item', h, h', halike => by
    obtain ⟨fields, rfl, htyped⟩ := hasType_struct htyped
    by_cases hkind : kind = .nested
    · subst hkind
      rw [cellOf_struct] at h
      obtain ⟨items, hitems, h⟩ := bind_eq_ok.mp h
      cases h
      cases value' with
      | null =>
        cases h'
        cases halike
      | struct columns' =>
        obtain ⟨_, heq, htyped'⟩ := hasType_struct htyped'
        cases heq
        rw [cellOf_struct] at h'
        obtain ⟨items', hitems', h'⟩ := bind_eq_ok.mp h'
        cases h'
        obtain ⟨hrow, hbound⟩ := nestedCell_inj hsmall halike
        have hitemsAlike := rowBytes_alike hbound (columnCells_ok htyped hitems).2
          (columnCells_ok htyped' hitems').2
          (comparable_columnCells hsmall htyped htyped' hitems hitems') hrow
        exact congrArg Value.struct
          (columns_inj hsmall fields columns columns' htyped htyped' hitems
          hitems' hitemsAlike)
      | _ => simp [hasType] at htyped'
    · cases kind <;> first | cases h | exact absurd rfl hkind

/-- Equal cells of elements come from equal elements. -/
theorem elements_inj {bound : Nat} (hsmall : bound < 2 ^ 31) {kind : KeyField} {type : DataType}
    (hkind : fromArrowType type = .ok kind) : ∀ (values values' : List Value),
    haveType type values = true → haveType type values' = true →
      ∀ {items items' : List (Option Cell)},
    elementCells kind type values = .ok items → elementCells kind type values' = .ok items' →
    List.Forall₂ (Alike bound) items items' →
    normalElements type values = normalElements type values'
  | [], values', _, _, items, items', h, h', halike => by
    cases h
    cases halike
    obtain ⟨hlength, -⟩ := elementCells_ok h'
    rw [eq_nil_of_length_eq_zero hlength.symm]
  | value :: values, values', htyped, htyped', items, items', h, h', halike => by
    rw [elementCells_cons] at h
    obtain ⟨item, rest, hitem, hrest, rfl⟩ := of_cons_eq_ok h
    cases values' with
    | nil =>
      cases h'
      cases halike
    | cons value' values' =>
      rw [elementCells_cons] at h'
      obtain ⟨item', rest', hitem', hrest', rfl⟩ := of_cons_eq_ok h'
      rw [haveType, Bool.and_eq_true] at htyped htyped'
      obtain ⟨hhead, htail⟩ := forall₂_cons.mp halike
      have hplain := fun hcell hcell' =>
        value_inj hsmall kind type value value' htyped.1 htyped'.1 hcell hcell' hhead
      rw [normalElements_cons, normalElements_cons,
        elements_inj hsmall hkind values values' htyped.2 htyped'.2 hrest hrest' htail,
        element_inj hkind htyped.1 htyped'.1 hitem hitem' hhead hplain]

theorem columns_inj {bound : Nat} (hsmall : bound < 2 ^ 31) : ∀ (types : List DataType)
    (values values' : List Value), haveTypes types values = true → haveTypes types values' = true →
    ∀ {items items' : List (Option Cell)}, columnCells types values = .ok items →
    columnCells types values' = .ok items' → List.Forall₂ (Alike bound) items items' →
    normalColumns types values = normalColumns types values'
  | [], values, values', _, _, items, items', _, _, _ => by
    cases values <;> cases values' <;> rfl
  | type :: types, [], values', htyped, _, items, items', _, _, _ => by
    simp [haveTypes] at htyped
  | type :: types, value :: values, values', htyped, htyped', items, items', h, h', halike => by
    cases values' with
    | nil => simp [haveTypes] at htyped'
    | cons value' values' =>
      rw [haveTypes, Bool.and_eq_true] at htyped htyped'
      rw [columnCells] at h h'
      obtain ⟨kind, hkind, h⟩ := bind_eq_ok.mp h
      obtain ⟨item, rest, hitem, hrest, rfl⟩ := of_cons_eq_ok h
      obtain ⟨kind', hkind', h'⟩ := bind_eq_ok.mp h'
      obtain ⟨item', rest', hitem', hrest', rfl⟩ := of_cons_eq_ok h'
      rw [hkind] at hkind'
      cases hkind'
      obtain ⟨hhead, htail⟩ := forall₂_cons.mp halike
      have hvalue := value_inj hsmall kind type value value' htyped.1 htyped'.1 hitem hitem' hhead
      rw [keyNormal_of_type hkind, keyNormal_of_type hkind] at hvalue
      rw [normalColumns, normalColumns, hvalue,
        columns_inj hsmall types values values' htyped.2 htyped'.2 hrest hrest' htail]

end

end StreamFusion.Exchange.BinaryRow
