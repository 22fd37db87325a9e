import StreamFusion.RegularJoin.PagedCodec

/-!
# Writing the paged state of the regular join

The encoders of `regular_join/paged_codec.rs`, and that the decoders read back what they write: the
manifest of rows whose identities are all numbers below a count, the record of a row, and the
compact manifest of a state with one row.
-/

namespace StreamFusion.RegularJoin

open State Wire Wire.Reader List Side

/-! ## Encoding -/

/-- Whether the rows of a side can be matched. -/
def encodeMatchable : Option Bool → UInt8
  | none => 0
  | some false => 1
  | some true => 2

/-- The matchability and the next row identities of the two sides. -/
def encodeHeader (matchable : Side → Option Bool) (next : Side → Nat) : Bytes :=
  [encodeMatchable (matchable .left)] ++ ([encodeMatchable (matchable .right)] ++
    (leBytes 8 (next .left) ++ leBytes 8 (next .right)))

/-- A row of a page. -/
def appendRow (row : StoredRow Bytes) : Bytes :=
  leBytes 8 row.id ++
    (leBytes 4 row.associations.toUInt32.toNat ++ (leBytes 4 row.row.length ++ row.row))

/-- A page of rows. -/
def appendPage (rows : StoredRows) : Bytes :=
  pageMagic ++ (leBytes 4 rows.length ++ rows.flatMap appendRow)

/-- A row in a page of its own. -/
def encodeRow (row : StoredRow Bytes) : Result Bytes :=
  if 2 ^ 32 - 1 < row.row.length then .error invalid else .ok (appendPage [row])

/-- Rows next to each other whose identities lie on one page. -/
def pages (rows : StoredRows) : List StoredRows :=
  rows.splitBy fun row row' => row.id / pageRows == row'.id / pageRows

/-- The number of a page. -/
def pageNumber (rows : StoredRows) : Nat :=
  match rows with
  | [] => 0
  | row :: _ => row.id / pageRows

/-- The numbers of the pages of a side. -/
def encodePageIds (rows : StoredRows) : Bytes :=
  leBytes 8 (pages rows).length ++ (pages rows).flatMap fun page => leBytes 8 (pageNumber page)

/-- The size of a page. -/
def pageSize (rows : StoredRows) : Nat := 9 + (rows.map fun row => 16 + row.row.length).sum

/-- The size of a state in one value. -/
def compactSize (state : JoinState Bytes) : Nat :=
  39 + ((pages (state.rows .left) ++ pages (state.rows .right)).map fun page =>
    12 + pageSize page).sum

/-- Is a state small enough for one value? -/
def compactEligible (state : JoinState Bytes) : Bool :=
  (state.rows .left).length + (state.rows .right).length ≤ pageRows &&
    compactSize state ≤ maxCompactBytes

/-- The pages of a side, each behind its size. -/
def encodeInline (rows : StoredRows) : Bytes :=
  (pages rows).flatMap fun page => leBytes 4 (pageSize page) ++ appendPage page

/-- A state in one value. -/
def compactBytes (matchable : Side → Option Bool) (state : JoinState Bytes) : Bytes :=
  compactMagic ++ (encodeHeader matchable state.nextRowId ++
    (encodePageIds (state.rows .left) ++ (encodePageIds (state.rows .right) ++
      (encodeInline (state.rows .left) ++ encodeInline (state.rows .right)))))

/-- Writes a small state. -/
def encodeCompact (matchable : Side → Option Bool) (state : JoinState Bytes) : Result Bytes :=
  if ¬ compactEligible state then .error invalid else .ok (compactBytes matchable state)

/-- Bitmaps of one page that follow each other become one. -/
def mergeFrom (page bits : Nat) : List (Nat × Nat) → List (Nat × Nat)
  | [] => [(page, bits)]
  | (page', bits') :: bitmaps =>
    if page' = page then mergeFrom page (bits ||| bits') bitmaps
    else (page, bits) :: mergeFrom page' bits' bitmaps

/-- Joins neighbouring bitmaps of one page. -/
def mergeBitmaps : List (Nat × Nat) → List (Nat × Nat)
  | [] => []
  | (page, bits) :: bitmaps => mergeFrom page bits bitmaps

/-- The rows of a page, as bits. -/
def encodeBitmap (bitmap : Nat × Nat) : Bytes := leBytes 8 bitmap.1 ++ leBytes 8 bitmap.2

/-- The bitmaps of a side. -/
def appendBitmaps (bitmaps : List (Nat × Nat)) : Bytes :=
  leBytes 8 (mergeBitmaps bitmaps).length ++ (mergeBitmaps bitmaps).flatMap encodeBitmap

/-- The bitmaps of the first `count` identities. -/
def denseBitmaps (count : Nat) : List (Nat × Nat) :=
  (List.range ((count + pageRows - 1) / pageRows)).map fun page =>
    (page, 2 ^ min (count - page * pageRows) pageRows - 1)

/-- The manifest of rows that are numbered without gaps. -/
def encodeDense (matchable : Side → Option Bool) (counts : Side → Nat) : Bytes :=
  rowsMagic ++ (encodeHeader matchable counts ++
    (appendBitmaps (denseBitmaps (counts .left)) ++ appendBitmaps (denseBitmaps (counts .right))))

/-! ## Headers -/

theorem Side.pick_eta {α : Type} (f : Side → α) : pick (f .left) (f .right) = f := by
  funext side
  cases side <;> rfl

theorem parses_magic (bytes : Bytes) : Parses (magic bytes) bytes () := by
  intro rest
  simp [magic, startsWith]

theorem parses_lift {α : Type} {result : Result α} {a : α} (h : result = .ok a) :
    Parses (lift result) [] a := by
  intro rest
  rw [lift, h]
  rfl

theorem parses_readMatchable (value : Option Bool) :
    Parses readMatchable [encodeMatchable value] value := by
  intro rest
  match value with
  | none => rfl
  | some false => rfl
  | some true => rfl

theorem parses_readHeader (matchable : Side → Option Bool) {next : Side → Nat}
    (hnext : ∀ side, next side < 2 ^ 64) :
    Parses readHeader (encodeHeader matchable next) (matchable, next) := by
  rw [← pick_eta matchable, ← pick_eta next]
  exact (parses_readMatchable _).bind ((parses_readMatchable _).bind
    ((parses_leNat invalid (hnext .left)).bind
      ((parses_leNat invalid (hnext .right)).bind_pure (parses_pure _))))

/-! ## Bitmaps -/

variable {previous : Option Nat}

theorem any_eq_true {n : Nat} : previous.any (n ≤ ·) = true ↔ ∃ before ∈ previous, n ≤ before := by
  cases previous <;> simp

/-- A bitmap of rows below the next number. -/
structure ValidBitmap (next : Nat) (bitmap : Nat × Nat) : Prop where
  page : bitmap.1 ≤ maxPage
  nonzero : bitmap.2 ≠ 0
  word : bitmap.2 < 2 ^ 64
  below : bitmap.1 * pageRows + bitmap.2.log2 < next

variable {next : Nat}

/-- Bitmaps are read back. -/
theorem parses_readBitmaps {previous : Option Nat} {bitmaps : List (Nat × Nat)}
    (hvalid : ∀ bitmap ∈ bitmaps, ValidBitmap next bitmap)
    (hincreasing : (bitmaps.map Prod.fst).Pairwise (· < ·))
    (hprevious : ∀ before ∈ previous, ∀ page ∈ bitmaps.map Prod.fst, before < page) :
    Parses (readBitmaps (fun _ _ => .ok ()) next bitmaps.length previous)
      (bitmaps.flatMap encodeBitmap)
      bitmaps := by
  induction bitmaps generalizing previous with
  | nil => exact parses_pure []
  | cons bitmap bitmaps ih =>
    obtain ⟨page, bits⟩ := bitmap
    obtain ⟨hbitmap, hbitmaps⟩ := forall_mem_cons.mp hvalid
    obtain ⟨hbefore, hincreasing⟩ := pairwise_cons.mp hincreasing
    have htail := @ih (some page) hbitmaps hincreasing fun before hmem => by
      obtain rfl := Option.some.inj (Option.mem_def.mp hmem)
      exact hbefore
    have hpage : page < 256 ^ 8 := hbitmap.page.trans_lt (by decide)
    have hguard : ¬ (maxPage < page ∨ bits = 0 ∨ previous.any (page ≤ ·) = true ∨
        next ≤ page * pageRows + bits.log2) := by
      rintro (h | h | h | h)
      · exact absurd hbitmap.page (Nat.not_le.mpr h)
      · exact hbitmap.nonzero h
      · obtain ⟨before, hmem, hle⟩ := any_eq_true.mp h
        exact absurd (hprevious before hmem page mem_cons_self) (Nat.not_lt.mpr hle)
      · exact absurd hbitmap.below (Nat.not_lt.mpr h)
    rw [flatMap_cons, encodeBitmap, append_assoc]
    exact (parses_leNat invalid hpage).bind ((parses_leNat invalid hbitmap.word).bind
      (parses_guard hguard ((parses_lift rfl).bind (htail.bind_pure (parses_pure _)))))

variable {page : Nat} {bitmaps : List (Nat × Nat)}

theorem mergeFrom_of_increasing {bits : Nat} (h : (page :: bitmaps.map Prod.fst).Pairwise (· < ·)) :
    mergeFrom page bits bitmaps = (page, bits) :: bitmaps := by
  induction bitmaps generalizing page bits with
  | nil => rfl
  | cons bitmap bitmaps ih =>
    obtain ⟨hbefore, htail⟩ := pairwise_cons.mp h
    rw [mergeFrom, if_neg (Nat.ne_of_gt (hbefore _ mem_cons_self)), ih htail]

theorem mergeBitmaps_of_increasing
    (h : (bitmaps.map Prod.fst).Pairwise (· < ·)) : mergeBitmaps bitmaps = bitmaps := by
  cases bitmaps with
  | nil => rfl
  | cons bitmap bitmaps => exact mergeFrom_of_increasing h

theorem length_flatMap_encodeBitmap (bitmaps : List (Nat × Nat)) :
    (bitmaps.flatMap encodeBitmap).length = bitmaps.length * 16 := by
  induction bitmaps with
  | nil => rfl
  | cons bitmap bitmaps ih =>
    rw [flatMap_cons, length_append, ih, encodeBitmap, length_append, length_leBytes,
      length_leBytes, length_cons]
    omega

/-- Bitmaps in order are read back. -/
theorem parses_readBitmapIds (hlength : bitmaps.length < 2 ^ 64)
    (hvalid : ∀ bitmap ∈ bitmaps, ValidBitmap next bitmap)
    (hincreasing : (bitmaps.map Prod.fst).Pairwise (· < ·)) :
    Parses (readBitmapIds (fun _ _ => .ok ()) next) (appendBitmaps bitmaps) bitmaps := by
  have hread := @parses_readBitmaps next none bitmaps hvalid hincreasing (by simp)
  rw [appendBitmaps, mergeBitmaps_of_increasing hincreasing]
  refine (parses_leNat invalid hlength).bind fun rest => ?_
  rw [remaining_bind, if_neg, hread]
  rw [length_append, length_flatMap_encodeBitmap]
  omega

theorem dense_fst (count : Nat) :
    (denseBitmaps count).map Prod.fst = List.range ((count + pageRows - 1) / pageRows) := by
  rw [denseBitmaps, map_map]
  exact map_id _

theorem dense_increasing (count : Nat) : ((denseBitmaps count).map Prod.fst).Pairwise (· < ·) := by
  rw [dense_fst]
  exact pairwise_lt_range

variable {count : Nat}

theorem mem_denseBitmaps {bitmap : Nat × Nat} (h : bitmap ∈ denseBitmaps count) :
    bitmap.1 * pageRows < count ∧
        bitmap.2 = 2 ^ min (count - bitmap.1 * pageRows) pageRows - 1 := by
  obtain ⟨page, hpage, rfl⟩ := mem_map.mp h
  have hlt := mem_range.mp hpage
  refine ⟨?_, rfl⟩
  rw [pageRows] at hlt ⊢
  omega

/-- The bitmaps of rows without gaps are valid. -/
theorem dense_valid (hcount : count < 2 ^ 64) : ∀ bitmap ∈ denseBitmaps count,
    ValidBitmap count bitmap := by
  intro bitmap hmem
  obtain ⟨hlt, hbits⟩ := mem_denseBitmaps hmem
  obtain ⟨page, bits⟩ := bitmap
  dsimp only at hlt hbits
  obtain ⟨rows, hrows⟩ : ∃ rows, min (count - page * pageRows) pageRows = rows + 1 :=
    Nat.exists_eq_succ_of_ne_zero (by rw [pageRows] at hlt ⊢; omega)
  rw [hrows] at hbits
  have hpow := Nat.two_pow_pos rows
  have hbound : 2 ^ rows ≤ bits ∧ bits < 2 ^ (rows + 1) := by
    rw [hbits, Nat.pow_succ]
    omega
  have hne : bits ≠ 0 := by omega
  have hlog : bits.log2 = rows := (Nat.log2_eq_iff hne).mpr hbound
  have hle : rows + 1 ≤ 64 := by rw [← hrows]; exact Nat.min_le_right _ _
  refine ⟨?_, hne, hbound.2.trans_le (Nat.pow_le_pow_right (by decide) hle), ?_⟩
  · rw [maxPage]
    rw [pageRows] at hlt ⊢
    omega
  · show page * pageRows + bits.log2 < count
    rw [hlog]
    omega

theorem expand_dense {rows : Nat} (h : rows ≤ pageRows) (id : Nat) :
    id ∈ expand page (2 ^ rows - 1) ↔ page * pageRows ≤ id ∧ id < page * pageRows + rows := by
  simp only [expand, mem_map, mem_filter, mem_range, Nat.testBit_two_pow_sub_one, decide_eq_true_eq]
  constructor
  · rintro ⟨bit, ⟨-, hbit⟩, rfl⟩
    omega
  · rintro ⟨hle, hlt⟩
    exact ⟨id - page * pageRows, by omega, by omega⟩

/-- The bitmaps name the identities below the count. -/
theorem iter_dense (hcount : count < 2 ^ 64) : EntryIds.iter ⟨[], denseBitmaps count⟩ =
    List.range count := by
  have hordered := ordered_bitmaps (dense_increasing count) fun page hmem => by
    obtain ⟨bitmap, hbitmap, rfl⟩ := mem_map.mp hmem
    exact (dense_valid hcount bitmap hbitmap).page
  refine SortedEntries.eq_of_pairwise Nat.lt_asymm hordered.increasing pairwise_lt_range fun id =>
    ?_
  simp only [EntryIds.iter, nil_append, mem_flatMap, mem_range]
  constructor
  · rintro ⟨bitmap, hmem, hid⟩
    obtain ⟨hlt, hbits⟩ := mem_denseBitmaps hmem
    rw [hbits, expand_dense (Nat.min_le_right _ _)] at hid
    omega
  · intro hlt
    refine ⟨(id / pageRows, _), mem_map.mpr ⟨id / pageRows, ?_, rfl⟩, ?_⟩
    · rw [mem_range, pageRows]
      omega
    · rw [expand_dense (Nat.min_le_right _ _), pageRows]
      omega

/-- A dense manifest is read as the numbers below the counts of its sides. -/
theorem decodeManifest_encodeDense (matchable : Side → Option Bool) {counts : Side → Nat}
    (hcounts : ∀ side, counts side < 2 ^ 64) :
    decodeManifest (encodeDense matchable counts) =
      .ok ⟨.rows, counts, matchable, fun side => ⟨[], denseBitmaps (counts side)⟩, none⟩ := by
  have hlength (side : Side) : (denseBitmaps (counts side)).length < 2 ^ 64 := by
    have := hcounts side
    rw [denseBitmaps, length_map, length_range, pageRows]
    omega
  have hside (side : Side) := parses_readBitmapIds (hlength side) (dense_valid (hcounts side))
    (dense_increasing (counts side))
  have hmagic : startsWith rowsMagic (encodeDense matchable counts) = true := by
    simp [startsWith, encodeDense, rowsMagic]
  rw [decodeManifest, if_pos hmagic, scanBitmaps, read_eq_ok]
  refine ⟨[], (parses_magic rowsMagic).run_bind ((parses_readHeader matchable hcounts).run_bind
    ((hside .left).run_bind ?_))⟩
  have hend := (hside .right).run
  exact bind_eq_ok.mpr ⟨_, _, hend,
    bind_eq_ok.mpr ⟨(), _, rfl, by rw [← pick_eta fun side => _]; rfl⟩⟩

/-! ## Rows -/

variable {row : StoredRow Bytes} {rows : StoredRows}

/-- A row of a page is read back. -/
theorem parses_appendRow (hid : row.id < 2 ^ 64) (hlength : row.row.length < 2 ^ 32) {bytes : Bytes}
    (hpage : row.id / pageRows = page) (hnext : row.id < next)
    (hprevious : ∀ before ∈ previous, before < row.id)
    (htail : Parses (readRows page next count (some row.id)) bytes rows) :
    Parses (readRows page next (count + 1) previous) (appendRow row ++ bytes) (row :: rows) := by
  have hguard :
      ¬ (row.id / pageRows ≠ page ∨ next ≤ row.id ∨ previous.any (row.id ≤ ·) = true) := by
    rintro (h | h | h)
    · exact h hpage
    · omega
    · obtain ⟨before, hmem, hle⟩ := any_eq_true.mp h
      exact absurd (hprevious before hmem) (Nat.not_lt.mpr hle)
  have hassociations : row.associations.toUInt32.toNat < 256 ^ 4 :=
    row.associations.toUInt32.toNat_lt
  rw [appendRow, append_assoc, append_assoc, append_assoc]
  refine (parses_leNat invalid hid).bind
    (parses_guard hguard ((parses_leNat invalid hassociations).bind
    ((parses_leNat invalid hlength).bind ((parses_exactly invalid rfl).bind (htail.bind_pure ?_)))))
  obtain ⟨id, payload, associations⟩ := row
  simp only [UInt32.ofNat_toNat, Int32.toInt32_toUInt32]
  exact parses_pure _

theorem length_appendRow (row : StoredRow Bytes) : (appendRow row).length =
    16 + row.row.length := by
  simp only [appendRow, length_append, length_leBytes]
  omega

theorem length_appendPage (row : StoredRow Bytes) : (appendPage [row]).length = pageSize [row] := by
  simp only [appendPage, pageSize, pageMagic, length_append, length_leBytes, flatMap_singleton,
    length_appendRow, map_cons, map_nil, sum_cons, sum_nil, length_cons, length_nil]
  omega

section

variable (hid : row.id < 2 ^ 64) (hlength : row.row.length < 2 ^ 32) (hnext : row.id < next)
include hid hlength hnext

theorem decodePage_appendPage :
    decodePage (appendPage [row]) (row.id / pageRows) next = .ok [row] := by
  have hrows : Parses (readRows (row.id / pageRows) next 1 none) (appendRow row ++ []) [row] :=
    parses_appendRow hid hlength rfl hnext (by simp) (parses_pure [])
  rw [append_nil] at hrows
  have hcount : readPageCount (appendPage [row]) = .ok (1, appendRow row) := by
    rw [appendPage, flatMap_singleton]
    refine (parses_magic pageMagic).run_bind ((parses_leNat invalid (by simp)).run_bind ?_)
    rw [remaining_bind, if_neg]
    · rfl
    · rw [length_appendRow, pageRows, length_singleton]
      omega
  refine read_eq_ok.mpr ⟨[],
    bind_eq_ok.mpr ⟨1, _, hcount, bind_eq_ok.mpr ⟨[row], [], hrows.run, rfl⟩⟩⟩

theorem decodeEntry_appendPage :
    decodeEntry (appendPage [row]) row.id next .rows = .ok [row] := by
  rw [decodeEntry, if_pos rfl, decodePage_appendPage hid hlength hnext, Except.ok_bind]
  simp

end

/-! ## Compact manifests -/

/-- A side of a state of one row. -/
def SingleOrNone (next : Nat) (rows : StoredRows) : Prop :=
  rows = [] ∨ ∃ row, rows = [row] ∧ row.id < next ∧ row.row.length < 2 ^ 31

/-- The numbers of the pages. -/
def pageIds (rows : StoredRows) : List Nat := (pages rows).map pageNumber

theorem pages_singleton (row : StoredRow Bytes) : pages [row] = [[row]] := rfl

/-- The numbers of the pages are read back. -/
theorem parses_encodePageIds (hbound : next < 2 ^ 64)
    (h : SingleOrNone next rows) :
        Parses (readPageIds next) (encodePageIds rows) (pageIds rows) := by
  rcases h with rfl | ⟨row, rfl, hid, -⟩
  · refine (parses_leNat invalid (by decide)).bind_pure fun rest => ?_
    exact (remaining_bind _ _).trans (congrFun (if_neg (Nat.not_lt_zero _)) _)
  · have hpage : row.id / pageRows ≤ maxPage := by
      rw [maxPage, pageRows]
      omega
    have hguard : ¬ (maxPage < row.id / pageRows ∨ next ≤ row.id / pageRows * pageRows ∨
        (none : Option Nat).any (row.id / pageRows ≤ ·) = true) := by
      have := Nat.div_mul_le_self row.id pageRows
      simp only [Option.any_none, Bool.false_eq_true, or_false]
      omega
    have hread :
        Parses (readPages next 1 none) (leBytes 8 (row.id / pageRows)) [row.id / pageRows] :=
      (parses_leNat invalid (hpage.trans_lt (by decide))).bind_pure
        (parses_guard hguard ((parses_pure []).bind_pure (parses_pure _)))
    rw [encodePageIds, pages_singleton, flatMap_singleton]
    refine (parses_leNat invalid (by simp)).bind fun rest => ?_
    rw [remaining_bind, if_neg]
    · exact hread rest
    · rw [length_append, length_leBytes, length_singleton]
      omega

theorem parses_encodeInline (hbound : next < 2 ^ 64) {rows : StoredRows}
    (h : SingleOrNone next rows) (hcount : count + rows.length ≤ pageRows) :
    Parses (readInline next (pageIds rows) count) (encodeInline rows) rows := by
  rcases h with rfl | ⟨row, rfl, hid, hlength⟩
  · exact parses_pure []
  · have hsize : pageSize [row] < 256 ^ 4 := by
      simp only [pageSize, map_cons, map_nil, sum_cons, sum_nil]
      omega
    have hpage := decodePage_appendPage (by omega : row.id < 2 ^ 64) (by omega) hid
    have hrest : Parses (readInline next [] (count + 1)) [] [] := parses_pure []
    rw [encodeInline, pages_singleton, flatMap_singleton]
    exact (parses_leNat invalid hsize).bind
      ((parses_exactly invalid (length_appendPage row)).bind_pure
      ((parses_lift hpage).bind_pure
        (parses_guard (Nat.not_lt.mpr hcount) (hrest.bind_pure (parses_pure _)))))

theorem length_encodePageIds (rows : StoredRows) :
    (encodePageIds rows).length = 8 + 8 * (pages rows).length := by
  rw [encodePageIds, length_append, length_leBytes, length_flatMap]
  simp [Nat.mul_comm]

theorem length_encodeInline (h : SingleOrNone next rows) :
    (encodeInline rows).length + 8 * (pages rows).length =
        ((pages rows).map fun page => 12 + pageSize page).sum := by
  rcases h with rfl | ⟨row, rfl, -, -⟩
  · rfl
  · simp only [encodeInline, pages_singleton, flatMap_singleton, length_append, length_leBytes,
      length_appendPage, length_singleton, map_cons, map_nil, sum_cons, sum_nil]
    omega

theorem length_encodeHeader (matchable : Side → Option Bool) (next : Side → Nat) :
    (encodeHeader matchable next).length = 18 := by
  simp only [encodeHeader, length_append, length_singleton, length_leBytes]

/-- A compact manifest of one row is read back. -/
theorem decodeManifest_encodeCompact {matchable : Side → Option Bool} {state : JoinState Bytes}
    (hnext : ∀ side, state.nextRowId side < 2 ^ 64)
    (hsides : ∀ side, SingleOrNone (state.nextRowId side) (state.rows side))
    (heligible : compactEligible state = true) :
    ∃ manifest, decodeManifest (compactBytes matchable state) = .ok manifest ∧
      manifest.nextRowId = state.nextRowId ∧ manifest.inline = some state.rows := by
  have hfit : (state.rows .left).length + (state.rows .right).length ≤ pageRows ∧
      compactSize state ≤ maxCompactBytes := by
    simpa [compactEligible] using heligible
  refine ⟨⟨.compact, state.nextRowId, matchable,
    pick ⟨pageIds (state.rows .left), []⟩ ⟨pageIds (state.rows .right), []⟩, some state.rows⟩, ?_,
      rfl, rfl⟩
  have hrows : ¬ startsWith rowsMagic (compactBytes matchable state) = true := by
    simp [startsWith, compactBytes, rowsMagic, compactMagic]
  have hcompact : startsWith compactMagic (compactBytes matchable state) = true := by
    simp [startsWith, compactBytes, compactMagic]
  have hlength : (compactBytes matchable state).length = compactSize state := by
    have hleft := length_encodeInline (hsides .left)
    have hright := length_encodeInline (hsides .right)
    have hmagic : compactMagic.length = 5 := rfl
    simp only [compactBytes, compactSize, length_append, length_encodeHeader, length_encodePageIds,
      map_append, sum_append]
    omega
  rw [decodeManifest, if_neg hrows, if_pos hcompact, decodeCompact,
    if_neg (by rw [hlength]; exact Nat.not_lt.mpr hfit.2), read_eq_ok]
  refine ⟨[], ?_⟩
  have hmanifest : Parses readManifest (encodeHeader matchable state.nextRowId ++
      (encodePageIds (state.rows .left) ++ encodePageIds (state.rows .right)))
      ⟨.pages, state.nextRowId, matchable,
        pick ⟨pageIds (state.rows .left), []⟩ ⟨pageIds (state.rows .right), []⟩, none⟩ :=
    (parses_readHeader matchable hnext).bind
      ((parses_encodePageIds (hnext .left) (hsides .left)).bind
      ((parses_encodePageIds (hnext .right) (hsides .right)).bind_pure (parses_pure _)))
  have hiter (ids : List Nat) : EntryIds.iter ⟨ids, []⟩ = ids := append_nil ids
  have hleft := @parses_encodeInline _ 0 (hnext .left) _ (hsides .left) (by omega)
  have hright := parses_encodeInline (hnext .right) (hsides .right) hfit.1
  rw [compactBytes, ← append_assoc (encodePageIds _), ← append_assoc (encodeHeader _ _)]
  refine (parses_magic compactMagic).run_bind (hmanifest.run_bind ?_)
  simp only [pick, hiter]
  refine hleft.run_bind (bind_eq_ok.mpr ⟨_, _, hright.run, bind_eq_ok.mpr ⟨(), _, rfl, ?_⟩⟩)
  exact pure_eq_ok.mpr ⟨by rw [pick_eta], rfl⟩

end StreamFusion.RegularJoin
