import StreamFusion.RegularJoin.PagedState

/-!
# Reading the paged state of the regular join

What a successful read of a manifest or a page has found.  The records that a manifest names come in
the order of their numbers, so none is named twice; a page has at least one row; and the checks that
an admission makes before anything is decoded pass whenever the decoder does.

A manifest whose records are visited while it is read is read as one that is decoded first
(`visitManifestEntries_eq_ok`), and no two records share a key (`entryKey_injective`).
-/

namespace StreamFusion.RegularJoin

open State Wire Wire.Reader List

/-! ## Reading -/

variable {bytes : Bytes} {α : Type}

theorem read_eq_ok {reader : Reader StateError α} {a : α} :
    read reader bytes = .ok a ↔ ∃ rest, reader bytes = .ok (a, rest) := by
  rw [read]
  rcases reader bytes with _ | ⟨b, rest⟩
  · simp [Except.map]
  · simp [Except.map]

variable {input rest : Bytes}

theorem lift_eq_ok {result : Result α} {a : α} :
    lift result input = .ok (a, rest) ↔ result = .ok a ∧ input = rest := by
  rw [lift]
  cases result <;> simp [Except.map]

theorem magic_eq_ok {u : Unit} :
    magic bytes input = .ok (u, rest) ↔ startsWith bytes input = true ∧
        input.drop bytes.length = rest := by
  rw [magic]
  split
  · rename_i h
    simp [h]
  · rename_i h
    simp [h]

theorem consumes_lift (result : Result α) : Consumes (lift result) 0 := by
  intro input a rest h
  obtain ⟨-, rfl⟩ := lift_eq_ok.mp h
  exact ⟨Nat.zero_le _, rfl⟩

theorem consumes_readMatchable : Consumes readMatchable 1 :=
  (consumes_leNat invalid 1).bind fun _ => consumes_lift _

theorem consumes_readHeader : Consumes readHeader 18 :=
  consumes_readMatchable.bind fun _ => consumes_readMatchable.bind fun _ =>
    (consumes_leNat invalid 8).bind fun _ =>
      (consumes_leNat invalid 8).bind fun _ => consumes_pure _

/-! ## Page numbers and bitmaps increase -/

/-- Page numbers that have been read fill the bytes and increase from the one before them. -/
structure PagesRead (count : Nat) (previous : Option Nat) (input rest : Bytes)
    (pages : List Nat) : Prop where
  length : pages.length = count
  enough : count * 8 ≤ input.length
  rest : input.drop (count * 8) = rest
  increasing : pages.Pairwise (· < ·)
  above : ∀ page ∈ pages, page ≤ maxPage ∧ ∀ before ∈ previous, before < page

variable {next count : Nat} {previous : Option Nat} {pages : List Nat}

/-- The numbers of the pages increase. -/
theorem readPages_spec (h : readPages next count previous input = .ok (pages, rest)) :
    PagesRead count previous input rest pages := by
  induction count generalizing previous input pages with
  | zero =>
    obtain ⟨rfl, rfl⟩ := pure_eq_ok.mp h
    exact ⟨rfl, by omega, by simp, .nil, by simp⟩
  | succ count ih =>
    rw [readPages, bind_eq_ok] at h
    obtain ⟨page, middle, hpage, hguard⟩ := h
    obtain ⟨hvalid, htail⟩ := guard_eq_ok.mp hguard
    obtain ⟨others, rest', hothers, hpure⟩ := bind_eq_ok.mp htail
    obtain ⟨rfl, rfl⟩ := pure_eq_ok.mp hpure
    obtain ⟨hlen, -, rfl⟩ := leNat_eq_ok.mp hpage
    have hread := ih hothers
    have hbefore : ∀ before ∈ previous, before < page := by
      intro before hmem
      by_contra hle
      exact hvalid (.inr (.inr (by rw [Option.mem_def.mp hmem]; simpa using Nat.le_of_not_lt hle)))
    have henough := hread.enough
    rw [length_drop] at henough
    refine ⟨congrArg (· + 1) hread.length, by omega, ?_, ?_, ?_⟩
    · rw [← hread.rest, drop_drop]
      congr 1
      omega
    · exact pairwise_cons.mpr ⟨fun page' hmem => (hread.above page' hmem).2 page rfl,
        hread.increasing⟩
    · refine forall_mem_cons.mpr ⟨⟨by omega, hbefore⟩, ?_⟩
      intro page' hmem
      obtain ⟨hmax, hlt⟩ := hread.above page' hmem
      exact ⟨hmax, fun before hb => (hbefore before hb).trans (hlt page rfl)⟩

variable {visit : Nat → Nat → Result Unit} {bitmaps : List (Nat × Nat)}

/-- Bitmaps that have been read increase, and each was visited. -/
theorem readBitmaps_spec : readBitmaps visit next count previous input = .ok (bitmaps, rest) ↔
      readBitmaps (fun _ _ => .ok ()) next count previous input = .ok (bitmaps, rest) ∧
        ∀ bitmap ∈ bitmaps, visit bitmap.1 bitmap.2 = .ok () := by
  induction count generalizing previous input bitmaps with
  | zero =>
    constructor
    · intro h
      obtain ⟨rfl, rfl⟩ := pure_eq_ok.mp h
      exact ⟨rfl, forall_mem_nil _⟩
    · exact fun h => h.1
  | succ count ih =>
    simp only [readBitmaps, bind_eq_ok, guard_eq_ok, lift_eq_ok, pure_eq_ok]
    constructor
    · rintro ⟨page, _, hpage, bits, _, hbits, hvalid, _, _, ⟨hvisit, rfl⟩, others, _,
        hothers, rfl, rfl⟩
      obtain ⟨hread, hvisits⟩ := ih.mp hothers
      exact ⟨⟨page, _, hpage, bits, _, hbits, hvalid, (), _, ⟨trivial, rfl⟩, others, _,
        hread, rfl, rfl⟩,
        forall_mem_cons.mpr ⟨hvisit, hvisits⟩⟩
    · rintro ⟨⟨page, _, hpage, bits, _, hbits, hvalid, _, _, ⟨-, rfl⟩, others, _, hread, rfl, rfl⟩,
        hall⟩
      obtain ⟨hvisit, hvisits⟩ := forall_mem_cons.mp hall
      exact ⟨page, _, hpage, bits, _, hbits, hvalid, _, _, ⟨hvisit, rfl⟩, others, _,
        ih.mpr ⟨hread, hvisits⟩, rfl, rfl⟩

/-- The pages of the bitmaps increase. -/
theorem readBitmaps_increasing
    (h : readBitmaps visit next count previous input = .ok (bitmaps, rest)) :
    (bitmaps.map Prod.fst).Pairwise (· < ·) ∧
      ∀ page ∈ bitmaps.map Prod.fst, page ≤ maxPage ∧ ∀ before ∈ previous, before < page := by
  induction count generalizing previous input bitmaps with
  | zero =>
    obtain ⟨rfl, rfl⟩ := pure_eq_ok.mp h
    exact ⟨.nil, forall_mem_nil _⟩
  | succ count ih =>
    simp only [readBitmaps, bind_eq_ok, guard_eq_ok, lift_eq_ok, pure_eq_ok] at h
    obtain ⟨page, _, hpage, bits, _, hbits, hvalid, _, _, -, others, _, hothers, rfl, rfl⟩ := h
    obtain ⟨hpairwise, habove⟩ := ih hothers
    have hbefore : ∀ before ∈ previous, before < page := by
      intro before hmem
      by_contra hle
      exact hvalid (.inr (.inr (.inl (by
        rw [Option.mem_def.mp hmem]
        simpa using Nat.le_of_not_lt hle))))
    rw [map_cons]
    refine ⟨pairwise_cons.mpr ⟨fun page' hmem => (habove page' hmem).2 page rfl, hpairwise⟩, ?_⟩
    refine forall_mem_cons.mpr ⟨⟨by omega, hbefore⟩, ?_⟩
    intro page' hmem
    obtain ⟨hmax, hlt⟩ := habove page' hmem
    exact ⟨hmax, fun before hb => (hbefore before hb).trans (hlt page rfl)⟩

variable {page id : Nat}

theorem mem_expand {bits : Nat} (h : id ∈ expand page bits) :
    page * pageRows ≤ id ∧ id < (page + 1) * pageRows := by
  obtain ⟨bit, hbit, rfl⟩ := mem_map.mp h
  have hlt : bit < pageRows := mem_range.mp (mem_filter.mp hbit).1
  rw [Nat.add_mul, Nat.one_mul]
  omega

theorem expand_increasing (page bits : Nat) : (expand page bits).Pairwise (· < ·) := by
  refine List.Pairwise.map _ ?_ (pairwise_lt_range.filter _)
  intro bit bit' h
  exact Nat.add_lt_add_left h _

/-- The records of a side are in the order of their numbers, which are 64-bit words. -/
structure EntryIds.Ordered (ids : EntryIds) : Prop where
  increasing : ids.iter.Pairwise (· < ·)
  bounded : ∀ id ∈ ids.iter, id < 2 ^ 64

theorem ordered_explicit (h : pages.Pairwise (· < ·)) (hmax : ∀ page ∈ pages, page ≤ maxPage) :
    EntryIds.Ordered ⟨pages, []⟩ := by
  have hiter : EntryIds.iter ⟨pages, []⟩ = pages := append_nil pages
  have hbound : maxPage < 2 ^ 64 := by decide
  exact ⟨by rwa [hiter], by rw [hiter]; exact fun page hmem => (hmax page hmem).trans_lt hbound⟩

theorem ordered_bitmaps (h : (bitmaps.map Prod.fst).Pairwise (· < ·))
    (hmax : ∀ page ∈ bitmaps.map Prod.fst, page ≤ maxPage) : EntryIds.Ordered ⟨[], bitmaps⟩ := by
  have hbound : (maxPage + 1) * pageRows = 2 ^ 64 := by decide
  have hiter : EntryIds.iter ⟨[], bitmaps⟩ = bitmaps.flatMap fun bitmap =>
      expand bitmap.1 bitmap.2 :=
    nil_append _
  refine ⟨?_, ?_⟩
  · rw [hiter, pairwise_flatMap]
    refine ⟨fun bitmap _ => expand_increasing _ _, (pairwise_map.mp h).imp ?_⟩
    intro bitmap bitmap' hlt id hid id' hid'
    calc id < (bitmap.1 + 1) * pageRows := (mem_expand hid).2
      _ ≤ bitmap'.1 * pageRows := Nat.mul_le_mul_right _ hlt
      _ ≤ id' := (mem_expand hid').1
  · intro id hid
    rw [hiter] at hid
    obtain ⟨bitmap, hmem, hin⟩ := mem_flatMap.mp hid
    have hpage := hmax bitmap.1 (mem_map_of_mem hmem)
    calc id < (bitmap.1 + 1) * pageRows := (mem_expand hin).2
      _ ≤ (maxPage + 1) * pageRows := Nat.mul_le_mul_right _ (by omega)
      _ = 2 ^ 64 := hbound

/-! ## The checks of an admission pass if the decoder does -/

theorem readPageIds_spec (h : readPageIds next input = .ok (pages, rest)) :
    EntryIds.Ordered ⟨pages, []⟩ ∧
        (pages.length ≤ pageRows → skipPages input = .ok (pages.length, rest)) := by
  rw [readPageIds, bind_eq_ok] at h
  obtain ⟨count, middle, hcount, hrest⟩ := h
  rw [remaining_bind, guard_eq_ok] at hrest
  have hread := readPages_spec hrest.2
  refine ⟨ordered_explicit hread.increasing fun page hmem =>
    (hread.above page hmem).1, fun hle => ?_⟩
  rw [hread.length] at hle ⊢
  rw [skipPages, bind_eq_ok]
  refine ⟨count, middle, hcount, guard_eq_ok.mpr ⟨Nat.not_lt.mpr hle, bind_eq_ok.mpr ?_⟩⟩
  exact ⟨_, _, exactly_eq_ok.mpr ⟨hread.enough, rfl, hread.rest⟩, pure_eq_ok.mpr ⟨rfl, rfl⟩⟩

variable {rows : StoredRows}

theorem readRows_length (h : readRows page next count previous input = .ok (rows, rest)) :
    rows.length = count := by
  induction count generalizing previous input rows with
  | zero =>
    obtain ⟨rfl, -⟩ := pure_eq_ok.mp h
    rfl
  | succ count ih =>
    simp only [readRows, bind_eq_ok, guard_eq_ok, pure_eq_ok] at h
    obtain ⟨_, _, -, -, _, _, -, _, _, -, _, _, -, others, _, hothers, rfl, rfl⟩ := h
    exact congrArg (· + 1) (ih hothers)

/-- A page that decodes is admitted, and is not empty. -/
theorem decodePage_spec (h : decodePage bytes page next = .ok rows) :
    (∃ count, decodeWorkspace bytes = .ok count) ∧ rows ≠ [] := by
  obtain ⟨rest, hread⟩ := read_eq_ok.mp h
  obtain ⟨count, middle, hcount, htail⟩ := bind_eq_ok.mp hread
  obtain ⟨rows', _, hrows, hfinish⟩ := bind_eq_ok.mp htail
  obtain ⟨_, _, -, hpure⟩ := bind_eq_ok.mp hfinish
  obtain ⟨rfl, -⟩ := pure_eq_ok.mp hpure
  refine ⟨⟨count, read_eq_ok.mpr ⟨middle, hcount⟩⟩, ?_⟩
  obtain ⟨_, _, -, htail⟩ := bind_eq_ok.mp hcount
  obtain ⟨count', _, -, hrest⟩ := bind_eq_ok.mp htail
  rw [remaining_bind, guard_eq_ok, pure_eq_ok] at hrest
  obtain ⟨hvalid, rfl, -⟩ := hrest
  rw [← length_pos_iff_ne_nil, readRows_length hrows]
  omega

theorem decodeEntry_spec {layout : Layout} (h : decodeEntry bytes id next layout = .ok rows) :
    (∃ count, decodeWorkspace bytes = .ok count) ∧ rows ≠ [] := by
  obtain ⟨rows', hpage, hvalid⟩ := Except.bind_eq_ok.mp h
  split at hvalid
  · cases hvalid
  · obtain rfl := Except.ok.inj hvalid
    exact decodePage_spec hpage

/-- The pages of a compact manifest can be skipped, and each has a row. -/
theorem readInline_spec (h : readInline next pages count input = .ok (rows, rest)) :
    (∃ sizes, times skipPage pages.length input = .ok (sizes, rest)) ∧ pages.length ≤ rows.length ∧
      (pages ≠ [] → count + rows.length ≤ pageRows) := by
  induction pages generalizing count input rows with
  | nil =>
    obtain ⟨rfl, rfl⟩ := pure_eq_ok.mp h
    exact ⟨⟨[], rfl⟩, Nat.le_refl 0, fun hne => (hne rfl).elim⟩
  | cons page pages ih =>
    simp only [readInline, bind_eq_ok, guard_eq_ok, lift_eq_ok, pure_eq_ok] at h
    obtain ⟨length, _, hlength, bytes, _, hbytes, first, _, ⟨hpage, rfl⟩, hfit, others, _,
      hothers, rfl, rfl⟩ := h
    obtain ⟨⟨sizes, hsizes⟩, hle, hcount⟩ := ih hothers
    obtain ⟨⟨size, hsize⟩, hne⟩ := decodePage_spec hpage
    have hpos := length_pos_iff_ne_nil.mpr hne
    refine ⟨⟨size :: sizes, ?_⟩, ?_, fun _ => ?_⟩
    · simp only [length_cons, times, skipPage, bind_eq_ok, lift_eq_ok, pure_eq_ok]
      exact ⟨size, _, ⟨length, _, hlength, bytes, _, hbytes, hsize, rfl⟩, sizes, _,
        hsizes, rfl, rfl⟩
    · rw [length_append, length_cons]
      omega
    · rw [length_append]
      by_cases hpages : pages = []
      · subst hpages
        obtain ⟨rfl, -⟩ := pure_eq_ok.mp hothers
        simpa using Nat.le_of_not_lt hfit
      · have := hcount hpages
        omega

variable {manifest : Manifest}

theorem readManifest_spec (h : readManifest input = .ok (manifest, rest)) :
    (∀ side, (manifest.pages side).Ordered) ∧ manifest.inline = none ∧ manifest.layout = .pages ∧
      ((manifest.pages .left).iter.length + (manifest.pages .right).iter.length ≤ pageRows →
        ∃ header middle middle', exactly invalid 18 input = .ok (header, middle) ∧
          skipPages middle = .ok ((manifest.pages .left).iter.length, middle') ∧
          skipPages middle' = .ok ((manifest.pages .right).iter.length, rest)) := by
  simp only [readManifest, bind_eq_ok, pure_eq_ok] at h
  obtain ⟨⟨matchable, next⟩, middle, hheader, left, middle', hleft, right, _, hright, rfl, rfl⟩ := h
  obtain ⟨hordered, hskip⟩ := readPageIds_spec hleft
  obtain ⟨hordered', hskip'⟩ := readPageIds_spec hright
  obtain ⟨header, hexactly⟩ := consumes_readHeader.exactly invalid hheader
  refine ⟨fun side => ?_, rfl, rfl, fun hle => ?_⟩
  · cases side
    · exact hordered
    · exact hordered'
  · have hiter (pages : List Nat) : EntryIds.iter ⟨pages, []⟩ = pages := append_nil pages
    simp only [Side.pick, hiter] at hle ⊢
    exact ⟨header, middle, middle', hexactly, hskip (by omega), hskip' (by omega)⟩

/-- A state in one value is well formed and its memory is known. -/
theorem decodeCompact_spec (h : decodeCompact bytes = .ok manifest) :
    (∀ side, (manifest.pages side).Ordered) ∧ manifest.inline.isSome ∧
        compactWorkspace bytes = .ok () := by
  rw [decodeCompact] at h
  split at h
  · cases h
  rename_i hsize
  obtain ⟨rest, hread⟩ := read_eq_ok.mp h
  simp only [readCompact, bind_eq_ok, pure_eq_ok] at hread
  obtain ⟨_, start, hmagic, base, input, hbase, left, input', hleft, right, last, hright,
    _, _, hfinish, rfl, rfl⟩ := hread
  obtain ⟨hordered, -, -, hskip⟩ := readManifest_spec hbase
  obtain ⟨⟨sizes, hsizes⟩, hle, hfit⟩ := readInline_spec hleft
  obtain ⟨⟨sizes', hsizes'⟩, hle', hfit'⟩ := readInline_spec hright
  refine ⟨hordered, rfl, ?_⟩
  -- Every page has a row, and there are at most 64 rows.
  have hpages : (base.pages .left).iter.length + (base.pages .right).iter.length ≤ pageRows := by
    by_cases hnil' : (base.pages .right).iter = []
    · by_cases hnil : (base.pages .left).iter = []
      · simp [hnil, hnil']
      · have := hfit hnil
        simp only [hnil', length_nil]
        omega
    · have := hfit' hnil'
      omega
  obtain ⟨header, middle, middle', hheader, hleft', hright'⟩ := hskip hpages
  rw [compactWorkspace, if_neg hsize, read_eq_ok]
  simp only [bind_eq_ok, guard_eq_ok]
  exact ⟨_, (), start, hmagic, header, middle, hheader, _, middle', hleft', _, input, hright',
    Nat.not_lt.mpr hpages, _, last, times_add hsizes hsizes', hfinish⟩

theorem readBitmapIds_spec : readBitmapIds visit next input = .ok (bitmaps, rest) ↔
      readBitmapIds (fun _ _ => .ok ()) next input = .ok (bitmaps, rest) ∧
        ∀ bitmap ∈ bitmaps, visit bitmap.1 bitmap.2 = .ok () := by
  simp only [readBitmapIds, bind_eq_ok (r := leNat invalid 8), remaining_bind, guard_eq_ok]
  constructor
  · rintro ⟨count, middle, hcount, hvalid, hread⟩
    obtain ⟨hplain, hvisits⟩ := readBitmaps_spec.mp hread
    exact ⟨⟨count, middle, hcount, hvalid, hplain⟩, hvisits⟩
  · rintro ⟨⟨count, middle, hcount, hvalid, hplain⟩, hvisits⟩
    exact ⟨count, middle, hcount, hvalid, readBitmaps_spec.mpr ⟨hplain, hvisits⟩⟩

theorem readBitmapIds_ordered (h : readBitmapIds visit next input = .ok (bitmaps, rest)) :
    EntryIds.Ordered ⟨[], bitmaps⟩ := by
  rw [readBitmapIds, bind_eq_ok] at h
  obtain ⟨count, middle, -, hrest⟩ := h
  rw [remaining_bind, guard_eq_ok] at hrest
  obtain ⟨hpairwise, habove⟩ := readBitmaps_increasing hrest.2
  exact ordered_bitmaps hpairwise fun page hmem => (habove page hmem).1

section

variable {visit : Side → Nat → Nat → Nat → Result Unit}

/-- A scan with a visitor is a plain scan in which every bitmap passes the visitor. -/
theorem scanBitmaps_spec :
    scanBitmaps visit bytes = .ok manifest ↔
      scanBitmaps (fun _ _ _ _ => .ok ()) bytes = .ok manifest ∧
        ∀ side, ∀ bitmap ∈ (manifest.pages side).bitmaps,
          visit side bitmap.1 bitmap.2 (manifest.nextRowId side) = .ok () := by
  simp only [scanBitmaps, read_eq_ok, bind_eq_ok, pure_eq_ok]
  constructor
  · rintro ⟨_, _, _, hmagic, ⟨matchable, next⟩, _, hheader, left, _, hleft, right, _,
      hright, hfinish⟩
    obtain ⟨hplain, hvisits⟩ := readBitmapIds_spec.mp hleft
    obtain ⟨hplain', hvisits'⟩ := readBitmapIds_spec.mp hright
    obtain ⟨_, _, hlast, rfl, rfl⟩ := hfinish
    refine ⟨⟨_, _, _, hmagic, ⟨matchable, next⟩, _, hheader, left, _, hplain, right, _, hplain',
      _, _, hlast, rfl, rfl⟩, fun side => ?_⟩
    cases side
    · exact hvisits
    · exact hvisits'
  · rintro ⟨⟨_, _, _, hmagic, ⟨matchable, next⟩, _, hheader, left, _, hleft, right, _, hright,
      hfinish⟩, hvisits⟩
    obtain ⟨_, _, hlast, rfl, rfl⟩ := hfinish
    exact ⟨_, _, _, hmagic, ⟨matchable, next⟩, _, hheader, left, _,
      readBitmapIds_spec.mpr ⟨hleft, hvisits .left⟩, right, _,
      readBitmapIds_spec.mpr ⟨hright, hvisits .right⟩, _, _, hlast, rfl, rfl⟩

theorem scanBitmaps_manifest (h : scanBitmaps visit bytes = .ok manifest) :
    (∀ side, (manifest.pages side).Ordered ∧ (manifest.pages side).explicit = []) ∧
      manifest.inline = none ∧ manifest.layout = .rows := by
  simp only [scanBitmaps, read_eq_ok, bind_eq_ok, pure_eq_ok] at h
  obtain ⟨_, _, _, -, ⟨matchable, next⟩, _, -, left, _, hleft, right, _, hright, _, _, -, rfl, -⟩ :=
    h
  refine ⟨fun side => ?_, rfl, rfl⟩
  cases side
  · exact ⟨readBitmapIds_ordered hleft, rfl⟩
  · exact ⟨readBitmapIds_ordered hright, rfl⟩

end

section

variable (h : decodeManifest bytes = .ok manifest)
include h

theorem decodeManifest_ordered (side : Side) : (manifest.pages side).Ordered := by
  rw [decodeManifest] at h
  split at h
  · exact ((scanBitmaps_manifest h).1 side).1
  · split at h
    · exact (decodeCompact_spec h).1 side
    · obtain ⟨_, hread⟩ := read_eq_ok.mp h
      simp only [bind_eq_ok, pure_eq_ok] at hread
      obtain ⟨_, _, -, _, _, hbase, _, _, -, rfl, -⟩ := hread
      exact (readManifest_spec hbase).1 side

/-- What can be read has passed the check of its memory. -/
theorem manifestWorkspace_of_decodeManifest : manifestWorkspace bytes = .ok () := by
  rw [decodeManifest] at h
  rw [manifestWorkspace]
  split at h
  · rename_i hrows
    rw [if_pos hrows, h]
    rfl
  · rename_i hrows
    rw [if_neg hrows]
    split at h
    · rename_i hcompact
      rw [if_pos hcompact]
      exact (decodeCompact_spec h).2.2
    · rename_i hcompact
      rw [if_neg hcompact]

theorem isManifest_of_decodeManifest : isManifest bytes = true := by
  rw [decodeManifest] at h
  rw [isManifest, Bool.or_eq_true, Bool.or_eq_true]
  split at h
  · rename_i hrows
    exact .inr hrows
  · split at h
    · rename_i hcompact
      exact .inl (.inr hcompact)
    · obtain ⟨_, hread⟩ := read_eq_ok.mp h
      obtain ⟨_, _, hmagic, -⟩ := bind_eq_ok.mp hread
      exact .inl (.inl (magic_eq_ok.mp hmagic).1)

end

/-! ## Visiting a manifest -/

/-- The manifest stands for at least one row. -/
def Manifest.Live (manifest : Manifest) : Prop :=
  match manifest.inline with
  | some rows => ¬ (rows .left = [] ∧ rows .right = [])
  | none => manifest.references ≠ []

variable {side : Side}

theorem mem_references : (side, id) ∈ manifest.references ↔ id ∈ (manifest.pages side).iter := by
  rw [Manifest.references, mem_append]
  cases side <;> simp

theorem visit_references_iff {entry : Side → Nat → Result Unit}
    (hexplicit : ∀ side, (manifest.pages side).explicit = []) :
    (∀ side, ∀ bitmap ∈ (manifest.pages side).bitmaps,
        (expand bitmap.1 bitmap.2).forM (entry side) = .ok ()) ↔
      ∀ reference ∈ manifest.references, entry reference.1 reference.2 = .ok () := by
  have hiter (side : Side) : (manifest.pages side).iter =
      (manifest.pages side).bitmaps.flatMap fun bitmap => expand bitmap.1 bitmap.2 := by
    rw [EntryIds.iter, hexplicit side, nil_append]
  simp only [Except.forM_eq_ok, Prod.forall, mem_references, hiter, mem_flatMap, Prod.exists]
  constructor
  · rintro h side id ⟨page, bits, hmem, hid⟩
    exact h side page bits hmem id hid
  · intro h side page bits hmem id hid
    exact h side id ⟨page, bits, hmem, hid⟩

theorem external_of_none (h : manifest.inline = none) : manifest.external =
    manifest.references := by
  rw [Manifest.external, h]
  rfl

theorem live_of_none (h : manifest.inline = none) : manifest.Live ↔ manifest.references ≠ [] := by
  rw [Manifest.Live, h]

variable {entry : Side → Nat → Nat → Layout → Result Unit}

/-- What is left to do once the manifest has been read. -/
theorem visitExternal_eq_ok : (match manifest.inline with
      | some rows => if rows .left = [] ∧ rows .right = [] then .error invalid else .ok 0
      | none => do
        manifest.references.forM fun reference =>
          entry reference.1 reference.2 (manifest.nextRowId reference.1) manifest.layout
        if manifest.references = [] then .error invalid else .ok manifest.references.length :
      Result Nat) = .ok count ↔
      manifest.Live ∧ (∀ reference ∈ manifest.external,
          entry reference.1 reference.2 (manifest.nextRowId reference.1) manifest.layout = .ok ()) ∧
        count = manifest.external.length := by
  rcases hinline : manifest.inline with _ | rows
  · rw [external_of_none hinline, live_of_none hinline]
    rw [Except.bind_eq_ok]
    constructor
    · rintro ⟨_, hvisits, hlive⟩
      split at hlive
      · cases hlive
      · rename_i hne
        exact ⟨hne, Except.forM_eq_ok.mp hvisits, (Except.ok.inj hlive).symm⟩
    · rintro ⟨hne, hvisits, rfl⟩
      exact ⟨(), Except.forM_eq_ok.mpr hvisits, if_neg hne⟩
  · rw [Manifest.external, Manifest.Live, hinline]
    dsimp only [Option.isSome_some]
    split
    · rename_i hnil
      simp [hnil]
    · rename_i hne
      simp [hne, eq_comm]

/-- The visit succeeds if the manifest is live and so do its entries. -/
theorem visitManifestEntries_eq_ok : visitManifestEntries bytes entry = .ok count ↔
      ∃ manifest, decodeManifest bytes = .ok manifest ∧ manifest.Live ∧
        (∀ reference ∈ manifest.external,
          entry reference.1 reference.2 (manifest.nextRowId reference.1) manifest.layout = .ok ()) ∧
        count = manifest.external.length := by
  rw [visitManifestEntries]
  split
  · rename_i hrows
    rw [decodeManifest, if_pos hrows, Except.bind_eq_ok]
    refine exists_congr fun manifest => ?_
    rw [scanBitmaps_spec, and_assoc]
    refine and_congr_right fun hscan => ?_
    obtain ⟨hsides, hinline, hlayout⟩ := scanBitmaps_manifest hscan
    have hreferences := @visit_references_iff manifest
      (fun side id => entry side id (manifest.nextRowId side) .rows) fun side => (hsides side).2
    rw [hreferences, external_of_none hinline, live_of_none hinline, hlayout]
    constructor
    · rintro ⟨hvisits, hlive⟩
      split at hlive
      · cases hlive
      · rename_i hne
        exact ⟨hne, hvisits, (Except.ok.inj hlive).symm⟩
    · rintro ⟨hne, hvisits, rfl⟩
      exact ⟨hvisits, if_neg hne⟩
  · rw [Except.bind_eq_ok]
    constructor
    · rintro ⟨_, -, htail⟩
      obtain ⟨manifest, hdecode, hvisit⟩ := Except.bind_eq_ok.mp htail
      exact ⟨manifest, hdecode, visitExternal_eq_ok.mp hvisit⟩
    · rintro ⟨manifest, hdecode, hvisit⟩
      exact ⟨(), manifestWorkspace_of_decodeManifest hdecode,
        Except.bind_eq_ok.mpr ⟨manifest, hdecode, visitExternal_eq_ok.mpr hvisit⟩⟩

/-! ## The keys of the records -/

variable {side' : Side}

theorem Side.byte_injective (h : side.byte = side'.byte) : side = side' := by
  cases side <;> cases side' <;> first | rfl | cases h

/-- Two framed keys of a kind are equal only if they frame the same; the length of the whole tells
how long the key is. -/
theorem frame_injective {size size' key key' number number' : Bytes}
    (hsize : size.length = size'.length) (hnumber : number.length = number'.length)
    (h : size ++ (key ++ (side.byte :: number)) = size' ++ (key' ++ (side'.byte :: number'))) :
    key = key' ∧ side = side' ∧ number = number' := by
  have hlength := congrArg List.length h
  simp only [length_append, length_cons] at hlength
  obtain ⟨-, h⟩ := append_inj h hsize
  obtain ⟨hkey, h⟩ := append_inj h (by omega)
  obtain ⟨hside, hnumber⟩ := List.cons.inj h
  exact ⟨hkey, Side.byte_injective hside, hnumber⟩

/-- No two entries share a key. -/
theorem entryKey_injective {key key' : Bytes} {side side' : Side} {id id' : Nat}
    {layout layout' : Layout}
    (hid : id < 2 ^ 64) (hid' : id' < 2 ^ 64)
    (h : entryKey key side id layout = entryKey key' side' id' layout') :
    key = key' ∧ side = side' ∧ id = id' := by
  have hpage : pageKey key side id = pageKey key' side' id' → key = key' ∧
      side = side' ∧ id = id' := by
    intro h
    obtain ⟨hkey, hside, hnumber⟩ := frame_injective (by simp) (by simp) (List.cons.inj h).2
    exact ⟨hkey, hside, leBytes_injective hid hid' hnumber⟩
  have hrow : rowKey key side id = rowKey key' side' id' → key = key' ∧
      side = side' ∧ id = id' := by
    intro h
    obtain ⟨hkey, hside, hnumber⟩ := frame_injective (by simp) (by simp) (List.cons.inj h).2
    exact ⟨hkey, hside, leBytes_injective hid hid' (reverse_injective hnumber)⟩
  cases layout <;> cases layout' <;> simp only [entryKey] at h
  all_goals first
    | exact hpage h
    | exact hrow h
    | cases (List.cons.inj h).1

theorem entryKey_ne_manifestKey (key key' : Bytes) (side : Side) (id : Nat) (layout : Layout) :
    entryKey key side id layout ≠ manifestKey key' := by
  intro h
  cases layout <;> cases (List.cons.inj h).1

end StreamFusion.RegularJoin
