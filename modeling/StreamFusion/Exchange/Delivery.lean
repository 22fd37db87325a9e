import StreamFusion.Exchange.BinaryRow.Keys

/-!
# What the hash exchange delivers

A batch is routable if it is small enough to be indexed, its key columns exist and every row has a
key. Both ways of cutting such a batch into frames deliver the same rows: a channel receives exactly
the rows whose key group belongs to it, in the order of the batch.  With generated keys the rows
come with their keys, unless the keys together exceed what an Arrow Binary column can hold; such a
batch is refused.
-/

namespace StreamFusion.Exchange

open Wire KeyGroupBatch Except List UInt32

variable {C F : Type}

/-- A batch whose rows have keys. -/
structure Routable (E : RowEncoder C F) (batch : RecordBatch C) (fields : List (Nat × KeyField F)) :
    Prop where
  size : batch.rows.length ≤ 2 ^ 32
  columns : ∀ field ∈ fields, field.1 < batch.numColumns
  preencoded : ∀ column, preencodedColumn fields = some column →
    fields.length = 1 ∧ batch.binary[column]? = some true
  keys : ∀ row ∈ batch.rows, ∃ key, routingKey E fields row = .ok key

/-- The key group of a row; zero for a row without a key. -/
def groupOf (E : RowEncoder C F) (fields : List (Nat × KeyField F)) (maxParallelism : UInt32)
    (row : List C) : UInt32 :=
  match (do assignKeyGroup (← routingKey E fields row) maxParallelism : Except _ _) with
  | .ok keyGroup => keyGroup
  | .error _ => 0

/-- The channel of a row. -/
def channelOf (E : RowEncoder C F) (fields : List (Nat × KeyField F))
    (maxParallelism parallelism : UInt32) (row : List C) : UInt32 :=
  destinationOf maxParallelism parallelism (groupOf E fields maxParallelism row)

/-- Every channel gets what is sent of its rows, in the order of the batch. -/
abbrev Delivers (E : RowEncoder C F) (batch : RecordBatch C) (fields : List (Nat × KeyField F))
    (maxParallelism parallelism : UInt32) (sent : List C → List C)
    (result : Except ExchangeError (List (RoutedFrame C))) : Prop :=
  ∃ frames, result = .ok frames ∧
    (∀ frame ∈ frames, ∃ channel,
      selectChannel maxParallelism parallelism frame.keyGroup = .ok channel) ∧
    ∀ channel, delivered maxParallelism parallelism frames channel = (batch.rows.filter fun row =>
      channelOf E fields maxParallelism parallelism row = channel).map sent

variable {E : RowEncoder C F} {batch : RecordBatch C} {fields : List (Nat × KeyField F)}
  {maxParallelism parallelism : UInt32} {row : List C}

section Rows

variable {key : Bytes}

theorem words_routingKey (h : routingKey E fields row = .ok key) : key.length % 4 = 0 := by
  unfold routingKey at h
  split at h
  · split at h
    · cases h
    · split at h
      · cases h
        assumption
      · cases h
  · exact E.words h

theorem groupOf_eq (hpos : 0 < maxParallelism) (hmax : maxParallelism ≤ 32768)
    (h : routingKey E fields row = .ok key) :
    assignKeyGroup key maxParallelism = .ok (groupOf E fields maxParallelism row) ∧
      groupOf E fields maxParallelism row < maxParallelism := by
  obtain ⟨keyGroup, hgroup, hlt⟩ := assignKeyGroup_ok (words_routingKey h) hpos hmax
  have heq : groupOf E fields maxParallelism row = keyGroup := by
    rw [groupOf, h, ok_bind, hgroup]
  rw [heq]
  exact ⟨hgroup, hlt⟩

theorem checkRouting_ok (h : Routable E batch fields) : checkRouting batch fields = .ok () := by
  have hsize := h.size
  have hcolumns : ¬ (fields.any fun field => decide (field.1 ≥ batch.numColumns)) = true := by
    rw [any_eq_true]
    rintro ⟨field, hfield, hout⟩
    have := h.columns field hfield
    simp at hout
    omega
  rw [checkRouting, if_neg (by omega), if_neg hcolumns]
  split
  · rename_i column hcolumn
    obtain ⟨hlength, hbinary⟩ := h.preencoded column hcolumn
    rw [if_neg (by simpa using hlength), if_neg (by simpa using hbinary)]
  · rfl

theorem visitKeyGroups_ok (hpos : 0 < maxParallelism) (hmax : maxParallelism ≤ 32768)
    (h : Routable E batch fields) :
    visitKeyGroups E batch fields maxParallelism = .ok (batch.rows.zipIdx.map fun entry =>
        (UInt32.ofNat entry.2, groupOf E fields maxParallelism entry.1)) := by
  rw [visitKeyGroups, checkRouting_ok h, ok_bind]
  refine mapM_of_ok fun entry hentry => ?_
  obtain ⟨key, hkey⟩ := h.keys entry.1 (fst_mem_of_mem_zipIdx hentry)
  rw [hkey, ok_bind, (groupOf_eq hpos hmax hkey).1]
  rfl

end Rows

/-! ## Rows of a channel -/

variable {columns : Nat} {rows : List (List C)}

section Channel

/-- The rows of the visits are grouped by channel. -/
theorem foldlM_pushRow (geometry : Geometry maxParallelism parallelism)
    {visits : List (UInt32 × UInt32)} (hvisits : ∀ visit ∈ visits, visit.2 < maxParallelism)
    {rows : List (List UInt32)} (hlength : rows.length = parallelism.toNat) :
    ∃ rows', visits.foldlM (pushRow maxParallelism parallelism) rows = .ok rows' ∧
      rows'.length = parallelism.toNat ∧
      ∀ d, rows'[d]? = rows[d]?.map fun before => before ++ (visits.filter fun visit =>
          (destinationOf maxParallelism parallelism visit.2).toNat = d).map Prod.fst := by
  induction visits generalizing rows with
  | nil => exact ⟨rows, rfl, hlength, by simp⟩
  | cons visit visits ih =>
    obtain ⟨hvisit, hrest⟩ := forall_mem_cons.mp hvisits
    have hlt : (destinationOf maxParallelism parallelism visit.2).toNat < rows.length := by
      rw [hlength]
      exact lt_iff_toNat_lt.mp (geometry.destinationOf_lt hvisit)
    have hpush : pushRow maxParallelism parallelism rows visit =
        .ok (rows.modify (destinationOf maxParallelism parallelism visit.2).toNat
          (· ++ [visit.1])) := if_pos hlt
    have hnext : (rows.modify (destinationOf maxParallelism parallelism visit.2).toNat
        (· ++ [visit.1])).length = parallelism.toNat := by rw [length_modify, hlength]
    obtain ⟨rows', hfold, hlength', hget⟩ := ih hrest hnext
    refine ⟨rows', ?_, hlength', fun d => ?_⟩
    · rw [foldlM_cons, hpush, ok_bind, hfold]
    · rw [hget, List.getElem?_modify, Option.map_eq_map, Option.map_map]
      by_cases hd : (destinationOf maxParallelism parallelism visit.2).toNat = d
      · rw [filter_cons_of_pos (by simpa using hd)]
        congr 1
        funext before
        simp [hd]
      · rw [filter_cons_of_neg (by simpa using hd)]
        congr 1
        funext before
        simp [hd]

/-- The rows at the positions of some entries of the batch. -/
theorem materializeProjected_ok (hcolumns : columns ≤ batch.numColumns)
    (hsize : batch.rows.length ≤ 2 ^ 32)
    (destination : UInt32) {entries : List (List C × Nat)}
    (hentries : ∀ entry ∈ entries, batch.rows[entry.2]? = some entry.1) :
    RoutedBatch.materializeProjected batch
        ⟨destination, entries.map fun entry => UInt32.ofNat entry.2⟩ columns =
      .ok (entries.map fun entry => entry.1.take columns) := by
  have hindex : ∀ entry ∈ entries, (UInt32.ofNat entry.2).toNat = entry.2 := by
    intro entry hentry
    have hlt := (List.getElem?_eq_some_iff.mp (hentries entry hentry)).1
    exact toNat_ofNat_of_lt' (Nat.lt_of_lt_of_le hlt hsize)
  have hproject : project batch columns = .ok (batch.rows.map fun row => row.take columns) :=
    if_neg (by omega)
  have hget : ∀ entry ∈ entries, (batch.rows.map fun row => row.take columns)[entry.2]? =
      some (entry.1.take columns) := by
    intro entry hentry
    rw [List.getElem?_map, hentries entry hentry]
    rfl
  rw [RoutedBatch.materializeProjected, hproject, ok_bind]
  obtain ⟨projected, hprojected⟩ :
    ∃ projected, (batch.rows.map fun row => row.take columns) = projected := ⟨_, rfl⟩
  rw [hprojected] at hget ⊢
  dsimp only
  split
  · rename_i hnil
    rw [map_eq_nil_iff.mp hnil]
    rfl
  · rename_i first tail hfirst
    split_ifs with hslice
    · -- consecutive positions: the slice and the gathered rows agree position by position
      obtain ⟨hstart, hfits, hall⟩ := hslice
      refine congrArg ok (ext_getElem? fun k => ?_)
      rw [length_map] at hfits ⊢
      rw [List.getElem?_take, List.getElem?_drop, List.getElem?_map]
      by_cases hk : k < entries.length
      · have hentry := getElem_mem hk
        have hposition : entries[k].2 = first.toNat + k := by
          have hmem : (UInt32.ofNat entries[k].2, k) ∈
              (entries.map fun entry => UInt32.ofNat entry.2).zipIdx := by
            rw [mk_mem_zipIdx_iff_getElem?, List.getElem?_map, List.getElem?_eq_getElem hk]
            rfl
          have := all_eq_true.mp hall _ hmem
          rw [decide_eq_true_eq, hindex _ hentry] at this
          exact this
        rw [if_pos hk, ← hposition, hget _ hentry, List.getElem?_eq_getElem hk]
        rfl
      · rw [if_neg hk, List.getElem?_eq_none (by omega)]
        rfl
    · rw [mapM_map]
      refine mapM_of_ok fun entry hentry => ?_
      rw [Function.comp_apply, hindex entry hentry, hget entry hentry]

/-- Lists that are filtered for content and then looked up by position. -/
theorem flatMap_zipIdx_filter {α β : Type} (lists : List (List α)) (pick : List α → List β)
    (hnil : pick [] = []) (offset c : Nat) :
    ((lists.zipIdx offset).filter fun entry => !entry.1.isEmpty).flatMap (fun entry =>
        if entry.2 = c then pick entry.1 else []) =
      if offset ≤ c then ((lists[c - offset]?).map pick).getD [] else [] := by
  induction lists generalizing offset with
  | nil => simp
  | cons list lists ih =>
    have hhead : ((([(list, offset)] : List (List α × Nat)).filter fun entry =>
        !entry.1.isEmpty).flatMap fun entry => if entry.2 = c then pick entry.1 else []) =
        if offset = c then pick list else [] := by
      cases list with
      | nil => simp [hnil]
      | cons a list => simp
    rw [zipIdx_cons, ← singleton_append, filter_append, flatMap_append, hhead, ih]
    rcases Nat.lt_trichotomy offset c with hlt | rfl | hgt
    · obtain ⟨k, hk⟩ : ∃ k, c - offset = k + 1 := ⟨c - offset - 1, by omega⟩
      rw [if_neg (by omega), if_pos (by omega), if_pos (by omega), hk, List.getElem?_cons_succ,
        show c - (offset + 1) = k by omega]
      rfl
    · simp
    · rw [if_neg (by omega), if_neg (by omega), if_neg (by omega)]
      rfl

/-- The rows of a channel and their positions. -/
def channelEntries (E : RowEncoder C F) (fields : List (Nat × KeyField F))
    (maxParallelism parallelism : UInt32) (rows : List (List C)) (channel : Nat) :
    List (List C × Nat) :=
  rows.zipIdx.filter fun entry =>
    (channelOf E fields maxParallelism parallelism entry.1).toNat = channel

theorem getElem?_of_mem_channelEntries {channel : Nat} {entry : List C × Nat}
    (h : entry ∈ channelEntries E fields maxParallelism parallelism rows channel) :
    rows[entry.2]? = some entry.1 :=
  mem_zipIdx_iff_getElem?.mp (mem_of_mem_filter h)

theorem map_fst_channelEntries (rows : List (List C)) (channel : Nat) :
    (channelEntries E fields maxParallelism parallelism rows channel).map Prod.fst =
        rows.filter fun row =>
        (channelOf E fields maxParallelism parallelism row).toNat = channel := by
  conv_rhs => rw [← zipIdx_map_fst 0 rows, filter_map]
  rfl

/-- The rows at the given positions, cut to the transported columns. -/
def gather (rows : List (List C)) (columns : Nat) (positions : List UInt32) : List (List C) :=
  positions.map fun position => ((rows[position.toNat]?).getD []).take columns

theorem gather_channelEntries (hsize : rows.length ≤ 2 ^ 32) (columns : Nat) (channel : Nat) :
    gather rows columns ((channelEntries E fields maxParallelism parallelism rows channel).map
        fun entry => UInt32.ofNat entry.2) =
      (channelEntries E fields maxParallelism parallelism rows channel).map
        fun entry => entry.1.take columns := by
  rw [gather, map_map]
  refine map_congr_left fun entry hentry => ?_
  have hget := getElem?_of_mem_channelEntries hentry
  have hlt := (List.getElem?_eq_some_iff.mp hget).1
  rw [Function.comp_apply, toNat_ofNat_of_lt' (Nat.lt_of_lt_of_le hlt hsize), hget]
  rfl

/-- Framing by channel delivers every row once. -/
theorem frame_by_channel (geometry : Geometry maxParallelism parallelism)
    (h : Routable E batch fields) (hcolumns : columns ≤ batch.numColumns) :
    Delivers E batch fields maxParallelism parallelism (·.take columns)
      (frameHashExchangeBatch E batch fields maxParallelism parallelism false columns) := by
  have hmaxpos : 0 < maxParallelism := UInt32.lt_of_lt_of_le geometry.pos geometry.le
  have hvisits := visitKeyGroups_ok hmaxpos geometry.max h
  have hgroups : ∀ visit ∈ batch.rows.zipIdx.map (fun entry =>
      (UInt32.ofNat entry.2, groupOf E fields maxParallelism entry.1)),
          visit.2 < maxParallelism := by
    intro visit hvisit
    obtain ⟨entry, hentry, rfl⟩ := mem_map.mp hvisit
    obtain ⟨key, hkey⟩ := h.keys entry.1 (fst_mem_of_mem_zipIdx hentry)
    exact (groupOf_eq hmaxpos geometry.max hkey).2
  obtain ⟨lists, hfold, hlength, hlists⟩ := foldlM_pushRow geometry hgroups
    (length_replicate : (List.replicate parallelism.toNat ([] : List UInt32)).length = _)
  obtain ⟨entriesOf, hentriesOf⟩ : ∃ entriesOf,
    channelEntries E fields maxParallelism parallelism batch.rows = entriesOf := ⟨_, rfl⟩
  have hcontent : ∀ d < parallelism.toNat,
      lists[d]? = some ((entriesOf d).map fun entry => UInt32.ofNat entry.2) := by
    intro d hd
    rw [hlists, List.getElem?_replicate, if_pos hd, filter_map, map_map, ← hentriesOf]
    rfl
  have hentries : ∀ d, ∀ entry ∈ entriesOf d, batch.rows[entry.2]? = some entry.1 := by
    rw [← hentriesOf]
    exact fun d entry hentry => getElem?_of_mem_channelEntries hentry
  have hpick : ∀ d,
    gather batch.rows columns ((entriesOf d).map fun entry => UInt32.ofNat entry.2) =
      (entriesOf d).map fun entry => entry.1.take columns := by
    rw [← hentriesOf]
    exact gather_channelEntries h.size columns
  have hmember : ∀ entry ∈ lists.zipIdx, entry.2 < parallelism.toNat ∧
      entry.1 = (entriesOf entry.2).map fun row => UInt32.ofNat row.2 := by
    intro entry hentry
    have hget := mem_zipIdx_iff_getElem?.mp hentry
    have hlt : entry.2 < parallelism.toNat := hlength ▸ (List.getElem?_eq_some_iff.mp hget).1
    exact ⟨hlt, Option.some.inj (hget.symm.trans (hcontent entry.2 hlt))⟩
  have hchannel : ∀ entry ∈ lists.zipIdx, selectChannel maxParallelism parallelism
      (channelTag maxParallelism parallelism (UInt32.ofNat entry.2)) =
          .ok (UInt32.ofNat entry.2) := by
    intro entry hentry
    refine geometry.selectChannel_channelTag ?_
    have hlt := (hmember entry hentry).1
    rw [lt_iff_toNat_lt, toNat_ofNat_of_lt' (hlt.trans parallelism.toNat_lt)]
    exact hlt
  have hroute : routeBatch E batch fields maxParallelism parallelism =
      .ok ((lists.zipIdx.filter fun entry => !entry.1.isEmpty).map fun entry =>
        ⟨UInt32.ofNat entry.2, entry.1⟩) := by
    rw [routeBatch, if_neg geometry.not_refused, routingRows, hvisits, ok_bind, hfold]
    rfl
  have hframes : frameHashExchangeBatch E batch fields maxParallelism parallelism false columns =
      .ok ((lists.zipIdx.filter fun entry => !entry.1.isEmpty).map fun entry =>
        ⟨channelTag maxParallelism parallelism (UInt32.ofNat entry.2),
            gather batch.rows columns entry.1⟩) := by
    rw [frameHashExchangeBatch, if_neg Bool.false_ne_true, hroute, ok_bind, mapM_map]
    refine mapM_of_ok fun entry hentry => ?_
    obtain ⟨-, hrows⟩ := hmember entry (mem_of_mem_filter hentry)
    rw [Function.comp_apply, hrows,
      materializeProjected_ok hcolumns h.size _ (hentries entry.2), hpick]
    rfl
  refine ⟨_, hframes, ?_, fun channel => ?_⟩
  · intro frame hframe
    obtain ⟨entry, hentry, rfl⟩ := mem_map.mp hframe
    exact ⟨_, hchannel entry (mem_of_mem_filter hentry)⟩
  · have hselect : delivered maxParallelism parallelism
        ((lists.zipIdx.filter fun entry => !entry.1.isEmpty).map fun entry =>
          ⟨channelTag maxParallelism parallelism (UInt32.ofNat entry.2),
            gather batch.rows columns entry.1⟩) channel =
        (lists.zipIdx.filter fun entry => !entry.1.isEmpty).flatMap fun entry =>
          if entry.2 = channel.toNat then gather batch.rows columns entry.1 else [] := by
      rw [delivered, flatMap_map]
      refine flatMap_congr fun entry hentry => ?_
      have hmem := mem_of_mem_filter hentry
      have hlt := (hmember entry hmem).1
      have hiff : UInt32.ofNat entry.2 = channel ↔ entry.2 = channel.toNat := by
        rw [← UInt32.toNat_inj, UInt32.toNat_ofNat_of_lt' (hlt.trans parallelism.toNat_lt)]
      simp only [hchannel entry hmem, ok.injEq, hiff]
    rw [hselect, flatMap_zipIdx_filter lists (gather batch.rows columns) rfl,
      if_pos (Nat.zero_le _), Nat.sub_zero]
    have hfilter : (batch.rows.filter fun row =>
        channelOf E fields maxParallelism parallelism row = channel) =
        batch.rows.filter fun row =>
          (channelOf E fields maxParallelism parallelism row).toNat = channel.toNat := by
      simp only [UInt32.toNat_inj]
    rw [hfilter, ← map_fst_channelEntries, map_map, hentriesOf]
    by_cases hc : channel.toNat < parallelism.toNat
    · rw [hcontent _ hc, Option.map_some, Option.getD_some, hpick]
      rfl
    · rw [List.getElem?_eq_none (by omega), ← hentriesOf]
      -- no row belongs to a channel that does not exist
      refine Eq.symm (map_eq_nil_iff.mpr (filter_eq_nil_iff.mpr fun entry hentry hin => ?_))
      obtain ⟨key, hkey⟩ := h.keys entry.1 (fst_mem_of_mem_zipIdx hentry)
      have hlt := lt_iff_toNat_lt.mp
        (geometry.destinationOf_lt (groupOf_eq hmaxpos geometry.max hkey).2)
      rw [decide_eq_true_eq, channelOf] at hin
      omega

end Channel

/-! ## Runs of a key group -/

section Runs

/-- The rows of a run. -/
def KeyGroupBatch.slice (rows : List (List C)) (run : KeyGroupBatch) : List (List C) :=
  (rows.drop run.start).take run.len

/-- The runs cut the first `k` rows into pieces of one key group each. -/
structure Cuts (rows : List (List C)) (group : List C → UInt32) (k : Nat)
    (runs : List KeyGroupBatch) : Prop where
  covers : runs.flatMap (slice rows) = rows.take k
  last : ∀ run ∈ runs.getLast?, run.start + run.len = k
  groups : ∀ run ∈ runs, ∀ row ∈ run.slice rows, group row = run.keyGroup
  nonempty : ∀ run ∈ runs, run.slice rows ≠ []

variable {group : List C → UInt32} {k : Nat} {runs : List KeyGroupBatch}

/-- A row with another key group starts a run. -/
theorem Cuts.push (h : Cuts rows group k runs) (hk : k < rows.length) :
    Cuts rows group (k + 1) (runs ++ [⟨group rows[k], k, 1⟩]) := by
  have hslice : slice rows ⟨group rows[k], k, 1⟩ = [rows[k]] := by
    rw [slice, drop_eq_getElem_cons hk]
    rfl
  constructor
  · rw [flatMap_append, h.covers, flatMap_singleton, hslice, take_append_getElem hk]
  · intro run hrun
    rw [List.getLast?_concat] at hrun
    cases hrun
    rfl
  · intro run hrun row hrow
    rcases mem_append.mp hrun with hrun | hrun
    · exact h.groups run hrun row hrow
    · cases mem_singleton.mp hrun
      rw [hslice] at hrow
      rw [mem_singleton.mp hrow]
  · intro run hrun
    rcases mem_append.mp hrun with hrun | hrun
    · exact h.nonempty run hrun
    · cases mem_singleton.mp hrun
      rw [hslice]
      exact cons_ne_nil _ _

/-- The last run goes on. -/
theorem Cuts.extend {last : KeyGroupBatch} (h : Cuts rows group k (runs ++ [last]))
    (hk : k < rows.length) (hgroup : last.keyGroup = group rows[k]) :
    Cuts rows group (k + 1) (runs ++ [{ last with len := last.len + 1 }]) := by
  have hend : last.start + last.len = k := h.last last (by rw [List.getLast?_concat]; rfl)
  have hslice : slice rows { last with len := last.len + 1 } = last.slice rows ++ [rows[k]] := by
    rw [slice, slice]
    rw [take_add_one, List.getElem?_drop, hend, List.getElem?_eq_getElem hk]
    rfl
  have hcovers := h.covers
  rw [flatMap_append, flatMap_singleton] at hcovers
  constructor
  · rw [flatMap_append, flatMap_singleton, hslice, ← append_assoc, hcovers, take_append_getElem hk]
  · intro run hrun
    rw [List.getLast?_concat] at hrun
    cases hrun
    dsimp only
    omega
  · intro run hrun row hrow
    rcases mem_append.mp hrun with hrun | hrun
    · exact h.groups run (mem_append_left _ hrun) row hrow
    · cases mem_singleton.mp hrun
      rw [hslice] at hrow
      rcases mem_append.mp hrow with hrow | hrow
      · exact h.groups last (mem_append_right _ (mem_singleton_self _)) row hrow
      · rw [mem_singleton.mp hrow]
        exact hgroup.symm
  · intro run hrun
    rcases mem_append.mp hrun with hrun | hrun
    · exact h.nonempty run (mem_append_left _ hrun)
    · cases mem_singleton.mp hrun
      rw [hslice]
      exact append_ne_nil_of_right_ne_nil _ (cons_ne_nil _ _)

/-- A row starts a run or extends the last one. -/
theorem Cuts.pushRun (h : Cuts rows group k runs) (hk : k < rows.length)
    (hsize : rows.length ≤ 2 ^ 32) :
    Cuts rows group (k + 1) (pushRun runs (UInt32.ofNat k, group rows[k])) := by
  have hindex : (UInt32.ofNat k).toNat = k :=
    toNat_ofNat_of_lt' (Nat.lt_of_lt_of_le hk hsize)
  unfold Exchange.pushRun
  rcases eq_nil_or_concat runs with rfl | ⟨init, last, rfl⟩
  · rw [List.getLast?_nil]
    rw [hindex]
    exact h.push hk
  · rw [concat_eq_append] at h ⊢
    rw [List.getLast?_concat]
    dsimp only
    split_ifs with hsame
    · rw [dropLast_concat]
      exact h.extend hk hsame
    · rw [hindex]
      exact h.push hk

/-- The runs cut the rows where the key group changes. -/
theorem cuts_foldl (hsize : rows.length ≤ 2 ^ 32) (rest : List (List C)) :
    ∀ k runs, rows.drop k = rest → Cuts rows group k runs →
      ∃ k' ≥ rows.length, Cuts rows group k' (((rest.zipIdx k).map fun entry =>
        (UInt32.ofNat entry.2, group entry.1)).foldl Exchange.pushRun runs) := by
  induction rest with
  | nil =>
    intro k runs hrest h
    exact ⟨k, drop_eq_nil_iff.mp hrest, h⟩
  | cons row rest ih =>
    intro k runs hrest h
    have hk : k < rows.length := by
      by_contra hge
      rw [drop_eq_nil_of_le (by omega)] at hrest
      cases hrest
    rw [drop_eq_getElem_cons hk] at hrest
    obtain ⟨hrow, htail⟩ := List.cons.inj hrest
    rw [zipIdx_cons, map_cons, foldl_cons, ← hrow]
    exact ih (k + 1) _ htail (h.pushRun hk hsize)

theorem cuts_nil : Cuts rows group 0 [] := ⟨rfl, by simp, by simp, by simp⟩

/-- Pieces that satisfy a condition on their key group as a whole. -/
theorem flatMap_slice_filter (p : UInt32 → Bool) (h : Cuts rows group k runs)
    (hk : k ≥ rows.length) :
    (runs.flatMap fun run => if p run.keyGroup then run.slice rows else []) =
      rows.filter fun row => p (group row) := by
  have hrows : rows = runs.flatMap (slice rows) := by
    rw [h.covers, take_of_length_le hk]
  conv_rhs => rw [hrows, filter_flatMap]
  refine flatMap_congr fun run hrun => ?_
  have hgroups := h.groups run hrun
  split_ifs with hp
  · refine (filter_eq_self.mpr fun row hrow => ?_).symm
    rw [hgroups row hrow, hp]
  · refine (filter_eq_nil_iff.mpr fun row hrow => ?_).symm
    rw [hgroups row hrow]
    exact hp

/-- Framing by key group delivers every row once. -/
theorem frame_by_key_group (geometry : Geometry maxParallelism parallelism)
    (h : Routable E batch fields) (hcolumns : columns ≤ batch.numColumns) :
    Delivers E batch fields maxParallelism parallelism (·.take columns)
      (frameHashExchangeBatch E batch fields maxParallelism parallelism true columns) := by
  have hmaxpos : 0 < maxParallelism := UInt32.lt_of_lt_of_le geometry.pos geometry.le
  obtain ⟨runs, hruns⟩ : ∃ runs, (batch.rows.zipIdx.map fun entry =>
      (UInt32.ofNat entry.2, groupOf E fields maxParallelism entry.1)).foldl
        Exchange.pushRun [] = runs := ⟨_, rfl⟩
  obtain ⟨k, hk, hcuts⟩ := cuts_foldl h.size batch.rows 0 [] rfl
    (cuts_nil : Cuts batch.rows (groupOf E fields maxParallelism) 0 [])
  rw [hruns] at hcuts
  have hvalid : ¬ (maxParallelism = 0 ∨ maxParallelism > 32768) := by
    rintro (hzero | hgt)
    · exact absurd hmaxpos (by rw [hzero]; decide)
    · exact UInt32.not_le.mpr hgt geometry.max
  have hroute : routeBatchByKeyGroup E batch fields maxParallelism = .ok runs := by
    rw [routeBatchByKeyGroup, if_neg hvalid, visitKeyGroups_ok hmaxpos geometry.max h, ← hruns]
    rfl
  have hframes : frameHashExchangeBatch E batch fields maxParallelism parallelism true columns =
      .ok (runs.map fun run => ⟨run.keyGroup, (run.slice batch.rows).map (·.take columns)⟩) := by
    rw [frameHashExchangeBatch, if_pos rfl, hroute, ok_bind]
    refine mapM_of_ok fun run _ => ?_
    have hproject : project batch columns = .ok (batch.rows.map fun row => row.take columns) :=
      if_neg (by omega)
    rw [materializeProjected, hproject, slice, map_take, map_drop]
    rfl
  -- the key group of a run is that of its rows
  have hgroup : ∀ run ∈ runs, run.keyGroup < maxParallelism := by
    intro run hrun
    obtain ⟨row, hrow⟩ := exists_mem_of_ne_nil _ (hcuts.nonempty run hrun)
    have hmem : row ∈ batch.rows := mem_of_mem_drop (mem_of_mem_take hrow)
    obtain ⟨key, hkey⟩ := h.keys row hmem
    rw [← hcuts.groups run hrun row hrow]
    exact (groupOf_eq hmaxpos geometry.max hkey).2
  have hselect : ∀ run ∈ runs, selectChannel maxParallelism parallelism run.keyGroup =
      .ok (destinationOf maxParallelism parallelism run.keyGroup) :=
    fun run hrun => if_pos (hgroup run hrun)
  refine ⟨_, hframes, ?_, fun channel => ?_⟩
  · intro frame hframe
    obtain ⟨run, hrun, rfl⟩ := mem_map.mp hframe
    exact ⟨_, hselect run hrun⟩
  · rw [← show _ = batch.rows.filter fun row =>
        channelOf E fields maxParallelism parallelism row = channel from
      flatMap_slice_filter (fun keyGroup =>
        destinationOf maxParallelism parallelism keyGroup = channel) hcuts hk,
      delivered, flatMap_map, map_flatMap]
    refine flatMap_congr fun run hrun => ?_
    rw [hselect run hrun]
    simp only [ok.injEq, decide_eq_true_eq]
    split_ifs <;> rfl

end Runs

/-! ## Generated keys -/

section Generated

/-- The key of a row; empty for a row without a key. -/
def keyOf (E : RowEncoder C F) (fields : List (Nat × KeyField F)) (row : List C) : Bytes :=
  match routingKey E fields row with
  | .ok key => key
  | .error _ => []

section

variable (h : Routable E batch fields)
include h

theorem routingKey_eq (hrow : row ∈ batch.rows) :
    routingKey E fields row = .ok (keyOf E fields row) := by
  obtain ⟨key, hkey⟩ := h.keys row hrow
  rw [keyOf, hkey]

/-- The encoder writes the key that routing reads. -/
theorem encodeBinaryRow_eq (hrow : row ∈ batch.rows) :
    encodeBinaryRow E batch fields row = .ok (keyOf E fields row) := by
  have hkey := routingKey_eq h hrow
  unfold routingKey at hkey
  unfold encodeBinaryRow
  rcases hcolumn : preencodedColumn fields with _ | column
  · rw [hcolumn] at hkey
    exact hkey
  · rw [hcolumn] at hkey
    obtain ⟨hlength, hbinary⟩ := h.preencoded column hcolumn
    dsimp only at hkey ⊢
    rw [if_neg (by simpa using hlength)]
    split at hkey
    · cases hkey
    · split_ifs at hkey
      cases hkey
      rw [if_pos hbinary]

/-- The size of the keys of all rows. -/
def keyBytes (E : RowEncoder C F) (fields : List (Nat × KeyField F)) (rows : List (List C)) : Nat :=
  (rows.map fun row => (keyOf E fields row).length).sum

/-- Keys are generated as long as they fit into one column. -/
theorem generateKeys_eq (hrows : ∀ row ∈ rows, row ∈ batch.rows) (written : Nat)
    (hwritten : written + keyBytes E fields rows ≤ 2147483647) :
    generateKeys E batch fields written rows = .ok (rows.map (keyOf E fields)) := by
  induction rows generalizing written with
  | nil => rfl
  | cons row rows ih =>
    obtain ⟨hrow, hrest⟩ := forall_mem_cons.mp hrows
    rw [keyBytes, map_cons, sum_cons] at hwritten
    have hsum : (rows.map fun row => (keyOf E fields row).length).sum =
      keyBytes E fields rows := rfl
    rw [generateKeys, encodeBinaryRow_eq h hrow, ok_bind, if_neg (by omega), ih hrest _ (by omega)]
    rfl

end

theorem rows_withKeys (keys : List C → Bytes) : (withKeys E batch (batch.rows.map keys)).rows =
      batch.rows.map fun row => row ++ [E.ofBinary (keys row)] := by
  show batch.rows.zipWith (fun row key => row ++ [E.ofBinary key]) (batch.rows.map keys) = _
  rw [zipWith_map_right, zipWith_self]

section

variable (h : Routable E batch fields)
include h

theorem routingKey_withKey (hrow : row ∈ batch.rows) :
    routingKey E [(batch.numColumns, (.preencodedBinaryRow : KeyField F))]
        (row ++ [E.ofBinary (keyOf E fields row)]) = .ok (keyOf E fields row) := by
  have hwidth : row.length = batch.numColumns := batch.width row hrow
  have hcell : (row ++ [E.ofBinary (keyOf E fields row)])[batch.numColumns]? =
      some (E.ofBinary (keyOf E fields row)) := by
    rw [← hwidth, List.getElem?_append_right (Nat.le_refl _), Nat.sub_self]
    rfl
  have hcolumn : preencodedColumn [(batch.numColumns, (.preencodedBinaryRow : KeyField F))] =
      some batch.numColumns := rfl
  unfold routingKey
  rw [hcolumn]
  dsimp only
  rw [hcell, Option.bind_some, E.binaryValue_ofBinary]
  exact if_pos (words_routingKey (routingKey_eq h hrow))

/-- A batch with generated keys can be routed. -/
theorem routable_withKeys :
    Routable E (withKeys E batch (batch.rows.map (keyOf E fields)))
      [(batch.numColumns, (.preencodedBinaryRow : KeyField F))] where
  size := by
    rw [rows_withKeys, length_map]
    exact h.size
  columns := by
    intro field hfield
    rw [mem_singleton.mp hfield]
    show batch.binary.length < (batch.binary ++ [true]).length
    simp
  preencoded := by
    intro column hcolumn
    cases hcolumn
    refine ⟨rfl, ?_⟩
    show (batch.binary ++ [true])[batch.binary.length]? = some true
    simp
  keys := by
    intro row hrow
    rw [rows_withKeys] at hrow
    obtain ⟨inner, hinner, rfl⟩ := mem_map.mp hrow
    exact ⟨_, routingKey_withKey h hinner⟩

theorem channelOf_withKey (hrow : row ∈ batch.rows) :
    channelOf E [(batch.numColumns, (.preencodedBinaryRow : KeyField F))] maxParallelism parallelism
        (row ++ [E.ofBinary (keyOf E fields row)]) =
      channelOf E fields maxParallelism parallelism row := by
  rw [channelOf, channelOf, groupOf, groupOf, routingKey_withKey h hrow, routingKey_eq h hrow]

end

end Generated

/-! ## All ways of routing -/

section Plan

variable {plan : NativeExchangePlan}

/-- Frames are delivered whichever way the batch is cut. -/
theorem frame_delivers (geometry : Geometry plan.maxParallelism plan.parallelism)
    (h : Routable E batch fields) (hschema : plan.schemaFields = some columns)
    (hcolumns : plan.transportColumnCount columns ≤ batch.numColumns) :
    Delivers E batch fields plan.maxParallelism plan.parallelism
      (·.take (plan.transportColumnCount columns))
      (plan.frame E batch fields) := by
  rw [NativeExchangePlan.frame, hschema]
  cases plan.preserveKeyGroups with
  | false => exact frame_by_channel geometry h hcolumns
  | true => exact frame_by_key_group geometry h hcolumns

/-- What is sent of a row. -/
def transported (E : RowEncoder C F) (fields : List (Nat × KeyField F)) (plan : NativeExchangePlan)
    (columns : Nat) (row : List C) : List C :=
  (if plan.generated then row ++ [E.ofBinary (keyOf E fields row)] else row).take
    (plan.transportColumnCount columns)

/-- Every way of routing a routable batch delivers the same rows: a channel receives the rows of its
key groups in the order of the batch, with the columns that are to be sent.  The tag of a channel is
its least key group and is mapped back to it, and no product overflows. -/
theorem hash_exchange_delivers (E : RowEncoder C F) (plan : NativeExchangePlan)
    (batch : RecordBatch C) (fields : List (Nat × KeyField F))
    (geometry : Geometry plan.maxParallelism plan.parallelism) (h : Routable E batch fields)
    (columns : Nat) (hschema : plan.schemaFields = some columns) (husize : columns ≤ isizeMax)
    (hplain : plan.generated = false → plan.transportColumnCount columns ≤ batch.numColumns)
    (hgenerated : plan.generated = true →
      columns = batch.numColumns ∧ keyBytes E fields batch.rows ≤ 2147483647) :
    (∃ frames, plan.routeRecordBatch E batch fields = .ok frames ∧ (∀ frame ∈ frames, ∃ channel,
        selectChannel plan.maxParallelism plan.parallelism frame.keyGroup = .ok channel) ∧
      ∀ channel, delivered plan.maxParallelism plan.parallelism frames channel =
          (batch.rows.filter fun row =>
            channelOf E fields plan.maxParallelism plan.parallelism row = channel).map
              (transported E fields plan columns) ∧
        (delivered plan.maxParallelism plan.parallelism frames channel).map (·.take columns) =
          (batch.rows.filter fun row =>
            channelOf E fields plan.maxParallelism plan.parallelism row = channel).map
              (·.take columns)) ∧
    (∀ row ∈ batch.rows,
      channelOf E fields plan.maxParallelism plan.parallelism row < plan.parallelism ∧
      (channelOf E fields plan.maxParallelism plan.parallelism row).toNat =
        (groupOf E fields plan.maxParallelism row).toNat * plan.parallelism.toNat /
          plan.maxParallelism.toNat) ∧
    (∀ channel < plan.parallelism, selectChannel plan.maxParallelism plan.parallelism
          (channelTag plan.maxParallelism plan.parallelism channel) = .ok channel ∧
        channel.toNat * plan.maxParallelism.toNat + (plan.parallelism.toNat - 1) < 2 ^ 32) ∧
    ∀ keyGroup < plan.maxParallelism, channelTag plan.maxParallelism plan.parallelism
          (destinationOf plan.maxParallelism plan.parallelism keyGroup) ≤ keyGroup ∧
        keyGroup.toNat * plan.parallelism.toNat < 2 ^ 32 := by
  have hmaxpos : 0 < plan.maxParallelism := UInt32.lt_of_lt_of_le geometry.pos geometry.le
  have hcount : columns ≤ plan.transportColumnCount columns := by
    unfold NativeExchangePlan.transportColumnCount Wire.saturatingAdd usizeLimit
    unfold isizeMax at husize
    split <;> omega
  refine ⟨?_, fun row hrow => ?_, fun channel hchannel => ?_, fun keyGroup hkey => ?_⟩
  · -- with the columns that are sent, the columns of the schema are the same in all modes
    suffices hsent : Delivers E batch fields plan.maxParallelism plan.parallelism
        (transported E fields plan columns) (plan.routeRecordBatch E batch fields) by
      obtain ⟨frames, hframes, htags, hdelivered⟩ := hsent
      refine ⟨frames, hframes, htags, fun channel => ⟨hdelivered channel, ?_⟩⟩
      rw [hdelivered, map_map]
      refine map_congr_left fun row hrow => ?_
      rw [Function.comp_apply, transported, take_take, Nat.min_eq_left hcount]
      split_ifs with hmode
      · have hwidth := batch.width row (mem_of_mem_filter hrow)
        rw [take_append_of_le_length]
        rw [hwidth, (hgenerated hmode).1]
        exact Nat.le_refl _
      · rfl
    unfold NativeExchangePlan.routeRecordBatch transported
    rcases hmode : plan.generated with _ | _
    · exact frame_delivers geometry h hschema (hplain hmode)
    · obtain ⟨hcolumns, hbytes⟩ := hgenerated hmode
      have hkeys := generateKeys_eq h (fun row hrow => hrow) 0 (by omega)
      have hwidth : (withKeys E batch (batch.rows.map (keyOf E fields))).numColumns =
          batch.numColumns + 1 := by
        show (batch.binary ++ [true]).length = batch.binary.length + 1
        simp
      have hfits : plan.transportColumnCount columns ≤
          (withKeys E batch (batch.rows.map (keyOf E fields))).numColumns := by
        rw [hwidth, ← hcolumns]
        unfold NativeExchangePlan.transportColumnCount Wire.saturatingAdd
        split <;> omega
      obtain ⟨frames, hframes, htags, hdelivered⟩ :=
        frame_delivers geometry (routable_withKeys h) hschema hfits
      refine ⟨frames, ?_, htags, fun channel => ?_⟩
      · rw [if_pos rfl, if_neg (by rw [hschema, hcolumns]; simp), hkeys]
        exact hframes
      · rw [hdelivered, rows_withKeys, filter_map, map_map]
        have hfilter : batch.rows.filter ((fun row => decide (channelOf E
            [(batch.numColumns, (.preencodedBinaryRow : KeyField F))] plan.maxParallelism
            plan.parallelism row = channel)) ∘ fun row =>
              row ++ [E.ofBinary (keyOf E fields row)]) =
            batch.rows.filter fun row =>
              channelOf E fields plan.maxParallelism plan.parallelism row = channel := by
          refine filter_congr fun row hrow => ?_
          rw [Function.comp_apply, channelOf_withKey h hrow]
        rw [hfilter]
        rfl
  · have hlt := (groupOf_eq hmaxpos geometry.max (routingKey_eq h hrow)).2
    exact ⟨geometry.destinationOf_lt hlt, geometry.toNat_destinationOf hlt⟩
  · exact ⟨geometry.selectChannel_channelTag hchannel, geometry.sum_lt hchannel⟩
  · exact ⟨geometry.channelTag_le hkey, geometry.product_lt hkey⟩

/-! ### Rows of one string -/

/-- A row of one string. -/
def stringRow (s : Bytes) : List BinaryRow.Column := [⟨.utf8, .bytes s, rfl⟩]

/-- A batch of such rows. -/
def stringRows (strings : List Bytes) : RecordBatch BinaryRow.Column :=
  ⟨[false], strings.map stringRow, by simp [stringRow]⟩

/-- The string is the key. -/
def stringField : List (Nat × KeyField BinaryRow.KeyField) := [(0, .plain .string)]

/-- An exchange of rows of one column. -/
def exchangePlan (transportRoutingKey : Bool) (parallelism : UInt32) (preserveKeyGroups : Bool) :
    NativeExchangePlan :=
  ⟨some 1, transportRoutingKey, some none, 128, parallelism, preserveKeyGroups⟩

theorem encode_stringRow (s : Bytes) : BinaryRow.binaryRowEncoder.encode
    [(0, .string)] (stringRow s) =
    .ok (BinaryRow.rowBytes [some (BinaryRow.scalarCell (.bytes s))]) :=
  BinaryRow.encodeBinaryRowInto_eq _ _

theorem routable_stringRows (strings : List Bytes) (hsize : strings.length ≤ 2 ^ 32) :
    Routable BinaryRow.binaryRowEncoder (stringRows strings) stringField where
  size := by
    show (strings.map stringRow).length ≤ 2 ^ 32
    rwa [length_map]
  columns := by simp [stringField, stringRows, RecordBatch.numColumns]
  preencoded := by simp [stringField, preencodedColumn]
  keys row hrow := by
    obtain ⟨s, -, rfl⟩ := mem_map.mp hrow
    exact ⟨_, encode_stringRow s⟩

/-- Three rows for two channels, by key groups with generated keys and by channels without: both
ways the first and the third row arrive at channel 1, in this order, and the second at channel 0. -/
theorem hash_exchange_delivers_three_rows :
    let batch := stringRows [[97, 98, 99, 100, 101, 102, 103, 104], [105], [109]]
    (∃ frames, (exchangePlan true 4 true).routeRecordBatch BinaryRow.binaryRowEncoder
      batch stringField =
        .ok frames ∧
      (delivered 128 4 frames 0).map (·.take 1) = [stringRow [105]] ∧
      (delivered 128 4 frames 1).map (·.take 1) =
        [stringRow [97, 98, 99, 100, 101, 102, 103, 104], stringRow [109]]) ∧
    ∃ frames, (exchangePlan false 4 false).routeRecordBatch BinaryRow.binaryRowEncoder
      batch stringField =
        .ok frames ∧
      delivered 128 4 frames 0 = [stringRow [105]] ∧
      delivered 128 4 frames 1 =
        [stringRow [97, 98, 99, 100, 101, 102, 103, 104], stringRow [109]] := by
  intro batch
  have hroutable : Routable BinaryRow.binaryRowEncoder batch stringField :=
    routable_stringRows _ (by decide)
  obtain ⟨⟨frames, hframes, -, hdelivered⟩, -⟩ :=
    hash_exchange_delivers BinaryRow.binaryRowEncoder (exchangePlan true 4 true) batch stringField
      ⟨by decide, by decide, by decide⟩ hroutable 1 rfl (by decide) (fun h => by cases h)
      (fun _ => ⟨rfl, by decide +kernel⟩)
  obtain ⟨⟨frames', hframes', -, hdelivered'⟩, -⟩ :=
    hash_exchange_delivers BinaryRow.binaryRowEncoder (exchangePlan false 4 false) batch stringField
      ⟨by decide, by decide, by decide⟩ hroutable 1 rfl (by decide) (fun _ => Nat.le_refl 1)
      (fun h => by cases h)
  have hfirst : channelOf BinaryRow.binaryRowEncoder stringField 128 4
      (stringRow [97, 98, 99, 100, 101, 102, 103, 104]) = 1 := by decide +kernel
  have hsecond : channelOf BinaryRow.binaryRowEncoder stringField 128 4 (stringRow [105]) = 0 := by
    decide +kernel
  have hthird : channelOf BinaryRow.binaryRowEncoder stringField 128 4 (stringRow [109]) = 1 := by
    decide +kernel
  have hzero : batch.rows.filter (fun row =>
      channelOf BinaryRow.binaryRowEncoder stringField 128 4 row = 0) = [stringRow [105]] := by
    simp [batch, stringRows, hfirst, hsecond, hthird]
  have hone : batch.rows.filter (fun row =>
      channelOf BinaryRow.binaryRowEncoder stringField 128 4 row = 1) =
        [stringRow [97, 98, 99, 100, 101, 102, 103, 104], stringRow [109]] := by
    simp [batch, stringRows, hfirst, hsecond, hthird]
  exact ⟨⟨frames, hframes, (hdelivered 0).2.trans (congrArg _ hzero),
      (hdelivered 1).2.trans (congrArg _ hone)⟩,
    frames', hframes', (hdelivered' 0).1.trans (congrArg _ hzero),
      (hdelivered' 1).1.trans (congrArg _ hone)⟩

/-- Keys beyond the offsets of a column are refused. -/
theorem generateKeys_long {s : Bytes} (h : 2147483632 ≤ s.length) :
    generateKeys BinaryRow.binaryRowEncoder (stringRows [s]) stringField 0 (stringRows [s]).rows =
      .error (.resourcesExhausted "native routing keys exceed Arrow Binary offset capacity") := by
  have hkey : encodeBinaryRow BinaryRow.binaryRowEncoder (stringRows [s])
    stringField (stringRow s) =
      .ok (BinaryRow.rowBytes [some (BinaryRow.scalarCell (.bytes s))]) := encode_stringRow s
  have hlong : (BinaryRow.rowBytes [some (BinaryRow.scalarCell (.bytes s))]).length =
      16 + (BinaryRow.padded s).length := by
    have hcells : BinaryRow.fieldCells (stringRow s) [(0, .string)] =
        .ok [some (BinaryRow.scalarCell (.bytes s))] := rfl
    have hfixed : SlotLayout.fixedSize (BinaryRow.rowMask 1) 8 1 = 16 := by decide
    rw [BinaryRow.rowBytes, SlotLayout.length_containerBytes (BinaryRow.fieldCells_ok hcells).2,
      BinaryRow.scalarCell_bytes_long (by omega), SlotLayout.vars, SlotLayout.vars, append_nil]
    exact congrArg (· + _) hfixed
  have hle := BinaryRow.length_le_padded s
  show (do
    let key ← encodeBinaryRow BinaryRow.binaryRowEncoder (stringRows [s]) stringField (stringRow s)
    if 0 + key.length > 2147483647 then _ else _) = _
  rw [hkey]
  exact if_pos (by omega)

/-- A string of almost two gibibytes is a value of an Arrow column.  Its row is delivered without a
generated key and refused with one. -/
theorem hash_exchange_refuses_long_keys :
    (exchangePlan true 4 true).routeRecordBatch BinaryRow.binaryRowEncoder
        (stringRows [List.replicate 2147483640 0]) stringField =
      .error (.resourcesExhausted "native routing keys exceed Arrow Binary offset capacity") ∧
    ∃ frames channel, (exchangePlan false 4 false).routeRecordBatch BinaryRow.binaryRowEncoder
        (stringRows [List.replicate 2147483640 0]) stringField = .ok frames ∧
      delivered 128 4 frames channel = [stringRow (List.replicate 2147483640 0)] := by
  have hlength : 2147483632 ≤ (List.replicate 2147483640 (0 : UInt8)).length := by
    rw [length_replicate]
    norm_num
  obtain ⟨s, hs⟩ : ∃ s, List.replicate 2147483640 (0 : UInt8) = s := ⟨_, rfl⟩
  rw [hs] at hlength ⊢
  have hgeometry : Geometry (exchangePlan false 4 false).maxParallelism
      (exchangePlan false 4 false).parallelism := ⟨by decide, by decide, by decide⟩
  obtain ⟨frames, hframes, -, hdelivered⟩ :=
    frame_delivers hgeometry (routable_stringRows [s] (by simp)) rfl (Nat.le_refl 1)
  refine ⟨?_, frames, channelOf BinaryRow.binaryRowEncoder stringField 128 4 (stringRow s), hframes,
    ?_⟩
  · show (do
      let keys ← generateKeys BinaryRow.binaryRowEncoder (stringRows [s]) stringField 0
        (stringRows [s]).rows
      (exchangePlan true 4 true).frame BinaryRow.binaryRowEncoder
        (withKeys BinaryRow.binaryRowEncoder (stringRows [s]) keys)
        [((stringRows [s]).numColumns, .preencodedBinaryRow)]) = _
    rw [generateKeys_long hlength]
    rfl
  · refine (hdelivered _).trans ?_
    show ([stringRow s].filter fun row =>
      channelOf BinaryRow.binaryRowEncoder stringField 128 4 row =
        channelOf BinaryRow.binaryRowEncoder stringField 128 4 (stringRow s)).map (·.take 1) = _
    simp [stringRow]

end Plan

end StreamFusion.Exchange
