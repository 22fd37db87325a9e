import StreamFusion.TopN.Insertion

/-!
# Selection by priorities and by a running minimum

What the two kernels of the fast paths compute.  The candidates of a batch are the loaded ones and
the ones its rows will be, and no two of them are the same row (`nodup_positions`).

* `Selection.Ordered.retain_eq`: the candidates of one partition are ordered by rank, and a list in
  the order of the rank is determined by its elements; so sorting their positions in the order of
  all candidates is sorting them.
* `winners_getD`: a row has the least priority seen of its partition exactly if its sort key is in
  front of everything seen, because ties go to what was seen first.
-/

namespace StreamFusion.TopN

open List GroupWork CandidateRef Ranked

open Changelog (Kind)

/-! ## Loaded candidates -/

theorem restoredRows_cons (partition : StoredPartition) (partitions : List StoredPartition) :
    restoredRows (partition :: partitions) = partition.rows.map Prod.snd ++
        restoredRows partitions :=
  flatMap_cons

theorem restore_positions (offset : Nat) (partitions : List StoredPartition) :
    ((restore offset partitions).flatMap candidates).map position =
      (List.range' offset (restoredRows partitions).length).map (Prod.mk 1) := by
  induction partitions generalizing offset with
  | nil => rfl
  | cons partition partitions ih =>
    have hhead : (partition.rows.zipIdx offset |>.map fun x =>
        (⟨1, x.2, x.1.1, .insert⟩ : CandidateRef)).map position =
          (List.range' offset partition.rows.length).map (Prod.mk 1) := by
      rw [map_map, ← zipIdx_map_snd offset partition.rows, map_map]
      rfl
    rw [restore, flatMap_cons, map_append, ih, hhead, restoredRows_cons,
      length_append, length_map, ← List.range'_append_1, map_append]

variable {partitions : List StoredPartition} {partition : StoredPartition} {group : GroupWork}

/-- What a loaded partition has of its stored one. -/
theorem mem_restore (above : List Row)
    (h : (partition, group) ∈ partitions.zip (restore above.length partitions)) :
    group.nextSequence = partition.nextSequence ∧
      (∀ c ∈ group.candidates, c.source = 1 ∧ c.row < (above ++ restoredRows partitions).length) ∧
      group.candidates.map (fun c => (c.sequence, (above ++ restoredRows partitions).getD c.row []))
        = partition.rows := by
  induction partitions generalizing above with
  | nil => exact absurd h not_mem_nil
  | cons first partitions ih =>
    have hrows : above ++ restoredRows (first :: partitions) =
        (above ++ first.rows.map Prod.snd) ++ restoredRows partitions := by
      rw [restoredRows_cons, append_assoc]
    rw [restore, zip_cons_cons] at h
    rcases mem_cons.mp h with h | h
    · cases h
      refine ⟨rfl, ?_, ?_⟩
      · intro c hc
        obtain ⟨⟨entry, row⟩, hentry, rfl⟩ := mem_map.mp hc
        have hbound := snd_lt_add_of_mem_zipIdx hentry
        refine ⟨rfl, ?_⟩
        rw [hrows, length_append, length_append, length_map]
        show row < _
        omega
      · rw [map_map]
        refine (map_congr_left fun x hx => ?_).trans (zipIdx_map_fst above.length _)
        obtain ⟨⟨sequence, entry⟩, row⟩ := x
        obtain ⟨hle, hget⟩ := mk_mem_zipIdx_iff_le_and_getElem?_sub.mp hx
        have hlt := (List.getElem?_eq_some_iff.mp hget).1
        show (sequence, (above ++ restoredRows (partition :: partitions)).getD row []) = _
        rw [hrows, getD_eq_getElem?_getD, List.getElem?_append_left (by simp; omega),
          List.getElem?_append_right hle, List.getElem?_map, hget]
        rfl
    · have hlength : above.length + first.rows.length =
          (above ++ first.rows.map Prod.snd).length := by simp
      rw [hlength] at h
      obtain ⟨hnext, hsource, hmap⟩ := ih _ h
      rw [hrows]
      exact ⟨hnext, hsource, hmap⟩

theorem length_restore (offset : Nat) (partitions : List StoredPartition) :
    (restore offset partitions).length = partitions.length := by
  induction partitions generalizing offset with
  | nil => rfl
  | cons partition partitions ih => rw [restore, length_cons, ih, length_cons]

variable {K : Type} [LinearOrder K]

/-- **The stored partitions of an append-only plan**: rows with different sequences below the next
one, no more of them than the rank range keeps, and in the order of sort key and sequence unless an
older format stored them. -/
structure AppendFastPartition (encode : Row → K) (plan : Plan)
    (partition : StoredPartition) : Prop where
  sorted : partition.indexed = true →
    partition.rows.Pairwise fun a b => toLex (encode a.2, a.1) < toLex (encode b.2, b.1)
  sequences : (partition.rows.map Prod.fst).Nodup
  below : ∀ entry ∈ partition.rows, entry.1 < partition.nextSequence
  bounded : ∀ stop ∈ plan.rankEnd, partition.rows.length ≤ stop

/-- The encoded sort keys of the rows of a batch. -/
def encodedKeys (encode : Row → K) (inputs : List InputRow) (partitions : List StoredPartition) :
    Nat → Nat → K :=
  fun source row => encode (sourceRow inputs partitions source row)

/-! ## Arriving candidates -/

variable {row : Nat} {inputs : List InputRow}

theorem arrivals_positions {sequences : List Nat}
    {arriving : List CandidateRef} (h : arrivals row inputs sequences = .ok arriving) :
    arriving.map position = (List.range' row inputs.length).map (Prod.mk 0) := by
  induction inputs generalizing row sequences arriving with
  | nil =>
    cases h
    rfl
  | cons input inputs ih =>
    rw [arrivals] at h
    obtain ⟨next, _, h⟩ := Except.bind_eq_ok.mp h
    obtain ⟨rest, hrest, h⟩ := Except.bind_eq_ok.mp h
    cases h
    rw [map_cons, ih hrest, length_cons, List.range'_succ, map_cons]
    rfl

/-- The loaded and the arriving candidates have different positions. -/
theorem nodup_positions {sequences : List Nat} {arriving : List CandidateRef}
    (partitions : List StoredPartition) (h : arrivals 0 inputs sequences = .ok arriving) :
    (((restore 0 partitions).flatMap candidates ++ arriving).map position).Nodup := by
  rw [map_append, restore_positions, arrivals_positions h]
  refine List.Nodup.append ?_ ?_ ?_
  · exact List.Nodup.map (Prod.mk_right_injective 1) nodup_range'
  · exact List.Nodup.map (Prod.mk_right_injective 0) nodup_range'
  · intro position hone hzero
    obtain ⟨_, _, rfl⟩ := mem_map.mp hone
    obtain ⟨_, _, heq⟩ := mem_map.mp hzero
    exact absurd (congrArg Prod.fst heq) Nat.zero_ne_one

/-! ## Selection by priorities -/

/-- A selection lists candidates with different positions in the order of their ranks. -/
structure Selection.Ordered (orders : Nat → Nat → K) (selection : Selection) : Prop where
  positions : (selection.candidates.map position).Nodup
  sorted : selection.candidates.Pairwise fun a b => rank orders a ≤ rank orders b
  priorities : selection.priorities = table (selection.candidates.map position)

section Priorities

variable (kernels : Kernels) (orders : Nat → Nat → K)

theorem sortTokens_perm (tokens : List CandidateRef) :
    (Selection.sortTokens kernels orders tokens).Perm tokens := by
  obtain ⟨sorted, hperm, _, hsort⟩ := kernels.sortBatch_spec (fun token : CandidateRef × Nat =>
      toLex (orders token.1.source token.1.row, toLex (token.1.sequence, token.2)))
    tokens.zipIdx none
  rw [Selection.sortTokens, hsort]
  have := hperm.map Prod.fst
  rwa [zipIdx_map_fst] at this

/-- The sorted tokens are in the order of their ranks. -/
theorem sortTokens_sorted (tokens : List CandidateRef) :
    (Selection.sortTokens kernels orders tokens).Pairwise fun a b =>
        rank orders a ≤ rank orders b := by
  obtain ⟨sorted, _, hsorted, hsort⟩ := kernels.sortBatch_spec (fun token : CandidateRef × Nat =>
      toLex (orders token.1.source token.1.row, toLex (token.1.sequence, token.2)))
    tokens.zipIdx none
  rw [Selection.sortTokens, hsort]
  refine pairwise_map.mpr (hsorted.imp fun {a b} hab => ?_)
  -- the token is the last column, so forgetting it keeps the order
  rw [Prod.Lex.toLex_le_toLex] at hab
  unfold rank
  rw [Prod.Lex.toLex_le_toLex]
  rcases hab with hlt | ⟨heq, hle⟩
  · exact Or.inl hlt
  · rw [Prod.Lex.toLex_le_toLex] at hle
    rcases hle with hlt | ⟨hsequence, _⟩
    · exact Or.inr ⟨heq, hlt.le⟩
    · exact Or.inr ⟨heq, hsequence.le⟩

variable {orders} {selection : Selection} (hselection : selection.Ordered orders)

include hselection

theorem Selection.Ordered.getElem_priority {c : CandidateRef} (hc : c ∈ selection.candidates) :
    ∃ h : selection.priorities c.position < selection.candidates.length,
      selection.candidates[selection.priorities c.position] = c := by
  obtain ⟨i, hi, rfl⟩ := getElem_of_mem hc
  have hi' : i < (selection.candidates.map position).length := by
    rwa [length_map]
  have htable := table_getElem hselection.positions hi'
  rw [getElem_map] at htable
  have hpriority : selection.priorities selection.candidates[i].position = i := by
    rw [hselection.priorities, htable]
  refine ⟨by rw [hpriority]; exact hi, ?_⟩
  simp only [hpriority]

/-- **Retaining by priorities** is retaining in the order of the ranks. -/
theorem Selection.Ordered.retain_eq {l l' : List CandidateRef}
    (hl : ∀ c ∈ l', c ∈ selection.candidates)
    (hsorted : l'.Pairwise fun a b => rank orders a < rank orders b) (hperm : l'.Perm l)
    (limit : Nat) : selection.retain kernels l limit = l'.take limit := by
  obtain ⟨sorted, hsortedPerm, hpriorities, hsort⟩ := kernels.sortBatch_spec id
    (l.map fun c => selection.priorities c.position) (some limit)
  have hread : sorted.map (fun priority =>
      selection.candidates.getD priority ⟨0, 0, 0, .insert⟩) = l' :=
    map_sorted_index hselection.sorted (fun c hc => hselection.getElem_priority (hl c hc))
      (fun i hi => by rw [getD_eq_getElem?_getD, List.getElem?_eq_getElem hi]; rfl)
      hsorted hperm hpriorities hsortedPerm
  rw [Selection.retain, hsort]
  show (sorted.take limit).map _ = _
  rw [map_take, hread]

/-- Keeping the best gives the sorted insertion. -/
theorem Selection.Ordered.insert_eq {limit : Nat}
    (hgroup : Partition orders limit group) {candidate : CandidateRef}
    (hcandidate : candidate.sequence = group.nextSequence)
    (hmem : candidate ∈ selection.candidates)
    (hsubset : ∀ c ∈ group.candidates, c ∈ selection.candidates) :
    selection.insert kernels group.candidates candidate limit =
      inserted orders limit group.candidates candidate := by
  have hperm := insertAt_perm group.candidates
    (place (rank orders) group.candidates candidate) candidate
  refine hselection.retain_eq kernels ?_ (insertAt_sorted hgroup.sorted (hgroup.rank_ne hcandidate))
    (hperm.trans (perm_append_singleton _ _).symm) limit
  intro c hc
  rcases mem_cons.mp (hperm.mem_iff.mp hc) with rfl | hc
  · exact hmem
  · exact hsubset c hc

end Priorities

/-! ## Partitions before the first row -/

section Loaded

variable {kernels : Kernels} {plan : Plan} {sources : CandidateSources K} {orders : Nat → Nat → K}
  {candidates : List CandidateRef}

/-- The sort by sort key and sequence is strict where the sequences differ. -/
theorem insertionSort_sorted (h : (candidates.map sequence).Nodup) :
    (candidates.insertionSort fun a b => rank orders a ≤ rank orders b).Pairwise fun a b =>
      rank orders a < rank orders b := by
  have : Std.Total fun a b => rank orders a ≤ rank orders b := ⟨fun a b => le_total _ _⟩
  have : IsTrans _ fun a b => rank orders a ≤ rank orders b := ⟨fun _ _ _ hab hbc => hab.trans hbc⟩
  have hnodup := ((perm_insertionSort (fun a b => rank orders a ≤ rank orders b) candidates).map
    sequence).nodup_iff.mpr h
  refine ((pairwise_insertionSort _ candidates).and (pairwise_map.mp hnodup)).imp fun {a b} hab =>
    ?_
  exact lt_of_le_of_ne hab.1 fun heq => hab.2 (congrArg (fun r => (ofLex r).2) heq)

variable (hlimit : isAppendLimit plan = false)

include hlimit

theorem nextSequence_loadGroup (selection : Option Selection) :
    (loadGroup kernels plan sources selection partition group).nextSequence =
        group.nextSequence := by
  rw [loadGroup, hlimit, if_neg Bool.false_ne_true]
  split <;> rfl

theorem map_nextSequence_loadGroups (selection : Option Selection)
    (partitions : List StoredPartition) :
    (loadGroups kernels plan sources selection partitions).map GroupWork.nextSequence =
      (restore 0 partitions).map GroupWork.nextSequence := by
  have hlength : (restore 0 partitions).length ≤ partitions.length :=
    (length_restore 0 partitions).le
  have hsnd : (partitions.zip (restore 0 partitions)).map Prod.snd = restore 0 partitions :=
    map_snd_zip hlength
  rw [loadGroups, map_map]
  nth_rw 2 [← hsnd]
  rw [map_map]
  refine map_congr_left fun entry _ => ?_
  exact nextSequence_loadGroup hlimit selection

/-- Partitions under sortable keys are loaded as they are stored. -/
theorem loadGroups_indexed (h : ∀ partition ∈ partitions, partition.indexed = true) :
    loadGroups kernels plan sources none partitions = restore 0 partitions := by
  have hsnd : (partitions.zip (restore 0 partitions)).map Prod.snd = restore 0 partitions :=
    map_snd_zip (length_restore 0 partitions).le
  refine Eq.trans (map_congr_left fun entry hentry => ?_) hsnd
  rw [loadGroup, hlimit, if_neg Bool.false_ne_true, if_pos (h _ (of_mem_zip hentry).1)]

variable (horders : sources.orders = some orders)

include horders

theorem loadGroup_eq : loadGroup kernels plan sources none partition group =
    if partition.indexed then group
    else { group with candidates :=
      group.candidates.insertionSort fun a b => rank orders a ≤ rank orders b } := by
  unfold loadGroup reorder
  rw [hlimit, if_neg Bool.false_ne_true, horders]
  rfl

theorem candidates_loadGroup_perm :
    (loadGroup kernels plan sources none partition group).candidates.Perm group.candidates := by
  rw [loadGroup_eq hlimit horders]
  split
  · exact Perm.refl _
  · exact perm_insertionSort _ _

/-- The selection orders the candidates of an older format as the sort does. -/
theorem loadGroups_selection {selection : Selection} (hselection : selection.Ordered orders)
    (hsequences : ∀ entry ∈ partitions.zip (restore 0 partitions),
      (entry.2.candidates.map sequence).Nodup)
    (hpresent : ∀ group ∈ restore 0 partitions, ∀ c ∈ group.candidates, c ∈ selection.candidates) :
    loadGroups kernels plan sources (some selection) partitions =
      loadGroups kernels plan sources none partitions := by
  refine map_congr_left fun entry hentry => ?_
  obtain ⟨partition, group⟩ := entry
  have hgroup : group ∈ restore 0 partitions := (of_mem_zip hentry).2
  rw [loadGroup_eq hlimit horders]
  unfold loadGroup reorder
  rw [hlimit, if_neg Bool.false_ne_true, horders]
  split
  · rfl
  · have hperm := perm_insertionSort (fun a b => rank orders a ≤ rank orders b) group.candidates
    have hretain :=
      hselection.retain_eq kernels (fun c hc => hpresent group hgroup c (hperm.mem_iff.mp hc))
      (insertionSort_sorted (hsequences _ hentry)) hperm group.candidates.length
    dsimp only
    rw [hretain, take_of_length_le hperm.length_eq.le]

end Loaded

section Stored

variable {kernels : Kernels} {plan : Plan} {sources : CandidateSources K} {encode : Row → K}
  {inputs : List InputRow}

theorem sequences_restore
    (hstored : ∀ partition ∈ partitions, AppendFastPartition encode plan partition)
    (h : (partition, group) ∈ partitions.zip (restore 0 partitions)) :
    (group.candidates.map sequence).Nodup := by
  obtain ⟨-, -, hmap⟩ := mem_restore [] h
  have hsequences := (hstored partition (of_mem_zip h).1).sequences
  rw [← hmap, map_map] at hsequences
  exact hsequences

/-- **The loaded partitions are in order.** -/
theorem partition_of_stored {stop : Nat} (hlimit : isAppendLimit plan = false)
    (horders : sources.orders = some (encodedKeys encode inputs partitions))
    (hstop : plan.rankEnd = some stop)
    (hstored : ∀ partition ∈ partitions, AppendFastPartition encode plan partition)
    (h : group ∈ loadGroups kernels plan sources none partitions) :
    Partition (encodedKeys encode inputs partitions) stop group := by
  obtain ⟨⟨partition, loaded⟩, hzip, rfl⟩ := mem_map.mp h
  obtain ⟨hnext, hsource, hmap⟩ := mem_restore [] hzip
  rw [nil_append] at hmap
  have hp := hstored partition (of_mem_zip hzip).1
  have hperm :
      (loadGroup kernels plan sources none partition loaded).candidates.Perm loaded.candidates :=
    candidates_loadGroup_perm hlimit horders
  have hlength : partition.rows.length = loaded.candidates.length := by
    rw [← hmap, length_map]
  refine ⟨?_, ?_, ?_, ?_⟩
  · rw [loadGroup_eq hlimit horders]
    split
    · next hindexed =>
      have hsorted := hp.sorted hindexed
      rw [← hmap, pairwise_map] at hsorted
      refine hsorted.imp_of_mem fun {a b} ha hb hab => ?_
      unfold rank encodedKeys
      rw [(hsource a ha).1, (hsource b hb).1]
      exact hab
    · exact insertionSort_sorted (sequences_restore hstored hzip)
  · exact (hperm.map sequence).nodup_iff.mpr (sequences_restore hstored hzip)
  · intro c hc
    rw [nextSequence_loadGroup hlimit, hnext]
    have hmem := mem_map_of_mem
      (f := fun c : CandidateRef => (c.sequence, (restoredRows partitions).getD c.row []))
      (hperm.mem_iff.mp hc)
    rw [hmap] at hmem
    exact hp.below _ hmem
  · rw [hperm.length_eq, ← hlength]
    exact hp.bounded stop hstop

end Stored

/-! ## The running minimum -/

section Minimum

variable (kernels : Kernels) (orders : Nat → Nat → K)

/-- The order of the tokens: sort key, then token. -/
def tokenRank (tokens : List (Nat × Nat)) (token : Nat) : K ×ₗ Nat :=
  toLex (orders (tokens.getD token (0, 0)).1 (tokens.getD token (0, 0)).2, token)

/-- Priorities are in the order of the ranks. -/
theorem tokenPriority_le_iff {tokens : List (Nat × Nat)} {a b : Nat} (ha : a < tokens.length)
    (hb : b < tokens.length) :
    tokenPriority kernels orders tokens a ≤ tokenPriority kernels orders tokens b ↔
      tokenRank orders tokens a ≤ tokenRank orders tokens b := by
  obtain ⟨sorted, hperm, hsorted, hsort⟩ := kernels.sortBatch_spec
    (fun token : (Nat × Nat) × Nat => toLex (orders token.1.1 token.1.2, token.2))
    tokens.zipIdx none
  have hrange : (sorted.map Prod.snd).Perm (List.range tokens.length) := by
    have := hperm.map Prod.snd
    rwa [zipIdx_map_snd, ← range_eq_range'] at this
  have hnodup : (sorted.map Prod.snd).Nodup := hrange.nodup_iff.mpr nodup_range
  -- the columns of a sorted entry are the rank of its token
  have hcolumns : ∀ entry ∈ sorted,
      toLex (orders entry.1.1 entry.1.2, entry.2) = tokenRank orders tokens entry.2 := by
    rintro ⟨position, token⟩ hentry
    have hget := mem_zipIdx_iff_getElem?.mp (hperm.mem_iff.mp hentry)
    unfold tokenRank
    rw [getD_eq_getElem?_getD, hget]
    rfl
  have hstrict : (sorted.map Prod.snd).Pairwise fun s t =>
      tokenRank orders tokens s < tokenRank orders tokens t := by
    refine pairwise_map.mpr ?_
    refine (hsorted.and (pairwise_map.mp hnodup)).imp_of_mem fun {s t} hs ht hst => ?_
    have hle := hst.1
    rw [hcolumns s hs, hcolumns t ht] at hle
    exact lt_of_le_of_ne hle fun heq => hst.2 (congrArg (fun r => (ofLex r).2) heq)
  have hmem : ∀ t < tokens.length, t ∈ sorted.map Prod.snd := fun t ht =>
    hrange.mem_iff.mpr (mem_range.mpr ht)
  have := table_le_table_iff hstrict (hmem a ha) (hmem b hb)
  rwa [tokenPriority, hsort]

/-- A later token has the lower priority only if its key is lower. -/
theorem tokenPriority_le_iff_of_lt {tokens : List (Nat × Nat)} {p q : Nat × Nat} {a b : Nat}
    (ha : tokens[a]? = some p) (hb : tokens[b]? = some q) (hlt : b < a) :
    tokenPriority kernels orders tokens a ≤ tokenPriority kernels orders tokens b ↔
      orders p.1 p.2 < orders q.1 q.2 := by
  have hrank : ∀ {t r}, tokens[t]? = some r →
      tokenRank orders tokens t = toLex (orders r.1 r.2, t) := by
    intro t r ht
    rw [tokenRank, getD_eq_getElem?_getD, ht]
    rfl
  rw [tokenPriority_le_iff kernels orders (List.getElem?_eq_some_iff.mp ha).1
    (List.getElem?_eq_some_iff.mp hb).1, hrank ha, hrank hb, Prod.Lex.toLex_le_toLex]
  refine ⟨fun h => h.resolve_right fun heq => ?_, Or.inl⟩
  exact absurd heq.2 (not_le.mpr hlt)

/-- The token of the kept row of a partition. -/
theorem priorTokens_getD (token : Nat) (groups : List GroupWork) (g : Nat) :
    ((groups.getD g empty).candidates = [] ∧ (priorTokens token groups).getD g none = none) ∨
    ∃ c rest j, (groups.getD g empty).candidates = c :: rest ∧
      (priorTokens token groups).getD g none = some (token + j) ∧
      (groups.filterMap keptPosition)[j]? = some c.position := by
  induction groups generalizing token g with
  | nil => exact Or.inl ⟨rfl, rfl⟩
  | cons group groups ih =>
    rcases hcandidates : group.candidates with _ | ⟨c, rest⟩
    · have hprior : priorTokens token (group :: groups) = none :: priorTokens token groups := by
        rw [priorTokens, hcandidates]
      have hkept : group.keptPosition = none := by
        rw [keptPosition, hcandidates]
        rfl
      rw [hprior, filterMap_cons_none hkept]
      cases g with
      | zero => exact Or.inl ⟨hcandidates, rfl⟩
      | succ g => exact ih token g
    · have hprior : priorTokens token (group :: groups) = some token ::
          priorTokens (token + 1) groups := by
        rw [priorTokens, hcandidates]
      have hkept : group.keptPosition = some c.position := by
        rw [keptPosition, hcandidates]
        rfl
      rw [hprior, filterMap_cons_some hkept]
      cases g with
      | zero => exact Or.inr ⟨c, rest, 0, hcandidates, rfl, rfl⟩
      | succ g =>
        rcases ih (token + 1) g with h | ⟨c', rest', j, hc', hj, hget⟩
        · exact Or.inl h
        · refine Or.inr ⟨c', rest', j + 1, hc', ?_, hget⟩
          rw [show token + (j + 1) = token + 1 + j by omega]
          exact hj

theorem mem_partitionRows {g r : Nat} :
    r ∈ partitionRows inputs g ↔ inputs[r]?.map InputRow.group = some g := by
  unfold partitionRows
  rw [mem_filter, mem_range, decide_eq_true_iff]
  refine ⟨And.right, fun h => ⟨?_, h⟩⟩
  by_contra hnot
  rw [List.getElem?_eq_none (not_lt.mp hnot)] at h
  cases h

/-- A score is the running minimum at its place if none before it is smaller. -/
theorem cumulativeMin_eq_iff (kernels : Kernels) {rows : List Nat}
    (hincreasing : rows.Pairwise (· < ·))
    (hrow : row ∈ rows) (kept : List Nat) (score : Nat → Nat) :
    (kernels.cumulativeMin (kept ++ rows.map score))[kept.length + rows.idxOf row]? =
      some (score row) ↔
      (∀ s ∈ kept, score row ≤ s) ∧ ∀ r ∈ rows, r ≤ row → score row ≤ score r := by
  have hidx : rows.idxOf row < rows.length := idxOf_lt_length_of_mem hrow
  obtain ⟨least, hleast, hle, hget⟩ := kernels.cumulativeMin_spec (kept ++ rows.map score)
    (kept.length + rows.idxOf row) (by
      rw [length_append, length_map]
      omega)
  rw [Nat.add_assoc, take_length_add_append, ← map_take] at hleast hle
  have hself : score row ∈ kept ++ (rows.take (rows.idxOf row + 1)).map score :=
    mem_append_right _ (mem_map_of_mem ((mem_take_idxOf_succ hincreasing hrow).mpr ⟨hrow, le_rfl⟩))
  rw [hget, Option.some_inj]
  constructor
  · rintro rfl
    refine ⟨fun s hs => hle s (mem_append_left _ hs), fun r hr hrle => ?_⟩
    exact hle _ (mem_append_right _ (mem_map_of_mem
      ((mem_take_idxOf_succ hincreasing hrow).mpr ⟨hr, hrle⟩)))
  · rintro ⟨hkept, hrows⟩
    refine le_antisymm (hle _ hself) ?_
    rcases mem_append.mp hleast with hmem | hmem
    · exact hkept _ hmem
    · obtain ⟨r, hr, rfl⟩ := mem_map.mp hmem
      obtain ⟨hr, hrle⟩ := (mem_take_idxOf_succ hincreasing hrow).mp hr
      exact hrows r hr hrle

/-- A partition that keeps one row keeps no others. -/
theorem rest_eq_nil_of_single {groups : List GroupWork} {g : Nat} {c : CandidateRef}
    {rest : List CandidateRef} (hsingle : ∀ group ∈ groups, group.candidates.length ≤ 1)
    (hc : (groups.getD g empty).candidates = c :: rest) : rest = [] := by
  have hmem : groups.getD g empty ∈ groups := by
    rw [getD_eq_getElem?_getD] at hc ⊢
    rcases hg : groups[g]? with _ | group
    · rw [hg] at hc
      cases hc
    · exact mem_of_getElem? hg
  have := hsingle _ hmem
  rw [hc, length_cons] at this
  exact eq_nil_of_length_eq_zero (by omega)

/-- **The running minimum**: a row wins exactly if it is in front of the kept row of its partition
and of every earlier row of it. -/
theorem winners_getD {groups : List GroupWork} {wins : List Bool}
    (hwins : winners kernels orders groups inputs = .ok wins)
    (hsingle : ∀ group ∈ groups, group.candidates.length ≤ 1) {input : InputRow}
    (hrow : inputs[row]? = some input) :
    wins.getD row false = true ↔ (∀ c ∈ (groups.getD input.group empty).candidates,
        orders 0 row < orders c.source c.row) ∧
      ∀ r < row, inputs[r]?.map InputRow.group = some input.group → orders 0 row < orders 0 r := by
  have hlt : row < inputs.length := (List.getElem?_eq_some_iff.mp hrow).1
  have hne : inputs ≠ [] := by
    rintro rfl
    exact absurd hlt (Nat.not_lt_zero row)
  have hmany : (groups.any fun group => decide (1 < group.candidates.length)) = false := by
    rw [any_eq_false]
    intro group hgroup h
    have := hsingle group hgroup
    have := of_decide_eq_true h
    omega
  unfold winners at hwins
  rw [if_neg hne, hmany, if_neg Bool.false_ne_true] at hwins
  obtain rfl := Except.ok.inj hwins
  -- the names of the loop
  set old := groups.filterMap keptPosition with hold
  set tokens := old ++ (List.range inputs.length).map fun row => (0, row) with htokens
  set priority := tokenPriority kernels orders tokens with hpriority
  set rows := partitionRows inputs input.group with hrows
  have hinput : ∀ r < inputs.length, tokens[old.length + r]? = some (0, r) := by
    intro r hr
    rw [htokens, List.getElem?_append_right (Nat.le_add_right _ _), Nat.add_sub_cancel_left,
      List.getElem?_map, List.getElem?_range hr]
    rfl
  have hrowMem : row ∈ rows := mem_partitionRows.mpr (by rw [hrow]; rfl)
  have hincreasing : rows.Pairwise (· < ·) := pairwise_lt_range.sublist filter_sublist
  -- what an earlier row and the kept row contribute to the minimum
  have hearlier : ∀ r < row, priority (old.length + row) ≤ priority (old.length + r) ↔
      orders 0 row < orders 0 r := fun r hr =>
    tokenPriority_le_iff_of_lt kernels orders (hinput row hlt) (hinput r (hr.trans hlt))
      (Nat.add_lt_add_left hr _)
  have hkept : ∀ t c, old[t]? = some c → (priority (old.length + row) ≤ priority t ↔
      orders 0 row < orders c.1 c.2) := by
    intro t c hc
    have ht : t < old.length := (List.getElem?_eq_some_iff.mp hc).1
    have hget : tokens[t]? = some c := by rw [htokens, List.getElem?_append_left ht, hc]
    exact tokenPriority_le_iff_of_lt kernels orders (hinput row hlt) hget (Nat.lt_add_right _ ht)
  set kept := (((priorTokens 0 groups).getD input.group none).map priority).toList with hkeptList
  have hminimum := cumulativeMin_eq_iff kernels hincreasing hrowMem kept fun r =>
    priority (old.length + r)
  have hentry : (inputs.zipIdx.map fun x : InputRow × Nat =>
      decide ((kernels.cumulativeMin ((((priorTokens 0 groups).getD x.1.group none).map
        priority).toList ++ (partitionRows inputs x.1.group).map fun r =>
          priority (old.length + r)))[(((priorTokens 0 groups).getD x.1.group none).map
            priority).toList.length + (partitionRows inputs x.1.group).idxOf x.2]? =
              some (priority (old.length + x.2)))).getD row false = true ↔
      (kernels.cumulativeMin (kept ++ rows.map fun r => priority (old.length + r)))[
        kept.length + rows.idxOf row]? = some (priority (old.length + row)) := by
    rw [getD_eq_getElem?_getD, List.getElem?_map, List.getElem?_zipIdx, hrow]
    simp only [Option.map_some, Option.getD_some, Nat.zero_add, decide_eq_true_iff]
    rfl
  refine hentry.trans (hminimum.trans (and_congr ?_ ?_))
  · rcases priorTokens_getD 0 groups input.group with ⟨hnil, hnone⟩ | ⟨c, rest, j, hc, hj, hget⟩
    · rw [hkeptList, hnone, hnil]
      exact ⟨fun _ c hc => absurd hc not_mem_nil, fun _ s hs => absurd hs not_mem_nil⟩
    · obtain rfl := rest_eq_nil_of_single hsingle hc
      rw [hkeptList, hj, hc]
      have := hkept j c.position hget
      simp only [Option.map_some, Option.toList_some, mem_singleton, forall_eq, Nat.zero_add]
      exact this
  · constructor
    · intro h r hr hgroup
      exact (hearlier r hr).mp (h r (mem_partitionRows.mpr hgroup) hr.le)
    · intro h r hr hle
      rcases Nat.lt_or_ge r row with hlow | hhigh
      · exact (hearlier r hlow).mpr (h r hlow (mem_partitionRows.mp hr))
      · obtain rfl : r = row := Nat.le_antisymm hle hhigh
        exact le_rfl

end Minimum

end StreamFusion.TopN
