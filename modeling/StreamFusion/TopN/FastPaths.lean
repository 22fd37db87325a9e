import StreamFusion.TopN.Selection

/-!
# The fast paths of append-only Top-N

An append-only plan with a constant rank range and encodable sort columns does not insert the rows
of a batch one at a time.  If it keeps several rows, all candidates of the batch are sorted once and
the rows are inserted by their positions in that order; if it keeps one row, a running minimum over
the partition says which rows of the batch become the kept one.

Both are compared with the insertion by binary search, row for row (`append_fast_paths_faithful`):
`processRows_congr` is the induction over the rows, and its invariants make a row of the fast path a
row of the insertion.  For the selection all candidates are among the sorted ones; for the running
minimum the kept row is in front of everything seen of its partition.
-/

namespace StreamFusion.TopN

open CandidateSources Except FastPath List Bool

open Changelog (Kind)

variable {K : Type} [LinearOrder K]

/-! ## Two runs over the rows -/

variable {kernels : Kernels} {plan : Plan} {row : Nat} {inputs : List InputRow}
    {groups : List GroupWork}

/-- **Two runs that agree on every row agree.** -/
theorem processRows_congr {sources sources' : CandidateSources K}
    {fast fast' : FastPath} (Inv : Nat → List InputRow → List GroupWork → Prop)
    (hrow : ∀ row input inputs groups, Inv row (input :: inputs) groups →
      processRow kernels plan sources fast row input (groups.getD input.group .empty) =
        processRow kernels plan sources' fast' row input (groups.getD input.group .empty))
    (hstep : ∀ row input inputs groups group events, Inv row (input :: inputs) groups →
      processRow kernels plan sources' fast' row input (groups.getD input.group .empty) =
        .ok (group, events) → Inv (row + 1) inputs (groups.set input.group group))
    (h : Inv row inputs groups) :
    processRows kernels plan sources fast row inputs groups =
      processRows kernels plan sources' fast' row inputs groups := by
  induction inputs generalizing row groups with
  | nil => rw [processRows, processRows]
  | cons input inputs ih =>
    rw [processRows, processRows, hrow row input inputs groups h]
    rcases hresult : processRow kernels plan sources' fast' row input
        (groups.getD input.group .empty) with error | ⟨group, events⟩
    · rw [error_bind, error_bind]
    · simp only [ok_bind]
      rw [ih (hstep row input inputs groups group events h hresult)]

/-! ## One row -/

/-- Append-only plans with a constant rank range, in the order of sort columns. -/
structure AppendPlan (plan : Plan) (stop : Nat) : Prop where
  strategy : plan.strategy = .appendFast
  rankEnd : plan.rankEnd = some stop
  range : (stop : Int) ≤ I64.max
  bounded : plan.boundedFinalOutput = false
  physical : plan.physicalInputSemantics = false
  columns : plan.sortColumns ≠ []

variable {stop : Nat} {sources : CandidateSources K} {input : InputRow} {group : GroupWork}
  {candidates : List CandidateRef} {orders : Nat → Nat → K}

section Row

variable (hplan : AppendPlan plan stop)

/-- What a row does with the candidates it leaves: it counts, truncates and emits the difference. -/
def finishRow (plan : Plan) (sources : CandidateSources K) (stop : Nat) (group : GroupWork)
    (candidates : List CandidateRef) : Except String (GroupWork × List OutputEvent) := do
  let next ← nextSequence group.nextSequence
  let events ← emitDifference plan sources (selected group.candidates plan.rankStart stop)
    (selected candidates plan.rankStart stop)
  .ok (⟨next, group.rankEnd, candidates⟩, events)

/-- An arriving row as a candidate. -/
def arrival (row : Nat) (group : GroupWork) : CandidateRef := ⟨0, row, group.nextSequence, .insert⟩

/-- A partition after the insertion of a row. -/
def GroupWork.insertRow (orders : Nat → Nat → K) (stop row : Nat) (group : GroupWork) : GroupWork :=
  ⟨group.nextSequence + 1, group.rankEnd, inserted orders stop group.candidates (arrival row group)⟩

include hplan

/-- A row is appended and the difference emitted. -/
theorem processRow_eq {fast : FastPath} (hkind : input.kind = 0)
    (happend : appendCandidate kernels plan sources fast row stop group.candidates
      (arrival row group) = .ok candidates) :
    processRow kernels plan sources fast row input group =
      finishRow plan sources stop group (candidates.take stop) := by
  have hlimit : isAppendLimit plan = false := by simp [isAppendLimit, hplan.columns]
  have hretained : retainedOf (stop : Int) = stop := by simp [retainedOf]
  have hrankEnd : rankEnd plan sources input.row group = .ok ((stop : Int), group) := by
    rw [rankEnd, hplan.rankEnd]
    exact if_pos hplan.range
  have htruncate : ∀ l, truncate plan sources stop l = .ok (l.take stop) := by
    intro l
    simp [truncate, hplan.bounded, hplan.strategy, hretained]
  have hinsert : requireInsert input.kind "append-fast" = .ok () := by
    rw [hkind]
    rfl
  unfold arrival at happend
  unfold processRow
  rw [hlimit, if_neg Bool.false_ne_true, hrankEnd, ok_bind]
  simp only [candidateKind, hplan.physical, false_eq_true, if_false, ok_bind,
    hplan.bounded, applyStrategy, hplan.strategy, Bool.not_false, if_true, hinsert, happend,
    finishRow]
  cases nextSequence group.nextSequence with
  | error e => rfl
  | ok next => simp only [ok_bind, htruncate]

variable (hnan : canHaveNan sources.schema plan.sortColumns = false)

include hnan

/-- **A row of the insertion.** -/
theorem processRow_none (hkind : input.kind = 0) (hgroup : Partition orders stop group)
    (horder : ∀ c ∈ group.candidates, sortKeyOrder plan sources c (arrival row group) =
      .ok (compare (orders c.source c.row) (orders 0 row))) :
    processRow kernels plan sources none row input group = finishRow plan sources stop group
        (inserted orders stop group.candidates (arrival row group)) :=
  processRow_eq hplan hkind (insertSorted_eq hplan.columns hnan hgroup.sorted horder)

end Row

theorem nextSequence_eq_ok {n m : Nat} (h : nextSequence n = .ok m) : m = n + 1 := by
  unfold nextSequence at h
  split at h
  · exact (ok.inj h).symm
  · cases h

section Finish

omit [LinearOrder K] in
theorem finishRow_eq_ok {group' : GroupWork} {events : List OutputEvent}
    (h : finishRow plan sources stop group candidates = .ok (group', events)) :
    nextSequence group.nextSequence = .ok (group.nextSequence + 1) ∧
      group' = ⟨group.nextSequence + 1, group.rankEnd, candidates⟩ := by
  obtain ⟨next, hnext, h⟩ := bind_eq_ok.mp h
  obtain ⟨_, _, h⟩ := bind_eq_ok.mp h
  obtain rfl := nextSequence_eq_ok hnext
  exact ⟨hnext, (congrArg Prod.fst (ok.inj h)).symm⟩

/-- A row fails only if the sequence numbers run out. -/
theorem finishRow_inserted (plan : Plan) (sources : CandidateSources K) (row : Nat)
    (hgroup : Partition orders stop group) {next : Nat}
    (hnext : nextSequence group.nextSequence = .ok next) :
    ∃ events, finishRow plan sources stop group
      (inserted orders stop group.candidates (arrival row group)) =
        .ok (group.insertRow orders stop row, events) := by
  obtain rfl := nextSequence_eq_ok hnext
  have hsequence : (arrival row group).sequence = group.nextSequence := rfl
  obtain ⟨events, hevents⟩ : ∃ events, emitDifference plan sources
      (selected group.candidates plan.rankStart stop)
      (selected (inserted orders stop group.candidates (arrival row group)) plan.rankStart stop) =
        .ok events :=
    emitDifference_ok fun a ha b hb heq =>
      hgroup.eq_of_sequence hsequence (Or.inr (mem_of_mem_selected ha))
        (mem_inserted (mem_of_mem_selected hb)) heq
  refine ⟨events, ?_⟩
  rw [finishRow, hnext, ok_bind, hevents]
  rfl

end Finish

/-! ## The run by insertion -/

section Run

/-- The inputs of an append-only batch over `count` partitions. -/
def Inserts (count : Nat) (inputs : List InputRow) : Prop :=
  ∀ input ∈ inputs, input.kind = 0 ∧ input.group < count

variable {g : Nat}

theorem getD_mem (h : g < groups.length) : groups.getD g .empty ∈ groups := by
  rw [getD_eq_getElem?_getD, List.getElem?_eq_getElem h]
  exact getElem_mem h

theorem getD_sequences (groups : List GroupWork) (g : Nat) :
    (groups.map GroupWork.nextSequence).getD g 0 = (groups.getD g .empty).nextSequence :=
  getD_map groups GroupWork.empty GroupWork.nextSequence

theorem Inserts.tail (h : Inserts groups.length (input :: inputs)) (group : GroupWork) :
    Inserts (groups.set input.group group).length inputs := by
  rw [length_set]
  exact fun i hi => h i (mem_cons_of_mem _ hi)

theorem arrivals_cons {arriving : List CandidateRef}
    (h : arrivals row (input :: inputs) (groups.map GroupWork.nextSequence) = .ok arriving) :
    ∃ rest, nextSequence (groups.getD input.group .empty).nextSequence =
        .ok ((groups.getD input.group .empty).nextSequence + 1) ∧
      arriving = arrival row (groups.getD input.group .empty) :: rest ∧
      ∀ rankEnd candidates, arrivals (row + 1) inputs ((groups.set input.group
        ⟨(groups.getD input.group .empty).nextSequence + 1, rankEnd, candidates⟩).map
          GroupWork.nextSequence) = .ok rest := by
  rw [arrivals, getD_sequences] at h
  obtain ⟨next, hnext, hbind⟩ := bind_eq_ok.mp h
  obtain rfl := nextSequence_eq_ok hnext
  obtain ⟨rest, hrest, hok⟩ := bind_eq_ok.mp hbind
  refine ⟨rest, hnext, (ok.inj hok).symm, fun rankEnd candidates => ?_⟩
  rw [map_set]
  exact hrest

theorem Partition.set (h : ∀ group ∈ groups, Partition orders stop group)
    (hg : g < groups.length) (row : Nat) :
    ∀ group ∈ groups.set g ((groups.getD g .empty).insertRow orders stop row),
      Partition orders stop group := by
  intro group hgroup
  rcases mem_or_eq_of_mem_set hgroup with hmem | rfl
  · exact h group hmem
  · exact (h _ (getD_mem hg)).insert rfl _

variable (hplan : AppendPlan plan stop) (hnan : canHaveNan sources.schema plan.sortColumns = false)
  (horders : sources.orders = some orders)

include hplan hnan horders

theorem processRow_encoded (hkind : input.kind = 0) (hgroup : Partition orders stop group) :
    processRow kernels plan sources none row input group = finishRow plan sources stop group
        (inserted orders stop group.candidates (arrival row group)) := by
  refine processRow_none hplan hnan hkind hgroup fun c _ => ?_
  rw [sortKeyOrder, horders]
  rfl

/-- If the candidates of the batch cannot be numbered, the insertion fails in the same way. -/
theorem processRows_of_arrivals_error (hgroups : ∀ group ∈ groups, Partition orders stop group)
    (hinputs : Inserts groups.length inputs) {error : String}
    (h : arrivals row inputs (groups.map GroupWork.nextSequence) = .error error) :
    processRows kernels plan sources none row inputs groups = .error error := by
  induction inputs generalizing row groups with
  | nil => cases h
  | cons input inputs ih =>
    obtain ⟨hkind, hgroup⟩ := hinputs input (mem_cons_self ..)
    have hpartition := hgroups _ (getD_mem hgroup)
    rw [processRows, processRow_encoded hplan hnan horders hkind hpartition]
    rw [arrivals, getD_sequences] at h
    rcases hnext : nextSequence (groups.getD input.group .empty).nextSequence with e | next
    · rw [hnext] at h
      cases h
      unfold finishRow
      rw [hnext]
      rfl
    · obtain ⟨events, hevents⟩ := finishRow_inserted plan sources row hpartition hnext
      obtain rfl := nextSequence_eq_ok hnext
      rw [hnext, ok_bind] at h
      have hrest : arrivals (row + 1) inputs ((groups.map GroupWork.nextSequence).set input.group
          ((groups.getD input.group .empty).nextSequence + 1)) = .error error := by
        rcases hresult : arrivals (row + 1) inputs ((groups.map GroupWork.nextSequence).set
            input.group ((groups.getD input.group .empty).nextSequence + 1)) with e | rest
        · rw [hresult] at h
          exact h
        · rw [hresult] at h
          cases h
      rw [hevents, ok_bind]
      dsimp only
      rw [ih (Partition.set hgroups hgroup row) (hinputs.tail _)
        (by rw [map_set]; exact hrest)]
      rfl

/-! ## The run by priorities -/

/-- The run by priorities before a row: every candidate, present or to come, is among the sorted
ones. -/
structure Selecting (orders : Nat → Nat → K) (stop : Nat) (selection : Selection) (row : Nat)
    (inputs : List InputRow) (groups : List GroupWork) : Prop where
  partitions : ∀ group ∈ groups, Partition orders stop group
  present : ∀ group ∈ groups, ∀ c ∈ group.candidates, c ∈ selection.candidates
  arriving : ∃ arriving, arrivals row inputs (groups.map GroupWork.nextSequence) = .ok arriving ∧
    ∀ c ∈ arriving, c ∈ selection.candidates
  inputs : Inserts groups.length inputs

/-- The selection gives what the comparator gives. -/
theorem processRows_selection {selection : Selection} (hselection : selection.Ordered orders)
    (h : Selecting orders stop selection row inputs groups) :
    processRows kernels plan sources ⟨some selection, none⟩ row inputs groups =
      processRows kernels plan sources none row inputs groups := by
  refine processRows_congr (Selecting orders stop selection) ?_ ?_ h
  · intro row input inputs groups h
    obtain ⟨hkind, hgroup⟩ := h.inputs input (mem_cons_self ..)
    have hpartition := h.partitions _ (getD_mem hgroup)
    obtain ⟨arriving, harrivals, hmem⟩ := h.arriving
    obtain ⟨rest, _, rfl, _⟩ := arrivals_cons harrivals
    rw [processRow_encoded hplan hnan horders hkind hpartition]
    have happend : appendCandidate kernels plan sources ⟨some selection, none⟩ row stop
        (groups.getD input.group .empty).candidates
        (arrival row (groups.getD input.group .empty)) =
          .ok (inserted orders stop (groups.getD input.group .empty).candidates
            (arrival row (groups.getD input.group .empty))) := by
      have hretained : retainedOf (stop : Int) = stop := by simp [retainedOf]
      show ok (selection.insert kernels _ _ (retainedOf stop)) = _
      rw [hretained, hselection.insert_eq kernels hpartition rfl (hmem _ (mem_cons_self ..))
        (h.present _ (getD_mem hgroup))]
    rw [processRow_eq hplan hkind happend, inserted, take_take, min_self]
  · intro row input inputs groups group events h hrow
    obtain ⟨hkind, hgroup⟩ := h.inputs input (mem_cons_self ..)
    have hpartition := h.partitions _ (getD_mem hgroup)
    obtain ⟨arriving, harrivals, hmem⟩ := h.arriving
    obtain ⟨rest, _, rfl, hrest⟩ := arrivals_cons harrivals
    rw [processRow_encoded hplan hnan horders hkind hpartition] at hrow
    obtain ⟨_, rfl⟩ := finishRow_eq_ok hrow
    refine ⟨Partition.set h.partitions hgroup row, ?_, ⟨rest, hrest _ _, fun c hc =>
      hmem c (mem_cons_of_mem _ hc)⟩, h.inputs.tail _⟩
    intro group hset c hc
    rcases mem_or_eq_of_mem_set hset with hold | rfl
    · exact h.present group hold c hc
    · rcases mem_inserted hc with rfl | hc
      · exact hmem _ (mem_cons_self ..)
      · exact h.present _ (getD_mem hgroup) c hc

omit hplan hnan horders

/-! ## The run by a running minimum -/

/-- What was seen of a partition before a row: what it was loaded with, and the earlier rows of
it. -/
def Seen (groups : List GroupWork) (inputs : List InputRow) (row g : Nat)
    (position : Nat × Nat) : Prop :=
  (∃ c ∈ (groups.getD g .empty).candidates, c.position = position) ∨
    ∃ r < row, inputs[r]?.map InputRow.group = some g ∧ (0, r) = position

theorem seen_succ {position : Nat × Nat} : Seen groups inputs (row + 1) g position ↔
      Seen groups inputs row g position ∨ inputs[row]?.map InputRow.group = some g ∧
          (0, row) = position := by
  constructor
  · rintro (h | ⟨r, hr, hgroup, rfl⟩)
    · exact Or.inl (Or.inl h)
    · rcases Nat.lt_succ_iff_lt_or_eq.mp hr with hr | rfl
      · exact Or.inl (Or.inr ⟨r, hr, hgroup, rfl⟩)
      · exact Or.inr ⟨hgroup, rfl⟩
  · rintro ((h | ⟨r, hr, hgroup, rfl⟩) | ⟨hgroup, rfl⟩)
    · exact Or.inl h
    · exact Or.inr ⟨r, hr.trans (Nat.lt_succ_self row), hgroup, rfl⟩
    · exact Or.inr ⟨row, Nat.lt_succ_self row, hgroup, rfl⟩

/-- A partition that keeps one row keeps the new row exactly if it is in front of the kept one. -/
theorem inserted_one (hgroup : Partition orders 1 group) (row : Nat) :
    inserted orders 1 group.candidates (arrival row group) =
      if ∀ c ∈ group.candidates, orders 0 row < orders c.source c.row then [arrival row group]
      else group.candidates := by
  rcases hcandidates : group.candidates with _ | ⟨c, rest⟩
  · rw [if_pos fun c hc => absurd hc not_mem_nil]
    rfl
  · have hrest : rest = [] := by
      have := hgroup.bounded
      rw [hcandidates, length_cons] at this
      exact eq_nil_of_length_eq_zero (by omega)
    subst hrest
    have hbelow : c.sequence < group.nextSequence :=
      hgroup.below c (by rw [hcandidates]; exact mem_singleton_self c)
    simp only [mem_singleton, forall_eq]
    by_cases hfront : orders 0 row < orders c.source c.row
    · have hplace : Ranked.place (rank orders) [c] (arrival row group) = 0 := by
        refine countP_eq_zero.mpr fun x hx => ?_
        obtain rfl := mem_singleton.mp hx
        rw [decide_eq_true_iff, rank_lt_iff]
        rintro (hlt | ⟨heq, _⟩)
        · exact lt_asymm hlt hfront
        · exact absurd heq hfront.ne'
      rw [if_pos hfront, inserted, hplace]
      rfl
    · have hplace : Ranked.place (rank orders) [c] (arrival row group) = 1 := by
        have hlt : rank orders c < rank orders (arrival row group) := by
          rw [rank_lt_iff]
          rcases lt_or_eq_of_le (not_lt.mp hfront) with hlt | heq
          · exact Or.inl hlt
          · exact Or.inr ⟨heq, hbelow⟩
        unfold Ranked.place
        rw [countP_cons_of_pos (by exact decide_eq_true hlt)]
        rfl
      rw [if_neg hfront, inserted, hplace]
      rfl

/-- The run by a running minimum before a row: the kept row of a partition was seen, and it is in
front of everything seen. -/
structure Leading (orders : Nat → Nat → K) (loaded : List GroupWork)
    (all : List InputRow) (row : Nat)
    (inputs : List InputRow) (groups : List GroupWork) : Prop where
  partitions : ∀ group ∈ groups, Partition orders 1 group
  rest : inputs = all.drop row
  inputs : Inserts groups.length inputs
  kept : ∀ g, ∀ c ∈ (groups.getD g .empty).candidates, Seen loaded all row g c.position
  leads : ∀ g position, Seen loaded all row g position →
    ∃ c ∈ (groups.getD g .empty).candidates,
      orders c.source c.row ≤ orders position.1 position.2

variable {loaded : List GroupWork} {all : List InputRow}

theorem Leading.getElem?
    (h : Leading orders loaded all row (input :: inputs) groups) : all[row]? = some input := by
  have := congrArg List.head? h.rest
  rw [List.head?_cons, List.head?_drop] at this
  exact this.symm

variable {wins : List Bool}

/-- A row wins if it goes before the kept one. -/
theorem Leading.wins_iff (hwins : winners kernels orders loaded all = .ok wins)
    (hsingle : ∀ group ∈ loaded, group.candidates.length ≤ 1)
    (h : Leading orders loaded all row (input :: inputs) groups) :
    wins.getD row false = true ↔ ∀ c ∈ (groups.getD input.group .empty).candidates,
        orders 0 row < orders c.source c.row := by
  rw [winners_getD kernels orders hwins hsingle h.getElem?]
  constructor
  · rintro ⟨hloaded, hrows⟩ c hc
    rcases h.kept _ c hc with ⟨c', hc', hposition⟩ | ⟨r, hr, hgroup, hposition⟩
    · have := hloaded c' hc'
      rwa [show c'.source = c.source from congrArg Prod.fst hposition,
        show c'.row = c.row from congrArg Prod.snd hposition] at this
    · have := hrows r hr hgroup
      rwa [← show (0 : Nat) = c.source from congrArg Prod.fst hposition,
        ← show r = c.row from congrArg Prod.snd hposition]
  · intro hfront
    have hseen : ∀ position, Seen loaded all row input.group position →
        orders 0 row < orders position.1 position.2 := by
      intro position hposition
      obtain ⟨c, hc, hle⟩ := h.leads _ _ hposition
      exact (hfront c hc).trans_le hle
    exact ⟨fun c hc => hseen c.position (Or.inl ⟨c, hc, rfl⟩),
      fun r hr hgroup => hseen (0, r) (Or.inr ⟨r, hr, hgroup, rfl⟩)⟩

theorem getD_set_self (hg : g < groups.length)
    (group : GroupWork) : (groups.set g group).getD g .empty = group := by
  rw [getD_eq_getElem?_getD, List.getElem?_set_self hg]
  rfl

theorem getD_set_of_ne {g' : Nat} (hne : g ≠ g') (group : GroupWork) :
    (groups.set g group).getD g' .empty = groups.getD g' .empty := by
  rw [getD_eq_getElem?_getD, List.getElem?_set_ne hne, getD_eq_getElem?_getD]

/-- **A row keeps the lead.** -/
theorem Leading.insert (h : Leading orders loaded all row (input :: inputs) groups) :
    Leading orders loaded all (row + 1) inputs
      (groups.set input.group ((groups.getD input.group .empty).insertRow orders 1 row)) := by
  obtain ⟨_, hgroup⟩ := h.inputs input (mem_cons_self ..)
  have hpartition := h.partitions _ (getD_mem hgroup)
  have hrow := h.getElem?
  have hself : Seen loaded all (row + 1) input.group (0, row) :=
    seen_succ.mpr (Or.inr ⟨by rw [hrow]; rfl, rfl⟩)
  refine ⟨Partition.set h.partitions hgroup row, ?_, h.inputs.tail _, fun g c hc => ?_,
    fun g position hseen => ?_⟩
  · have := congrArg List.tail h.rest
    rwa [tail_cons, tail_drop] at this
  · by_cases hg : input.group = g
    · subst hg
      rw [getD_set_self hgroup] at hc
      rcases mem_inserted hc with rfl | hc
      · exact hself
      · exact seen_succ.mpr (Or.inl (h.kept _ c hc))
    · rw [getD_set_of_ne hg] at hc
      exact seen_succ.mpr (Or.inl (h.kept g c hc))
  · by_cases hg : input.group = g
    · subst hg
      rw [getD_set_self hgroup, GroupWork.insertRow, inserted_one hpartition row]
      split
      · -- the new row is kept: it is in front of the old one, and that of what was seen
        next hfront =>
        refine ⟨_, mem_singleton_self _, ?_⟩
        rcases seen_succ.mp hseen with hseen | ⟨_, rfl⟩
        · obtain ⟨c, hc, hle⟩ := h.leads _ _ hseen
          exact (hfront c hc).le.trans hle
        · exact le_rfl
      · next hfront =>
        push Not at hfront
        obtain ⟨c, hc, hle⟩ := hfront
        rcases seen_succ.mp hseen with hseen | ⟨_, rfl⟩
        · exact h.leads _ _ hseen
        · exact ⟨c, hc, hle⟩
    · rw [getD_set_of_ne hg]
      rcases seen_succ.mp hseen with hseen | ⟨hsame, _⟩
      · exact h.leads g position hseen
      · rw [hrow] at hsame
        exact absurd (Option.some.inj hsame) hg

include hnan horders in
/-- Skipping the rows that do not win changes nothing. -/
theorem processRows_winners (hone : AppendPlan plan 1)
    (hwins : winners kernels orders loaded all = .ok wins)
    (hsingle : ∀ group ∈ loaded, group.candidates.length ≤ 1)
    (h : Leading orders loaded all row inputs groups) :
    processRows kernels plan sources ⟨none, some wins⟩ row inputs groups =
      processRows kernels plan sources none row inputs groups := by
  refine processRows_congr (Leading orders loaded all) ?_ ?_ h
  · intro row input inputs groups h
    obtain ⟨hkind, hgroup⟩ := h.inputs input (mem_cons_self ..)
    have hpartition := h.partitions _ (getD_mem hgroup)
    rw [processRow_encoded hone hnan horders hkind hpartition]
    have happend : appendCandidate kernels plan sources ⟨none, some wins⟩ row (1 : Nat)
        (groups.getD input.group .empty).candidates
        (arrival row (groups.getD input.group .empty)) =
          .ok (inserted orders 1 (groups.getD input.group .empty).candidates
            (arrival row (groups.getD input.group .empty))) := by
      rw [inserted_one hpartition row]
      show ok (if wins.getD row false = true then _ else _) = _
      by_cases hwin : wins.getD row false = true
      · rw [if_pos hwin, if_pos ((h.wins_iff hwins hsingle).mp hwin)]
      · rw [if_neg hwin, if_neg fun hfront => hwin ((h.wins_iff hwins hsingle).mpr hfront)]
    rw [processRow_eq hone hkind happend, inserted, take_take, min_self]
  · intro row input inputs groups group events h hrow
    obtain ⟨hkind, hgroup⟩ := h.inputs input (mem_cons_self ..)
    rw [processRow_encoded hone hnan horders hkind (h.partitions _ (getD_mem hgroup))] at hrow
    obtain ⟨_, rfl⟩ := finishRow_eq_ok hrow
    exact h.insert

end Run

/-! ## The order of the encoded keys and the comparison of rows -/

variable {encode : Row → K} {partitions : List StoredPartition} {schema : List DataType}

section Comparison

/-- The rows of the batch and the stored ones. -/
def batchRows (inputs : List InputRow) (partitions : List StoredPartition) : List Row :=
  inputs.map InputRow.row ++ restoredRows partitions

/-- The order of the encoded keys is the comparison of the rows. -/
def EncodesOrder (encode : Row → K) (columns : List SortColumn) (rows : List Row) : Prop :=
  ∀ a ∈ rows, ∀ b ∈ rows, compareRows columns a b = .ok (compare (encode a) (encode b))

/-- The candidate is a row of the batch or a stored one. -/
def InBatch (inputs : List InputRow) (partitions : List StoredPartition)
    (c : CandidateRef) : Prop :=
  sourceRow inputs partitions c.source c.row ∈ batchRows inputs partitions

theorem inBatch_arrival (h : row < inputs.length) (group : GroupWork) :
    InBatch inputs partitions (arrival row group) := by
  refine mem_append_left _ ?_
  show (inputs.map InputRow.row).getD row [] ∈ _
  rw [getD_eq_getElem?_getD, List.getElem?_eq_getElem (by rwa [length_map])]
  exact getElem_mem _

theorem inBatch_restored {c : CandidateRef} (hsource : c.source = 1)
    (hrow : c.row < (restoredRows partitions).length) : InBatch inputs partitions c := by
  refine mem_append_right _ ?_
  rw [hsource]
  show (restoredRows partitions).getD c.row [] ∈ _
  rw [getD_eq_getElem?_getD, List.getElem?_eq_getElem hrow]
  exact getElem_mem _

/-- A run of the insertion before a row: the partitions are in order, over rows of the batch. -/
structure Inserting (orders : Nat → Nat → K) (stop : Nat) (all : List InputRow)
    (stored : List StoredPartition) (row : Nat) (inputs : List InputRow)
    (groups : List GroupWork) : Prop where
  partitions : ∀ group ∈ groups, Partition orders stop group
  rest : row + inputs.length = all.length
  inputs : Inserts groups.length inputs
  inBatch : ∀ group ∈ groups, ∀ c ∈ group.candidates, InBatch all stored c

/-- **Encoded keys and compared rows** insert alike. -/
theorem processRows_compared (hplan : AppendPlan plan stop)
    (hkeys : SortKeys.new schema plan.sortColumns = .ok true)
    (hencodes : EncodesOrder encode plan.sortColumns (batchRows inputs partitions))
      {rest : List InputRow}
    (h : Inserting (encodedKeys encode inputs partitions) stop inputs partitions row rest groups) :
    processRows kernels plan (new encode schema plan inputs partitions) none row rest groups =
      processRows kernels plan (new encode schema plan inputs partitions).unencoded none row
          rest groups := by
  have hnan := canHaveNan_of_new hkeys
  have horders : (new encode schema plan inputs partitions).orders =
      some (encodedKeys encode inputs partitions) := if_pos hkeys
  have hencoded : ∀ {row input rest groups},
      Inserting (encodedKeys encode inputs partitions) stop inputs partitions row
        (input :: rest) groups →
      processRow kernels plan (new encode schema plan inputs partitions).unencoded
          none row input (groups.getD input.group .empty) =
        finishRow plan (new encode schema plan inputs partitions) stop
          (groups.getD input.group .empty)
          (inserted (encodedKeys encode inputs partitions) stop
            (groups.getD input.group .empty).candidates
            (arrival row (groups.getD input.group .empty))) := by
    intro row input rest groups h
    obtain ⟨hkind, hgroup⟩ := h.inputs input (mem_cons_self ..)
    have hlt : row < inputs.length := by
      have := h.rest
      rw [length_cons] at this
      omega
    refine processRow_none hplan hnan hkind (h.partitions _ (getD_mem hgroup)) fun c hc => ?_
    exact hencodes (sourceRow inputs partitions c.source c.row)
      (h.inBatch _ (getD_mem hgroup) c hc) (sourceRow inputs partitions 0 row)
      (inBatch_arrival hlt (groups.getD input.group .empty))
  refine processRows_congr (Inserting (encodedKeys encode inputs partitions) stop inputs partitions)
    ?_ ?_ h
  · intro row input rest groups h
    obtain ⟨hkind, hgroup⟩ := h.inputs input (mem_cons_self ..)
    rw [hencoded h, processRow_encoded hplan hnan horders hkind (h.partitions _ (getD_mem hgroup))]
  · intro row input rest groups group events h hrow
    obtain ⟨_, hgroup⟩ := h.inputs input (mem_cons_self ..)
    have hlength := h.rest
    rw [length_cons] at hlength
    rw [hencoded h] at hrow
    obtain ⟨_, rfl⟩ := finishRow_eq_ok hrow
    refine ⟨Partition.set h.partitions hgroup row, by omega, h.inputs.tail _, ?_⟩
    intro group hset c hc
    rcases mem_or_eq_of_mem_set hset with hold | rfl
    · exact h.inBatch group hold c hc
    · rcases mem_inserted hc with rfl | hc
      · exact inBatch_arrival (by omega) _
      · exact h.inBatch _ (getD_mem hgroup) c hc

end Comparison

/-! ## The batch -/

section Batch

theorem rankEnd_le_of_validatePlan (hvalid : validatePlan plan = .ok ())
    (hstop : plan.rankEnd = some stop) : (stop : Int) ≤ I64.max := by
  unfold validatePlan at hvalid
  split at hvalid
  · cases hvalid
  · split at hvalid
    · cases hvalid
    · next hrange =>
      rw [hstop] at hrange
      by_contra hnot
      exact hrange (by simp; omega)

section

omit [LinearOrder K]

theorem appendPlan_of_compatible (hvalid : validatePlan plan = .ok ())
    (h : appendCompatible plan sources = true) :
    ∃ stop, AppendPlan plan stop ∧ stop ≠ 1 := by
  unfold appendCompatible at h
  simp only [and_eq_true, decide_eq_true_eq, not_eq_true'] at h
  obtain ⟨⟨⟨⟨⟨⟨⟨hstrategy, hstop⟩, _⟩, _⟩, hbounded⟩, hphysical⟩, hcolumns⟩, _⟩ := h
  rcases hrankEnd : plan.rankEnd with _ | stop
  · rw [hrankEnd] at hstop
    cases hstop
  · rw [hrankEnd] at hstop
    have hstop' : 1 < stop := by simpa using hstop
    exact ⟨stop,
      ⟨hstrategy, hrankEnd, rankEnd_le_of_validatePlan hvalid hrankEnd, hbounded, hphysical,
      hcolumns⟩, hstop'.ne'⟩

theorem appendPlan_of_topOneCompatible (h : topOneCompatible plan sources = true) :
    AppendPlan plan 1 := by
  unfold topOneCompatible at h
  simp only [and_eq_true, decide_eq_true_eq, not_eq_true'] at h
  obtain ⟨⟨⟨⟨⟨⟨⟨⟨hstrategy, _⟩, hstop⟩, _⟩, _⟩, hbounded⟩, hphysical⟩, hcolumns⟩, _⟩ := h
  exact ⟨hstrategy, hstop, by decide, hbounded, hphysical, hcolumns⟩

theorem orders_new (hkeys : SortKeys.new schema plan.sortColumns = .ok true) :
    (new encode schema plan inputs partitions).orders =
        some (encodedKeys encode inputs partitions) :=
  if_pos hkeys

theorem keys_of_orders_isSome
    (h : (new encode schema plan inputs partitions).orders.isSome = true) :
    SortKeys.new schema plan.sortColumns = .ok true := by
  by_contra hnot
  rw [new, if_neg hnot] at h
  cases h

end

variable (kernels : Kernels)

/-- The rows of a batch inserted one at a time by binary search, each insertion followed by the
truncation to the rank end. -/
def insertEach (plan : Plan) (sources : CandidateSources K) (groups : List GroupWork)
    (inputs : List InputRow) : Except String (List GroupWork × List OutputEvent) :=
  processRows kernels plan sources none 0 inputs groups

variable {kernels} (hstored : ∀ partition ∈ partitions, AppendFastPartition encode plan partition)
  (hinputs : Inserts partitions.length inputs)

omit [LinearOrder K] in
theorem AppendPlan.isAppendLimit (hplan : AppendPlan plan stop) : isAppendLimit plan = false := by
  simp [TopN.isAppendLimit, hplan.columns]

include hinputs in
theorem inserts_loadGroups (sources : CandidateSources K) :
    Inserts (loadGroups kernels plan sources none partitions).length inputs := by
  rwa [loadGroups, length_map, length_zip, length_restore, min_self]

include hstored hinputs

/-- A batch through the selection gives the general result. -/
theorem selectionBatch_eq (hplan : AppendPlan plan stop) (hstop : stop ≠ 1)
    (hfast : appendCompatible plan (new encode schema plan inputs partitions) = true)
    (hkeys : SortKeys.new schema plan.sortColumns = .ok true) :
    processBatch kernels plan (new encode schema plan inputs partitions) partitions inputs =
      insertEach kernels plan (new encode schema plan inputs partitions)
        (loadGroups kernels plan (new encode schema plan inputs partitions) none partitions)
            inputs := by
  have horders : (new encode schema plan inputs partitions).orders =
      some (encodedKeys encode inputs partitions) := orders_new hkeys
  have hlimit := hplan.isAppendLimit
  have hgroups :
    ∀ group ∈ loadGroups kernels plan (new encode schema plan inputs partitions) none partitions,
      Partition (encodedKeys encode inputs partitions) stop group := fun group hgroup =>
    partition_of_stored hlimit horders hplan.rankEnd hstored hgroup
  have hcount : Inserts
      (loadGroups kernels plan (new encode schema plan inputs partitions) none partitions).length
          inputs :=
    inserts_loadGroups hinputs _
  have hsequences :
    (loadGroups kernels plan (new encode schema plan inputs partitions) none partitions).map
      GroupWork.nextSequence = (restore 0 partitions).map GroupWork.nextSequence :=
    map_nextSequence_loadGroups hlimit none partitions
  have hone : topOneCompatible plan (new encode schema plan inputs partitions) = false := by
    unfold topOneCompatible
    simp [hplan.rankEnd, hstop]
  unfold processBatch appendSelection topOneWinners
  rw [horders]
  simp only [hfast, hone, if_true, false_eq_true, if_false]
  unfold Selection.new
  rcases harrivals : arrivals 0 inputs ((restore 0 partitions).map GroupWork.nextSequence) with
    error | arriving
  · exact (processRows_of_arrivals_error hplan (canHaveNan_of_new hkeys) horders hgroups hcount
      (by rw [hsequences]; exact harrivals)).symm
  · set candidates := Selection.sortTokens kernels (encodedKeys encode inputs partitions)
      ((restore 0 partitions).flatMap GroupWork.candidates ++ arriving) with hcandidates
    have hperm :
        candidates.Perm ((restore 0 partitions).flatMap GroupWork.candidates ++ arriving) :=
      sortTokens_perm kernels _ _
    have hpositions : (candidates.map CandidateRef.position).Nodup :=
      (hperm.map CandidateRef.position).nodup_iff.mpr (nodup_positions partitions harrivals)
    have hselection : Selection.Ordered (encodedKeys encode inputs partitions)
        ⟨Ranked.table (candidates.map CandidateRef.position), candidates⟩ :=
      ⟨hpositions, sortTokens_sorted kernels _ _, rfl⟩
    have hpresent : ∀ group ∈ restore 0 partitions, ∀ c ∈ group.candidates, c ∈ candidates :=
      fun group hgroup c hc =>
        hperm.mem_iff.mpr (mem_append_left _ (mem_flatMap.mpr ⟨group, hgroup, hc⟩))
    have hloaded :
      loadGroups kernels plan (new encode schema plan inputs partitions) (some _) partitions =
        loadGroups kernels plan (new encode schema plan inputs partitions) none partitions :=
      loadGroups_selection hlimit horders hselection
        (fun entry hentry => sequences_restore hstored hentry) hpresent
    show (do
      let groups := loadGroups kernels plan (new encode schema plan inputs partitions) _ partitions
      processRows kernels plan _ _ 0 inputs groups : Except _ _) = _
    rw [hloaded]
    refine processRows_selection hplan (canHaveNan_of_new hkeys) horders hselection
      ⟨hgroups, ?_, ?_, hcount⟩
    · intro group hgroup c hc
      obtain ⟨⟨partition, loaded⟩, hzip, rfl⟩ := mem_map.mp hgroup
      exact hpresent loaded (of_mem_zip hzip).2 c
        ((candidates_loadGroup_perm hlimit horders).mem_iff.mp hc)
    · rw [hsequences]
      exact ⟨arriving, harrivals, fun c hc => hperm.mem_iff.mpr (mem_append_right _ hc)⟩

/-- A batch through the winners gives the general result. -/
theorem topOneBatch_eq (hplan : AppendPlan plan 1)
    (hfast : topOneCompatible plan (new encode schema plan inputs partitions) = true)
    (hkeys : SortKeys.new schema plan.sortColumns = .ok true) :
    processBatch kernels plan (new encode schema plan inputs partitions) partitions inputs =
      insertEach kernels plan (new encode schema plan inputs partitions)
        (loadGroups kernels plan (new encode schema plan inputs partitions) none partitions)
            inputs := by
  have horders : (new encode schema plan inputs partitions).orders =
      some (encodedKeys encode inputs partitions) := orders_new hkeys
  set groups := loadGroups kernels plan (new encode schema plan inputs partitions) none partitions
  have hgroups : ∀ group ∈ groups, Partition (encodedKeys encode inputs partitions) 1 group :=
    fun group hgroup => partition_of_stored hplan.isAppendLimit horders hplan.rankEnd hstored hgroup
  have hcount : Inserts groups.length inputs := inserts_loadGroups hinputs _
  have happend : appendCompatible plan (new encode schema plan inputs partitions) = false := by
    unfold appendCompatible
    simp [hplan.rankEnd]
  have hsingle : ∀ group ∈ groups, group.candidates.length ≤ 1 := fun group hgroup =>
    (hgroups group hgroup).bounded
  obtain ⟨wins, hwins⟩ : ∃ wins,
    winners kernels (encodedKeys encode inputs partitions) groups inputs =
      .ok wins := by
    have hmany : (groups.any fun group => decide (1 < group.candidates.length)) = false := by
      rw [any_eq_false]
      intro group hgroup h
      exact absurd (of_decide_eq_true h) (not_lt.mpr (hsingle group hgroup))
    unfold winners
    rw [hmany, if_neg Bool.false_ne_true]
    split <;> exact ⟨_, rfl⟩
  unfold processBatch appendSelection topOneWinners
  rw [horders]
  simp only [hfast, happend, if_true, Bool.false_eq_true, if_false, ok_bind]
  rw [hwins]
  refine processRows_winners (canHaveNan_of_new hkeys) horders hplan hwins hsingle
    ⟨hgroups, rfl, hcount, ?_, ?_⟩
  · exact fun g c hc => Or.inl ⟨c, hc, rfl⟩
  · rintro g position (⟨c, hc, rfl⟩ | ⟨r, hr, _⟩)
    · exact ⟨c, hc, le_rfl⟩
    · exact absurd hr (Nat.not_lt_zero r)

end Batch

/-- **The fast paths of append-only Top-N are the insertion.**  For every stored state of the
partitions and every batch of insertions, over the sort columns the fast paths accept, the batch
emits the same events and leaves the same candidates, or fails in the same way, as the insertion of
its rows one at a time; and if the order of the encoded keys is the comparison of the rows, as the
insertion that compares the rows themselves.  The insertion starts with the stored candidates in
their order: those of an older format are sorted, all others are in order already. -/
theorem append_fast_paths_faithful (kernels : Kernels) (encode : Row → K) (schema : List DataType)
    (plan : Plan) (hvalid : validatePlan plan = .ok ()) (partitions : List StoredPartition)
    (hstored : ∀ partition ∈ partitions, AppendFastPartition encode plan partition)
    (inputs : List InputRow) (hinputs : Inserts partitions.length inputs)
    (hfast : appendCompatible plan (new encode schema plan inputs partitions) = true ∨
      topOneCompatible plan (new encode schema plan inputs partitions) = true) :
    let sources := new encode schema plan inputs partitions
    let groups := loadGroups kernels plan sources none partitions
    processBatch kernels plan sources partitions inputs =
      insertEach kernels plan sources groups inputs ∧
    (EncodesOrder encode plan.sortColumns (batchRows inputs partitions) →
      processBatch kernels plan sources partitions inputs =
        insertEach kernels plan sources.unencoded groups inputs) ∧
    ((∀ partition ∈ partitions, partition.indexed = true) → groups = restore 0 partitions) := by
  intro sources groups
  have hkeys : SortKeys.new schema plan.sortColumns = .ok true := by
    have hsome : (new encode schema plan inputs partitions).orders.isSome = true := by
      rcases hfast with h | h
      · exact (Bool.and_eq_true_iff.mp h).2
      · exact (Bool.and_eq_true_iff.mp h).2
    exact keys_of_orders_isSome hsome
  obtain ⟨stop, hplan, hbatch⟩ : ∃ stop, AppendPlan plan stop ∧
      processBatch kernels plan sources partitions inputs =
          insertEach kernels plan sources groups inputs := by
    rcases hfast with h | h
    · obtain ⟨stop, hplan, hstop⟩ := appendPlan_of_compatible hvalid h
      exact ⟨stop, hplan, selectionBatch_eq hstored hinputs hplan hstop h hkeys⟩
    · have hplan := appendPlan_of_topOneCompatible h
      exact ⟨1, hplan, topOneBatch_eq hstored hinputs hplan h hkeys⟩
  have horders : sources.orders = some (encodedKeys encode inputs partitions) := orders_new hkeys
  refine ⟨hbatch, fun hencodes => hbatch.trans ?_, loadGroups_indexed hplan.isAppendLimit⟩
  refine processRows_compared hplan hkeys hencodes ⟨fun group hgroup =>
    partition_of_stored hplan.isAppendLimit horders hplan.rankEnd hstored hgroup, Nat.zero_add _,
    inserts_loadGroups hinputs _, ?_⟩
  intro group hgroup c hc
  obtain ⟨⟨partition, loaded⟩, hzip, rfl⟩ := mem_map.mp hgroup
  obtain ⟨_, hsource, _⟩ := mem_restore [] hzip
  have hc := (candidates_loadGroup_perm hplan.isAppendLimit horders).mem_iff.mp hc
  exact inBatch_restored (hsource c hc).1 (hsource c hc).2

/-- The smallest values of the first column. -/
def smallest (stop : Nat) : Plan where
  strategy := .appendFast
  rankType := .rowNumber
  rankStart := 1
  rankEnd := some stop
  variableRankEndIndex := none
  sortColumns := [⟨0, true, true⟩]
  hasPartitionKeys := true
  primaryKeyIndices := []
  outputRankNumber := false
  generateUpdateBefore := true
  boundedFinalOutput := false
  physicalInputSemantics := false

/-- The key of an integer column is the integer. -/
def integerKey (row : Row) : Int :=
  match row.column 0 with
  | .integer value => value
  | _ => 0

/-- Two partitions, the second one of an older format. -/
def integerPartitions (rows olderRows : List (Nat × Row)) : List StoredPartition :=
  [⟨3, none, true, rows⟩, ⟨4, none, false, olderRows⟩]

/-- Rows for both of them. -/
def integerInputs : List InputRow :=
  [⟨0, 0, [.integer 5]⟩, ⟨1, 0, [.integer 3]⟩, ⟨0, 0, [.integer 1]⟩]

/-- Both fast paths over such rows: the two smallest values, the older rows being out of order, and
the smallest value. -/
theorem append_fast_paths_faithful_top_two_and_top_one :
    (let partitions := integerPartitions [(0, [.integer 5]), (2, [.integer 7])]
        [(1, [.integer 9]), (3, [.integer 2])]
      let sources := new integerKey [.int64] (smallest 2) integerInputs partitions
      processBatch Kernels.reference (smallest 2) sources partitions integerInputs =
        insertEach Kernels.reference (smallest 2) sources.unencoded
          (loadGroups Kernels.reference (smallest 2) sources none partitions) integerInputs) ∧
    (let partitions := integerPartitions [(0, [.integer 5])] [(1, [.integer 9])]
      let sources := new integerKey [.int64] (smallest 1) integerInputs partitions
      processBatch Kernels.reference (smallest 1) sources partitions integerInputs =
        insertEach Kernels.reference (smallest 1) sources.unencoded
          (loadGroups Kernels.reference (smallest 1) sources none partitions) integerInputs) := by
  constructor
  · refine (append_fast_paths_faithful Kernels.reference integerKey [.int64] (smallest 2)
      (by decide) _ ?_
      integerInputs (by unfold Inserts; decide) (Or.inl (by decide))).2.1
        (by unfold EncodesOrder; decide)
    intro partition hpartition
    fin_cases hpartition
    · exact ⟨by decide, by decide, by decide, fun stop hstop => by cases hstop; decide⟩
    · exact ⟨by decide, by decide, by decide, fun stop hstop => by cases hstop; decide⟩
  · refine (append_fast_paths_faithful Kernels.reference integerKey [.int64] (smallest 1)
      (by decide) _ ?_
      integerInputs (by unfold Inserts; decide) (Or.inr (by decide))).2.1
        (by unfold EncodesOrder; decide)
    intro partition hpartition
    fin_cases hpartition
    · exact ⟨by decide, by decide, by decide, fun stop hstop => by cases hstop; decide⟩
    · exact ⟨by decide, by decide, by decide, fun stop hstop => by cases hstop; decide⟩

end StreamFusion.TopN
