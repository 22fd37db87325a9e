import StreamFusion.TopN.Model

/-!
# Insertion row by row

What one row does to a partition of an append-only plan whose sort columns have encoded keys.  The
candidates are in the order of sort key and sequence, their *rank*; `Partition` says so, together
with what the sequence numbers of a partition satisfy.  `insertSorted_eq` is the binary search: the
new candidate goes to its place.  A row keeps the partition as described (`Partition.insert`), and
the difference it emits never has to compare two rows, because two candidates of a partition with
one sequence are one candidate (`emitDifference_ok`).
-/

namespace StreamFusion.TopN

open List Ranked Except

open Changelog (Kind)

variable {K : Type}

/-! ## The emitted difference -/

section Difference

variable (plan : Plan) (sources : CandidateSources K)

/-- The events that replace one candidate by another one. -/
def replacement (rank : Int) (old next : Option CandidateRef) : List OutputEvent :=
  if old = next then []
  else
    match old, next with
    | some old, some next =>
      (if plan.generateUpdateBefore then [⟨old, rank, .updateBefore⟩] else []) ++
        [⟨next, rank, .updateAfter⟩]
    | some old, none => [⟨old, rank, .delete⟩]
    | none, some next => [⟨next, rank, .insert⟩]
    | none, none => []

variable {plan sources} {before after : List CandidateRef}

variable {old next : Option CandidateRef}

theorem sameOutput_eq (h : ∀ a ∈ old, ∀ b ∈ next, a.sequence = b.sequence → a = b) :
    sameOutput sources old next = .ok (decide (old = next)) := by
  rcases old with _ | a <;> rcases next with _ | b
  · rfl
  · rfl
  · rfl
  · by_cases hab : a = b
    · rw [sameOutput, if_pos hab, decide_eq_true (congrArg some hab)]
    · have hsequence : a.sequence ≠ b.sequence := fun heq => hab (h a rfl b rfl heq)
      rw [sameOutput, if_neg hab, if_neg hsequence, decide_eq_false fun heq =>
        hab (Option.some.inj heq)]

theorem changeAt_eq (rank : Int) (h : ∀ a ∈ old, ∀ b ∈ next, a.sequence = b.sequence → a = b) :
    changeAt plan sources rank old next = .ok (replacement plan rank old next) := by
  unfold changeAt replacement
  rw [sameOutput_eq h, ok_bind]
  by_cases heq : old = next
  · rw [decide_eq_true heq, if_pos rfl, if_pos heq]
  · rw [decide_eq_false heq, if_neg Bool.false_ne_true, if_neg heq]
    rcases old with _ | a <;> rcases next with _ | b <;> rfl

section

variable (h : ∀ a ∈ before, ∀ b ∈ after, a.sequence = b.sequence → a = b)
include h

theorem departure_eq {old : CandidateRef} (hold : old ∈ before) :
    departure plan sources after old = .ok (if old ∈ after then [] else [⟨old, 0, .delete⟩]) := by
  unfold departure
  split
  · next hfind =>
    have hnot : old ∉ after := fun hmem => by simpa using List.find?_eq_none.mp hfind old hmem
    rw [if_neg hnot]
  · next next hfind =>
    have hnext : next ∈ after := mem_of_find?_eq_some hfind
    have hsequence : next.sequence = old.sequence := by simpa using List.find?_some hfind
    obtain rfl : old = next := h old hold next hnext hsequence.symm
    rw [if_pos rfl, if_pos hnext]

/-- What left is deleted and what came is inserted. -/
theorem unrankedDifference_eq : unrankedDifference plan sources before after =
      .ok ((before.filter (· ∉ after)).map (fun old => ⟨old, 0, .delete⟩) ++
        (after.filter (· ∉ before)).map fun next => ⟨next, 0, .insert⟩) := by
  have harrivals : (after.filter fun next => !before.any fun old => old.sequence = next.sequence) =
      after.filter (· ∉ before) := by
    refine filter_congr fun next hnext => ?_
    rw [Bool.eq_iff_iff, Bool.not_eq_true', decide_eq_true_iff, any_eq_false]
    constructor
    · intro hnone hmem
      exact hnone next hmem (decide_eq_true rfl)
    · intro hnot old hold hsequence
      exact hnot (h old hold next hnext (of_decide_eq_true hsequence) ▸ hold)
  have hdepartures : (before.map fun old => if old ∈ after then [] else
      [(⟨old, 0, .delete⟩ : OutputEvent)]).flatten =
        (before.filter (· ∉ after)).map fun old => ⟨old, 0, .delete⟩ := by
    clear h harrivals
    induction before with
    | nil => rfl
    | cons old before ih =>
      rw [map_cons, flatten_cons, ih]
      by_cases hmem : old ∈ after
      · rw [if_pos hmem, filter_cons_of_neg (by simpa using hmem)]
        rfl
      · rw [if_neg hmem, filter_cons_of_pos (by simpa using hmem)]
        rfl
  rw [unrankedDifference, mapM_of_ok fun old hold => departure_eq h hold, ok_bind,
    hdepartures, harrivals]

theorem rankedDifference_eq : rankedDifference plan sources before after =
      .ok ((List.range (max before.length after.length)).map fun index =>
        replacement plan (rankNumber plan index) before[index]? after[index]?).flatten := by
  rw [rankedDifference, mapM_of_ok fun index _ => changeAt_eq _ fun a ha b hb =>
    h a (mem_of_getElem? ha) b (mem_of_getElem? hb)]
  rfl

/-- **The difference is emitted without comparing rows.** -/
theorem emitDifference_ok : ∃ events, emitDifference plan sources before after = .ok events := by
  unfold emitDifference
  split
  · exact ⟨_, rankedDifference_eq h⟩
  · split
    · exact ⟨_, changeAt_eq 0 fun a ha b hb =>
        h a (mem_of_mem_head? ha) b (mem_of_mem_head? hb)⟩
    · exact ⟨_, unrankedDifference_eq h⟩

end

end Difference

/-! ## Partitions -/

variable [LinearOrder K]

/-- The encoded sort key of a candidate and its sequence. -/
def rank (orders : Nat → Nat → K) (candidate : CandidateRef) : K ×ₗ Nat :=
  toLex (orders candidate.source candidate.row, candidate.sequence)

variable {orders : Nat → Nat → K} {a b : CandidateRef}

theorem rank_lt_iff : rank orders a < rank orders b ↔
      orders a.source a.row < orders b.source b.row ∨
        orders a.source a.row = orders b.source b.row ∧ a.sequence < b.sequence :=
  Prod.Lex.toLex_lt_toLex

/-- A partition of an append-only plan that keeps `limit` candidates. -/
structure Partition (orders : Nat → Nat → K) (limit : Nat) (group : GroupWork) : Prop where
  sorted : group.candidates.Pairwise fun a b => rank orders a < rank orders b
  sequences : (group.candidates.map CandidateRef.sequence).Nodup
  below : ∀ candidate ∈ group.candidates, candidate.sequence < group.nextSequence
  bounded : group.candidates.length ≤ limit

/-! ## The binary search -/

theorem then_compare_eq_lt {k k' : K} {s s' : Nat} :
    (compare k k').then (compare s s') = .lt ↔ toLex (k, s) < toLex (k', s') := by
  rw [Prod.Lex.toLex_lt_toLex]
  rcases lt_trichotomy k k' with h | h | h
  · simp [compare_lt_iff_lt.mpr h, h]
  · subst h
    simp [compare_lt_iff_lt]
  · simp [compare_gt_iff_gt.mpr h, h.ne', h.not_gt]

variable {candidates : List CandidateRef} {candidate : CandidateRef}

/-- **The binary search finds the place of the candidate**, as soon as the sort columns compare as
the keys do. -/
theorem insertSorted_eq {plan : Plan} {sources : CandidateSources K}
    (hcolumns : plan.sortColumns ≠ []) (hnan : canHaveNan sources.schema plan.sortColumns = false)
    (hsorted : candidates.Pairwise fun a b => rank orders a < rank orders b)
    (horder : ∀ c ∈ candidates, sortKeyOrder plan sources c candidate =
      .ok (compare (orders c.source c.row) (orders candidate.source candidate.row))) :
    insertSorted plan sources candidates candidate =
      .ok (insertAt candidates (place (rank orders) candidates candidate) candidate) := by
  have hless : ∀ i < candidates.length,
      (do let ordering ← candidateOrder plan sources (candidates.getD i candidate) candidate
          (.ok (ordering == Ordering.lt) : Except String Bool)) =
        .ok (decide (i < place (rank orders) candidates candidate)) := by
    intro i hi
    have hget : candidates.getD i candidate = candidates[i] := by
      rw [getD_eq_getElem?_getD, List.getElem?_eq_getElem hi, Option.getD_some]
    rw [hget, candidateOrder, horder _ (getElem_mem hi)]
    simp only [ok_bind, ok.injEq]
    rw [Bool.eq_iff_iff, beq_iff_eq, decide_eq_true_iff, then_compare_eq_lt,
      lt_place_iff hsorted candidate hi]
    rfl
  have hnan' : hasNan plan sources candidates candidate = false := by
    rw [hasNan, hnan, Bool.false_and]
  unfold insertSorted
  rw [if_neg hcolumns, hnan']
  rw [lowerBound_eq _ _ _ (Nat.sub_le _ _) (Nat.zero_le _)
    (place_le (rank orders) candidates candidate) hless]
  rfl

/-! ## What a row keeps -/

variable {c : CandidateRef}

section Step

variable {limit : Nat} {group : GroupWork}

/-- The candidates of a partition after the arrival of `candidate`. -/
def inserted (orders : Nat → Nat → K) (limit : Nat) (candidates : List CandidateRef)
    (candidate : CandidateRef) : List CandidateRef :=
  (insertAt candidates (place (rank orders) candidates candidate) candidate).take limit

theorem mem_inserted
    (h : c ∈ inserted orders limit candidates candidate) : c = candidate ∨ c ∈ candidates :=
  mem_cons.mp ((insertAt_perm _ _ _).mem_iff.mp (mem_of_mem_take h))

section

variable (h : Partition orders limit group) (hcandidate : candidate.sequence = group.nextSequence)
include h hcandidate

theorem Partition.rank_ne : ∀ c ∈ group.candidates, rank orders c ≠ rank orders candidate := by
  intro c hc heq
  have hsequence : c.sequence = candidate.sequence := congrArg (fun r => (ofLex r).2) heq
  have := h.below c hc
  omega

/-- **A row keeps the partition.** -/
theorem Partition.insert (rankEnd : Option Int) : Partition orders limit
      ⟨group.nextSequence + 1, rankEnd, inserted orders limit group.candidates candidate⟩ := by
  have hperm := insertAt_perm group.candidates
    (place (rank orders) group.candidates candidate) candidate
  refine ⟨?_, ?_, ?_, length_take_le _ _⟩
  · exact (insertAt_sorted h.sorted (h.rank_ne hcandidate)).sublist (take_sublist _ _)
  · have hnodup : ((candidate :: group.candidates).map CandidateRef.sequence).Nodup := by
      refine nodup_cons.mpr ⟨fun hmem => ?_, h.sequences⟩
      obtain ⟨c, hc, heq⟩ := mem_map.mp hmem
      have := h.below c hc
      omega
    exact (((hperm.map _).nodup_iff.mpr hnodup).sublist ((take_sublist _ _).map _))
  · intro c hc
    rcases mem_inserted hc with rfl | hc
    · show c.sequence < group.nextSequence + 1
      omega
    · exact (h.below c hc).trans (Nat.lt_succ_self _)

end

/-- Two candidates of a partition, before or after a row, with one sequence are one candidate. -/
theorem Partition.eq_of_sequence (h : Partition orders limit group)
    (hcandidate : candidate.sequence = group.nextSequence)
    (ha : a = candidate ∨ a ∈ group.candidates) (hb : b = candidate ∨ b ∈ group.candidates)
    (heq : a.sequence = b.sequence) : a = b := by
  rcases ha with rfl | ha <;> rcases hb with rfl | hb
  · rfl
  · have := h.below b hb
    omega
  · have := h.below a ha
    omega
  · exact inj_on_of_nodup_map h.sequences ha hb heq

end Step

theorem mem_of_mem_selected {rankStart : Nat} {rankEnd : Int}
    (h : c ∈ selected candidates rankStart rankEnd) : c ∈ candidates := by
  unfold selected at h
  split at h
  · exact absurd h not_mem_nil
  · exact mem_of_mem_take (mem_of_mem_drop h)

end StreamFusion.TopN
