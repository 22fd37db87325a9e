import StreamFusion.Aggregate.Merge

/-!
# Decimal sums after an overflow

A decimal sum that leaves its precision has no value.  The next row starts the sum again from its
own argument, while a merge keeps such a sum without a value, unless the contributions of that part
cancel in number.  So the parts of a sequence can be merged exactly if the sums of neighbouring
parts join to the sum that the rows make (`Joins`), and that is so if no block of neighbouring
contributions leaves the precision (`joins_of_fits`).
-/

namespace StreamFusion.Aggregate

open Wire State List Option

/-- The argument of a row, and whether it is accumulated or retracted. -/
abbrev Contribution := Int × Bool

/-- The contributions, one after the other. -/
def applyAll (call : Call) (contributions : List Contribution) (accumulator : Accumulator) :
    Except StateError Accumulator :=
  contributions.foldlM (fun accumulator c => accumulator.applyValue call (.int c.1) c.2) accumulator

/-- The accumulators of the parts, merged one after the other. -/
def mergeAll (call : Call) (parts : List (List Contribution)) : Except StateError Accumulator :=
  parts.foldlM (fun merged part =>
    do merged.merge call (← applyAll call part (.new call))) (.new call)

/-- Merging the parts shows the sum that the rows show, now and after any later contributions. -/
def SplitAgrees (call : Call) (precision : Nat) (parts : List (List Contribution)) : Prop :=
  ∃ merged whole, mergeAll call parts = .ok merged ∧
    applyAll call parts.flatten (.new call) = .ok whole ∧
    ∀ later, (∀ c ∈ later, InPrecision precision c.1) →
      (applyAll call later merged).map (accumulatorValue call) =
        (applyAll call later whole).map (accumulatorValue call)

/-- A plain SUM over decimals of some precision. -/
structure DecimalSum (call : Call) (precision : Nat) : Prop where
  function : call.function = .sum ∨ call.function = .sum0
  distinct : call.distinct = false
  type : ∃ scale, call.outputType = .decimal128 precision scale
  precision : 1 ≤ precision ∧ precision ≤ 38

/-! ## Sums of blocks -/

section

variable (precision : Nat)

/-- A sum, if it keeps the precision. -/
def fitting (value : Int) : Option Int := if InPrecision precision value then some value else none

/-- The sum after a row.  A missing sum counts as zero. -/
def advance (sum : Option Int) (c : Contribution) : Option Int :=
  fitting precision (sum.getD 0 + signed c.2 c.1)

/-- The sum as the rows make it, starting again after each overflow. -/
def running (contributions : List Contribution) : Option Int :=
  contributions.foldl (advance precision) none

/-- The number of contributions, retracted ones taken off. -/
def tally (contributions : List Contribution) : Int64 := (contributions.map fun c => delta c.2).sum

/-- The exact sum. -/
def total (contributions : List Contribution) : Int :=
  (contributions.map fun c => signed c.2 c.1).sum

/-- Two sums, with the numbers of their contributions.  A part without a sum that counts nothing is
a fresh one; any other part without a sum is lost. -/
def join (left : Option Int) (n : Int64) (right : Option Int) (m : Int64) : Option Int :=
  match left, right with
  | some left, some right => fitting precision (left + right)
  | none, some right => if n = 0 then some right else none
  | left, none => if m = 0 then left else none

/-- No contribution, now or later, tells the sums of `n` contributions apart. -/
def Same (sum sum' : Option Int) (n : Int64) : Prop :=
  sum.getD 0 = sum'.getD 0 ∧ (n ≠ 0 → sum = sum')

/-- The sums of two neighbouring blocks join to the sum that the rows of both make. -/
def Joins (xs ys : List Contribution) : Prop :=
  Same (join precision (running precision xs) (tally xs) (running precision ys) (tally ys))
    (running precision (xs ++ ys)) (tally (xs ++ ys))

instance (xs ys : List Contribution) : Decidable (Joins precision xs ys) :=
  inferInstanceAs (Decidable (_ ∧ _))

end

variable {call : Call} {precision : Nat} {xs ys cs : List Contribution} {c : Contribution}
  {sum sum' : Option Int} {n : Int64}

theorem fitting_eq_some {value value' : Int} :
    fitting precision value = some value' ↔ InPrecision precision value ∧ value = value' := by
  unfold fitting
  split <;> simp_all

theorem tally_append : tally (xs ++ ys) = tally xs + tally ys := by
  rw [tally, map_append, sum_append]
  rfl

/-- The sum that the rows make keeps the precision. -/
theorem inPrecision_of_mem_running {value : Int} (h : value ∈ running precision xs) :
    InPrecision precision value := by
  rcases eq_nil_or_concat xs with rfl | ⟨xs, c, rfl⟩
  · cases h
  · rw [concat_eq_append, running, foldl_append] at h
    obtain ⟨hin, rfl⟩ := fitting_eq_some.mp h
    exact hin

theorem inPrecision_getD (h : ∀ value ∈ sum, InPrecision precision value) :
    InPrecision precision (sum.getD 0) := by
  rcases sum with _ | value
  · have : (1 : Int) ≤ 10 ^ precision := one_le_pow₀ (by norm_num)
    exact ⟨by simp only [getD_none]; omega, by simp only [getD_none]; omega⟩
  · exact h value rfl

/-- Without contributions a missing sum joins as zero does. -/
theorem join_zero_some (sum : Option Int) (m : Int64) {right : Int}
    (h : InPrecision precision right) :
    join precision sum 0 (some right) m = fitting precision (sum.getD 0 + right) := by
  rcases sum with _ | value
  · rw [getD_none, zero_add, fitting, if_pos h]
    rfl
  · rfl

/-- Joining does not tell apart what no contribution tells apart. -/
theorem Same.join (h : Same sum sum' n) (right : Option Int) (m : Int64)
    (hright : ∀ value ∈ right, InPrecision precision value) :
    Same (join precision sum n right m) (join precision sum' n right m) (n + m) := by
  obtain ⟨hvalue, hcounted⟩ := h
  by_cases hn : n = 0
  · subst hn
    rcases right with _ | right
    · by_cases hm : m = 0
      · simpa [Aggregate.join, Same, hm] using hvalue
      · simp [Aggregate.join, Same, hm]
    · rw [join_zero_some sum m (hright right rfl), join_zero_some sum' m (hright right rfl), hvalue]
      exact ⟨rfl, fun _ => rfl⟩
  · rw [hcounted hn]
    exact ⟨rfl, fun _ => rfl⟩

/-- The sums that merging makes keep the precision. -/
theorem inPrecision_of_mem_join {left right : Option Int} {m : Int64}
    (hleft : ∀ value ∈ left, InPrecision precision value)
    (hright : ∀ value ∈ right, InPrecision precision value) :
    ∀ value ∈ join precision left n right m, InPrecision precision value := by
  intro value h
  rcases left with _ | left <;> rcases right with _ | right <;>
    simp only [join, Option.mem_def, reduceCtorEq, ite_self, Option.ite_none_right_eq_some] at h
  · exact hright value h.2
  · exact hleft value h.2
  · obtain ⟨hin, rfl⟩ := fitting_eq_some.mp h
    exact hin

/-! ## What the accumulators hold -/

theorem decimalOperation_eq (operation : Int → Int → Int) (left right : Int) (hp : precision ≤ 38) :
    decimalOperation operation left right precision =
      (fitting precision (operation left right)).map .int := by
  have hfilter : decimalOperation operation left right precision =
      ((checkedI128 (operation left right)).filter fun value => InPrecision precision value).map
        .int := rfl
  rw [hfilter, checkedI128, fitting]
  by_cases h : InPrecision precision (operation left right)
  · simp [h, h.inWidth hp]
  · split <;> simp [h]

/-- A decimal sum after a contribution; without a value it starts from zero. -/
theorem addToSum_decimal {scale : Int} (hp : precision ≤ 38) (sum : Option Int)
    (hc : InPrecision precision c.1) :
    addToSum (sum.map .int) (.int c.1) (.decimal128 precision scale) c.2 =
      .ok ((advance precision sum c).map .int) := by
  obtain ⟨value, accumulate⟩ := c
  have hadd := decimalOperation_eq (· + ·) (sum.getD 0) value hp
  have hsub := decimalOperation_eq (· - ·) (sum.getD 0) value hp
  rcases sum with _ | current <;> cases accumulate
  · exact congrArg Except.ok hsub
  · simp [addToSum, advance, fitting, signed, hc]
  · exact congrArg Except.ok hsub
  · exact congrArg Except.ok hadd

namespace DecimalSum

section

variable (h : DecimalSum call precision)
include h

theorem new : Accumulator.new call = .sum none 0 := by
  rcases h.function with hf | hf <;> simp [Accumulator.new, hf, h.distinct]

/-- The rows make the running sum. -/
theorem applyAll_eq (hcs : ∀ c ∈ cs, InPrecision precision c.1) (sum : Option Int) (n : Int64) :
    applyAll call cs (.sum (sum.map .int) n) =
      .ok (.sum ((cs.foldl (advance precision) sum).map .int) (n + tally cs)) := by
  obtain ⟨scale, htype⟩ := h.type
  induction cs generalizing sum n with
  | nil => simp [applyAll, tally]
  | cons c cs ih =>
    obtain ⟨hc, hrest⟩ := forall_mem_cons.mp hcs
    have hstep : (Accumulator.sum (sum.map .int) n).applyValue call (.int c.1) c.2 =
        .ok (.sum ((advance precision sum c).map .int) (n + delta c.2)) := by
      rw [Accumulator.applyValue, htype, addToSum_decimal h.precision.2 sum hc]
      rfl
    have htally : tally (c :: cs) = delta c.2 + tally cs := rfl
    rw [applyAll, foldlM_cons, hstep, htally, ← Int64.add_assoc]
    exact ih hrest _ _

theorem applyAll_new (hcs : ∀ c ∈ cs, InPrecision precision c.1) :
    applyAll call cs (.new call) = .ok (.sum ((running precision cs).map .int) (tally cs)) := by
  have hrun := h.applyAll_eq hcs none 0
  rw [Int64.zero_add] at hrun
  rw [h.new]
  exact hrun

/-- Merging joins the sums and adds the counts. -/
theorem merge_eq (left : Option Int) (n : Int64) (right : Option Int) (m : Int64) :
    (Accumulator.sum (left.map .int) n).merge call (.sum (right.map .int) m) =
      .ok (.sum ((join precision left n right m).map .int) (n + m)) := by
  obtain ⟨scale, htype⟩ := h.type
  have hadd (left right : Int) : aggregateAdd (.int left) (.int right) call.outputType =
      .ok ((fitting precision (left + right)).map .int) := by
    rw [htype]
    exact congrArg Except.ok (decimalOperation_eq _ _ _ h.precision.2)
  rcases left with _ | left <;> rcases right with _ | right
  · by_cases hm : m = 0 <;> simp [Accumulator.merge, mergeSums, join, hm, bind, Except.bind]
  · by_cases hn : n = 0 <;> simp [Accumulator.merge, mergeSums, join, hn, bind, Except.bind]
  · by_cases hm : m = 0 <;> simp [Accumulator.merge, mergeSums, join, hm, bind, Except.bind]
  · simp [Accumulator.merge, mergeSums, join, hadd, bind, Except.bind]

/-- Sums that are told apart by no contribution show the same, and conversely. -/
theorem shows_same_iff (hsum : ∀ value ∈ sum, InPrecision precision value)
    (hsum' : ∀ value ∈ sum', InPrecision precision value) :
    (∀ later, (∀ c ∈ later, InPrecision precision c.1) →
      (applyAll call later (.sum (sum.map .int) n)).map (accumulatorValue call) =
        (applyAll call later (.sum (sum'.map .int) n)).map (accumulatorValue call)) ↔
      Same sum sum' n := by
  have hinjective : Function.Injective (Option.map AggregateValue.int) :=
    Option.map_injective fun _ _ heq => AggregateValue.int.inj heq
  constructor
  · intro hshows
    have hcounted (hn : n ≠ 0) : sum = sum' := by
      have hnow := hshows [] (by simp)
      simp only [applyAll, foldlM_nil, Except.map, pure, Except.pure, accumulatorValue,
        if_neg hn] at hnow
      exact hinjective (Except.ok.inj hnow)
    refine ⟨?_, hcounted⟩
    by_cases hn : n = 0
    · have hlater : ∀ c ∈ [((0 : Int), true)], InPrecision precision c.1 := by
        have := @inPrecision_getD precision none (by simp)
        simpa using this
      have hnext := hshows _ hlater
      rw [h.applyAll_eq hlater, h.applyAll_eq hlater] at hnext
      have htally : n + tally [((0 : Int), true)] ≠ 0 := by
        rw [hn]
        decide
      simp only [Except.map, accumulatorValue, if_neg htally, foldl_cons, foldl_nil,
        advance, signed,
        if_true, add_zero] at hnext
      have heq := hinjective (Except.ok.inj hnext)
      rw [fitting, fitting, if_pos (inPrecision_getD hsum), if_pos (inPrecision_getD hsum')] at heq
      exact Option.some.inj heq
    · rw [hcounted hn]
  · rintro ⟨hvalue, hcounted⟩ later hlater
    rw [h.applyAll_eq hlater, h.applyAll_eq hlater]
    rcases later with _ | ⟨c, later⟩
    · by_cases hn : n = 0
      · simp [Except.map, accumulatorValue, hn, tally]
      · rw [hcounted hn]
    · simp only [foldl_cons, advance, hvalue]

/-- One more part. -/
theorem mergeAll_append {parts : List (List Contribution)}
    (hmerged : mergeAll call parts = .ok (.sum (sum.map .int) n))
    (hcs : ∀ c ∈ cs, InPrecision precision c.1) :
    mergeAll call (parts ++ [cs]) =
      .ok (.sum ((join precision sum n (running precision cs) (tally cs)).map .int)
          (n + tally cs)) := by
  rw [mergeAll] at hmerged ⊢
  rw [foldlM_append, hmerged]
  show (do (Accumulator.sum (sum.map .int) n).merge call (← applyAll call cs (.new call))) >>=
    pure = _
  rw [bind_pure, h.applyAll_new hcs]
  exact h.merge_eq ..

/-- Whether the parts agree with the rows depends on the sum that the merged parts hold. -/
theorem splitAgrees_iff {parts : List (List Contribution)}
    (hmerged : mergeAll call parts = .ok (.sum (sum.map .int) (tally parts.flatten)))
    (hsum : ∀ value ∈ sum, InPrecision precision value)
    (hcs : ∀ c ∈ parts.flatten, InPrecision precision c.1) :
    SplitAgrees call precision parts ↔
      Same sum (running precision parts.flatten) (tally parts.flatten) := by
  rw [← h.shows_same_iff hsum fun _ => inPrecision_of_mem_running]
  have hwhole := h.applyAll_new hcs
  constructor
  · rintro ⟨merged, whole, hmerged', hwhole', hshows⟩
    cases hmerged.symm.trans hmerged'
    cases hwhole.symm.trans hwhole'
    exact hshows
  · exact fun hshows => ⟨_, _, hmerged, hwhole, hshows⟩

theorem splitAgrees_pair (hcs : ∀ c ∈ xs ++ ys, InPrecision precision c.1) :
    SplitAgrees call precision [xs, ys] ↔ Joins precision xs ys := by
  obtain ⟨hxs, hys⟩ := forall_mem_append.mp hcs
  have hfresh : join precision none 0 (running precision xs) (tally xs) = running precision xs := by
    rcases running precision xs with _ | value <;> simp [join]
  have hempty : mergeAll call [] = .ok (.sum (Option.map .int (none : Option Int)) 0) :=
    congrArg Except.ok h.new
  have hone := h.mergeAll_append hempty hxs
  rw [hfresh, Int64.zero_add] at hone
  have htwo : mergeAll call [xs, ys] = _ := h.mergeAll_append hone hys
  have hflatten : [xs, ys].flatten = xs ++ ys := by simp
  rw [← tally_append, ← hflatten] at htwo
  rw [h.splitAgrees_iff htwo (inPrecision_of_mem_join (fun _ => inPrecision_of_mem_running)
    fun _ => inPrecision_of_mem_running) (by rwa [hflatten]), hflatten, Joins]

/-- Parts whose sums join can be merged one after the other. -/
theorem mergeAll_same (hjoins : ∀ xs ys, xs ++ ys <+: cs → Joins precision xs ys)
    (hcs : ∀ c ∈ cs, InPrecision precision c.1) {parts : List (List Contribution)}
    (hparts : parts.flatten <+: cs) :
    ∃ sum, mergeAll call parts = .ok (.sum (sum.map .int) (tally parts.flatten)) ∧
      (∀ value ∈ sum, InPrecision precision value) ∧
      Same sum (running precision parts.flatten) (tally parts.flatten) := by
  induction parts using List.reverseRecOn with
  | nil => exact ⟨none, congrArg Except.ok h.new, by simp, rfl, fun _ => rfl⟩
  | append_singleton parts part ih =>
    rw [flatten_append, flatten_singleton] at hparts ⊢
    obtain ⟨sum, hmerged, hsum, hsame⟩ := ih ((prefix_append _ _).trans hparts)
    have hpart : ∀ c ∈ part, InPrecision precision c.1 := fun c hc =>
      hcs c (hparts.subset (mem_append_right _ hc))
    have hstep := hsame.join (running precision part) (tally part)
      fun _ => inPrecision_of_mem_running
    obtain ⟨hvalue, hcounted⟩ := hjoins _ _ hparts
    refine ⟨_, tally_append ▸ h.mergeAll_append hmerged hpart,
      inPrecision_of_mem_join hsum fun _ => inPrecision_of_mem_running, ?_, fun hn => ?_⟩
    · exact hstep.1.trans hvalue
    · exact (hstep.2 (tally_append ▸ hn)).trans (hcounted hn)

end

end DecimalSum

/-- The rows of a block that never leaves the precision make its exact sum. -/
theorem running_of_fits (h : ∀ zs, zs <+: xs → InPrecision precision (total zs)) :
    running precision xs = if xs = [] then none else some (total xs) := by
  induction xs using List.reverseRecOn with
  | nil => rfl
  | append_singleton xs c ih =>
    have hvalue : (running precision xs).getD 0 = total xs := by
      rw [ih fun zs hzs => h zs (hzs.trans (prefix_append _ _))]
      split <;> simp [total, *]
    have htotal : total (xs ++ [c]) = total xs + signed c.2 c.1 := by simp [total]
    rw [running, foldl_append, foldl_cons, foldl_nil, advance, ← running, hvalue, ← htotal, fitting,
      if_pos (h _ (prefix_refl _)), if_neg (by simp)]

/-- Blocks join where no block of neighbouring contributions leaves the precision. -/
theorem joins_of_fits (h : ∀ zs, zs <:+: cs → InPrecision precision (total zs))
    (hfront : xs ++ ys <+: cs) : Joins precision xs ys := by
  have hblock (zs : List Contribution) (hzs : zs <:+: xs ++ ys) :
      InPrecision precision (total zs) :=
    h zs (hzs.trans hfront.isInfix)
  have htotal : total (xs ++ ys) = total xs + total ys := by simp [total]
  have hsum : join precision (running precision xs) (tally xs) (running precision ys) (tally ys) =
      running precision (xs ++ ys) := by
    rw [running_of_fits fun zs hzs => hblock zs (hzs.isInfix.trans (prefix_append _ _).isInfix),
      running_of_fits fun zs hzs => hblock zs (hzs.isInfix.trans (suffix_append _ _).isInfix),
      running_of_fits fun zs hzs => hblock zs hzs.isInfix, htotal]
    rcases xs with _ | ⟨c, xs⟩
    · rcases ys with _ | ⟨d, ys⟩ <;> simp [join, tally, total]
    · rcases ys with _ | ⟨d, ys⟩
      · simp [join, tally, total]
      · have hfits := hblock _ (infix_refl _)
        rw [htotal] at hfits
        simp [join, fitting, hfits]
  exact ⟨congrArg (Option.getD · 0) hsum, fun _ => hsum⟩

/-- The sum of a column of 38 digits. -/
def decimalCall : Call :=
  ⟨.sum, some 0, none, false, some (.decimal128 38 0), .decimal128 38 0, true⟩

theorem decimalCall_decimalSum : DecimalSum decimalCall 38 :=
  ⟨Or.inl rfl, rfl, ⟨0, rfl⟩, by omega⟩

end StreamFusion.Aggregate
