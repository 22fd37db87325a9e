import StreamFusion.Exchange.BinaryRow.Model
import StreamFusion.Window.Assign

/-!
# The precision of event time

Windows are assigned in milliseconds.  A time of a finer precision is cut to milliseconds by a
division that rounds towards zero, while deduplication and the keys of the exchange round down.
Before 1970 the two differ on every time that is no whole millisecond, and such a time may lie
before its windows.

In milliseconds a time lies in all its windows unless the arithmetic of their bounds wraps around.
`WindowPlan.Exact` says when: the windows that are made have bounds in range, and so has the number
that ends the loop, or the loop is not entered.
-/

namespace StreamFusion.Window

open State
open Exchange.BinaryRow (TimeUnit timestampParts inWidth)

/-! ## Loops over windows -/

section

variable {goesOn : Int → Bool} {window : Int → Bounds} {next : Int → Int} {n : Int}

/-- What a loop makes: a window in each iteration that it reaches. -/
theorem exists_mem_pushes {b : Bounds} :
    (∃ fuel, b ∈ pushes goesOn window next fuel n) ↔
      ∃ k, (∀ j ≤ k, goesOn (next^[j] n) = true) ∧ b = window (next^[k] n) := by
  constructor
  · rintro ⟨fuel, h⟩
    induction fuel generalizing n with
    | zero => cases h
    | succ fuel ih =>
      rw [pushes] at h
      split at h
      · next hgoesOn =>
        rcases List.mem_cons.mp h with rfl | h
        · exact ⟨0, fun j hj => by rwa [Nat.le_zero.mp hj], rfl⟩
        · obtain ⟨k, hreached, rfl⟩ := ih h
          refine ⟨k + 1, fun j hj => ?_, rfl⟩
          rcases j with _ | j
          · exact hgoesOn
          · exact hreached j (by omega)
      · cases h
  · rintro ⟨k, hreached, rfl⟩
    refine ⟨k + 1, ?_⟩
    induction k generalizing n with
    | zero => simp [pushes, show goesOn n = true from hreached 0 le_rfl]
    | succ k ih =>
      rw [pushes, if_pos (show goesOn n = true from hreached 0 (Nat.zero_le _))]
      exact .tail _ (ih fun j hj => hreached (j + 1) (by omega))

theorem pushes_ends (k : Nat) (h : goesOn (next^[k] n) = false) (more : Nat) :
    pushes goesOn window next (k + more) n = pushes goesOn window next k n := by
  induction k generalizing n with
  | zero => cases more <;> simp_all [pushes]
  | succ k ih => rw [Nat.succ_add, pushes, pushes, ih h]

theorem length_pushes (k : Nat) (h : ∀ j, goesOn (next^[j] n) = true) :
    (pushes goesOn window next k n).length = k := by
  induction k generalizing n with
  | zero => rfl
  | succ k ih =>
    rw [pushes, if_pos (show goesOn n = true from h 0), List.length_cons, ih fun j => h (j + 1)]

/-- A loop ends exactly if there is an iteration where it does not go on. -/
theorem pushes_ends_iff :
    (∃ k, ∀ more, pushes goesOn window next (k + more) n = pushes goesOn window next k n) ↔
      ∃ k, goesOn (next^[k] n) = false := by
  constructor
  · rintro ⟨k, h⟩
    by_contra hgoesOn
    simp only [not_exists, Bool.not_eq_false] at hgoesOn
    have := congrArg List.length (h 1)
    rw [length_pushes _ hgoesOn, length_pushes _ hgoesOn] at this
    omega
  · rintro ⟨k, h⟩
    exact ⟨k, pushes_ends k h⟩

end

/-! ## Where the bounds are exact -/

/-- The start of the window of `unit` that a time lies in, as a number of any size. -/
def exactStart (timestamp offset unit : Int) : Int :=
  timestamp - I64.wrap (timestamp - offset) % unit

/-- A time lies in all its windows.  For HOP this is so if the starts go down in range until they
are `size` behind and the last end is in range, or if there is no window, because the time is less
than `size` above the least number.  For CUMULATE it is so if the number after the last end is in
range, or if there is no window, because the last end is not in range and the first one is. -/
def WindowPlan.Exact (window : WindowPlan) (timestamp : Int) : Prop :=
  let size := window.sizeMillis
  let step := window.slideOrStepMillis
  let start := exactStart timestamp window.offsetMillis size
  let last := exactStart timestamp window.offsetMillis step
  match window.kind with
  | .tumble => I64.min ≤ start ∧ start + size ≤ I64.max
  | .hop =>
    (∃ n : Nat, I64.min ≤ last - n * step ∧ last - n * step ≤ timestamp - size ∧
      (timestamp - size < last → last + size ≤ I64.max)) ∨
    (timestamp - size < I64.min ∧ (I64.min ≤ last ∨ last ≤ timestamp - size))
  | .cumulate =>
    I64.min ≤ start ∧
      (start + size + step ≤ I64.max ∨ (I64.max < start + size ∧ last + step ≤ I64.max))
  | .session => timestamp < I64.max

variable {timestamp offset unit : Int}

theorem exactStart_spec (hunit : 0 < unit) :
    exactStart timestamp offset unit ≤ timestamp ∧
      timestamp < exactStart timestamp offset unit + unit := by
  have hpos := Int.emod_nonneg (I64.wrap (timestamp - offset)) hunit.ne'
  have hlt := Int.emod_lt_of_pos (I64.wrap (timestamp - offset)) hunit
  unfold exactStart
  omega

/-- The bounds of one window wrap around once at most. -/
theorem wrap_le_iff {x : Int} (htime : I64.InRange timestamp) (hle : x ≤ timestamp)
    (hnear : timestamp - x ≤ I64.max) : I64.wrap x ≤ timestamp ↔ I64.min ≤ x := by
  unfold I64.InRange I64.min I64.max at *
  unfold I64.wrap
  omega

theorem lt_wrap_iff {x : Int} (htime : I64.InRange timestamp) (hlt : timestamp < x)
    (hnear : x - timestamp ≤ I64.max) : timestamp < I64.wrap x ↔ x ≤ I64.max := by
  unfold I64.InRange I64.min I64.max at *
  unfold I64.wrap
  omega

/-- The start is exact up to overflow. -/
theorem windowStart_eq (hunit : 0 < unit) (hrange : I64.InRange unit) :
    windowStart timestamp offset unit = I64.wrap (exactStart timestamp offset unit) := by
  have htmod := @Int.tmod_eq_emod (I64.wrap (timestamp - offset)) unit
  have hpos := Int.emod_nonneg (I64.wrap (timestamp - offset)) hunit.ne'
  have hlt := Int.emod_lt_of_pos (I64.wrap (timestamp - offset)) hunit
  have habs : (unit.natAbs : Int) = unit := Int.natAbs_of_nonneg hunit.le
  unfold windowStart exactStart
  unfold I64.InRange I64.min I64.max at hrange
  simp only
  split_ifs at htmod ⊢ with hnegative
  · omega
  · rw [htmod, habs, sub_add_cancel, I64.wrap_of_inRange (x := _ % unit)]
    unfold I64.InRange I64.min I64.max
    omega
  · rw [htmod, Nat.cast_zero, sub_zero]
  · omega

/-- The starts of HOP and the ends of CUMULATE are a step of the loop apart. -/
theorem iterate_wrap (step x : Int) (k : Nat) :
    (fun n => I64.wrap (n + step))^[k] (I64.wrap x) = I64.wrap (x + k * step) := by
  induction k generalizing x with
  | zero => simp
  | succ k ih =>
    rw [Function.iterate_succ_apply, I64.wrap_wrap_add, ih, Nat.cast_succ]
    ring_nf

/-! ## The windows of a time -/

/-- The windows of a time, as numbers, come to an end and the time lies in all of them. -/
def LiesInWindows (window : WindowPlan) (timestamp : Int) : Prop :=
  Ends window timestamp ∧
    ∀ fuel, ∀ b ∈ assignWindows window timestamp fuel, b.start ≤ timestamp ∧ timestamp < b.stop

/-- A loop whose windows a time lies in, stated by the iterations. -/
theorem liesIn_pushes_iff {goesOn : Int → Bool} {window : Int → Bounds}
    {next : Int → Int} {n : Int} :
    (∀ fuel, ∀ b ∈ pushes goesOn window next fuel n, b.start ≤ timestamp ∧ timestamp < b.stop) ↔
      ∀ k, (∀ j ≤ k, goesOn (next^[j] n) = true) →
        (window (next^[k] n)).start ≤ timestamp ∧ timestamp < (window (next^[k] n)).stop := by
  constructor
  · intro h k hreached
    obtain ⟨fuel, hmem⟩ := exists_mem_pushes.mpr ⟨k, hreached, rfl⟩
    exact h fuel _ hmem
  · intro h fuel b hb
    obtain ⟨k, hreached, rfl⟩ := exists_mem_pushes.mp ⟨fuel, hb⟩
    exact h k hreached

section Hop

variable {size slide last : Int}

/-- The windows of HOP, from the last one down. -/
def HopLiesIn (timestamp size slide last : Int) : Prop :=
  ∀ k : Nat, (∀ j ≤ k, I64.wrap (timestamp - size) < I64.wrap (last + j * -slide)) →
    I64.wrap (last + k * -slide) ≤ timestamp ∧ timestamp < I64.wrap (last + k * -slide + size)

theorem HopLiesIn.at_first (h : HopLiesIn timestamp size slide last)
    (hgoesOn : I64.wrap (timestamp - size) < I64.wrap last) :
    I64.wrap last ≤ timestamp ∧ timestamp < I64.wrap (last + size) := by
  have := h 0 fun j hj => by
    obtain rfl := Nat.le_zero.mp hj
    simpa using hgoesOn
  simpa using this

variable (htime : I64.InRange timestamp) (hsize : 0 < size ∧ size ≤ I64.max)
  (hslide : 0 < slide ∧ slide ≤ I64.max) (hlast : last ≤ timestamp ∧ timestamp < last + slide)
include htime hsize hslide hlast

/-- The start of the first window is in range, unless the loop is not entered. -/
theorem HopLiesIn.last_inRange (h : HopLiesIn timestamp size slide last) :
    I64.min ≤ last ∨ (timestamp - size < I64.min ∧ last ≤ timestamp - size) := by
  by_contra hout
  unfold I64.InRange I64.min I64.max at *
  have := (h.at_first (by rw [I64.wrap, I64.wrap]; omega)).1
  rw [I64.wrap] at this
  omega

/-- The starts go down in range until they are `size` behind: one that wraps around is above the
time. -/
theorem HopLiesIn.stops (h : HopLiesIn timestamp size slide last)
    (hlow : I64.min ≤ timestamp - size)
    (hin : I64.min ≤ last) :
    ∃ n : Nat, I64.min ≤ last - n * slide ∧ last - n * slide ≤ timestamp - size := by
  have hex : ∃ n : Nat, last - n * slide ≤ timestamp - size := by
    refine ⟨(last - (timestamp - size)).toNat, ?_⟩
    have := Int.self_le_toNat (last - (timestamp - size))
    nlinarith
  classical
  obtain ⟨hstops, hbefore⟩ := And.intro (Nat.find_spec hex) (fun j => @Nat.find_min _ _ hex j)
  generalize Nat.find hex = n at hstops hbefore
  refine ⟨n, ?_, hstops⟩
  by_contra hout
  have hpos (j : Nat) : 0 ≤ (j : Int) * slide := mul_nonneg (Int.natCast_nonneg j) hslide.1.le
  obtain ⟨n, rfl⟩ : ∃ m, n = m + 1 := by
    refine Nat.exists_eq_succ_of_ne_zero ?_
    rintro rfl
    simp only [Nat.cast_zero, zero_mul, sub_zero] at hout
    omega
  have hprev := hbefore n (Nat.lt_succ_self n)
  unfold I64.InRange I64.min I64.max at *
  rw [Nat.cast_succ, add_mul, one_mul] at hout
  have hover : timestamp < I64.wrap (last + (n + 1 : Nat) * -slide) := by
    rw [I64.wrap, mul_neg, Nat.cast_succ, add_mul, one_mul]
    have := hpos n
    omega
  have hreached : ∀ j ≤ n + 1, I64.wrap (timestamp - size) < I64.wrap (last + j * -slide) := by
    intro j hj
    rcases hj.lt_or_eq with hj | rfl
    · have := hbefore j hj
      have := hpos j
      rw [I64.wrap, I64.wrap, mul_neg]
      omega
    · refine lt_of_le_of_lt ?_ hover
      rw [I64.wrap]
      omega
  have := (h _ hreached).1
  omega

/-- HOP: a time lies in all its windows, which come to an end. -/
theorem hop_iff :
    ((∃ k : Nat, I64.wrap (last + k * -slide) ≤ I64.wrap (timestamp - size)) ∧
      HopLiesIn timestamp size slide last) ↔
    (∃ n : Nat, I64.min ≤ last - n * slide ∧ last - n * slide ≤ timestamp - size ∧
      (timestamp - size < last → last + size ≤ I64.max)) ∨
    (timestamp - size < I64.min ∧ (I64.min ≤ last ∨ last ≤ timestamp - size)) := by
  have hpos (j : Nat) : 0 ≤ (j : Int) * slide := mul_nonneg (Int.natCast_nonneg j) hslide.1.le
  constructor
  · rintro ⟨-, h⟩
    have hin := h.last_inRange htime hsize hslide hlast
    by_cases hlow : timestamp - size < I64.min
    · exact Or.inr ⟨hlow, hin.imp_right And.right⟩
    · obtain ⟨n, hn, hstops⟩ := h.stops htime hsize hslide hlast (by omega) (by omega)
      refine Or.inl ⟨n, hn, hstops, fun hgoesOn => ?_⟩
      have hfirst := h.at_first <| by
        unfold I64.InRange I64.min I64.max at *
        rw [I64.wrap, I64.wrap]
        omega
      exact (lt_wrap_iff htime (by omega) (by omega)).mp hfirst.2
  · rintro (⟨n, hin, hstops, htop⟩ | ⟨hlow, hnone⟩)
    · unfold I64.InRange I64.min I64.max at *
      have hlower : I64.wrap (timestamp - size) = timestamp - size := by
        have := hpos n
        rw [I64.wrap]
        omega
      have hend : I64.wrap (last + n * -slide) = last - n * slide := by
        have := hpos n
        rw [I64.wrap, mul_neg]
        omega
      refine ⟨⟨n, by rw [hlower, hend]; exact hstops⟩, fun k hreached => ?_⟩
      have hk : k < n := by
        by_contra hk
        have := hreached n (by omega)
        omega
      have hle : (k : Int) * slide ≤ n * slide :=
        mul_le_mul_of_nonneg_right (by exact_mod_cast hk.le) hslide.1.le
      have hgoesOn := hreached k le_rfl
      have := hpos k
      rw [hlower, I64.wrap, mul_neg] at hgoesOn
      rw [mul_neg, I64.wrap, I64.wrap]
      omega
    · have hnot : I64.wrap last ≤ I64.wrap (timestamp - size) := by
        unfold I64.InRange I64.min I64.max at *
        rw [I64.wrap, I64.wrap]
        omega
      refine ⟨⟨0, by simpa using hnot⟩, fun k hreached => ?_⟩
      have := hreached 0 (Nat.zero_le _)
      simp only [Nat.cast_zero, zero_mul, add_zero] at this
      omega

end Hop

section Cumulate

variable {size step start first : Int} {count : Nat}

/-- The windows of CUMULATE, from the one with the first end up. -/
def CumulateLiesIn (timestamp size step start first : Int) : Prop :=
  ∀ k : Nat, (∀ j ≤ k, I64.wrap (first + j * step) ≤ I64.wrap (start + size)) →
    I64.wrap start ≤ timestamp ∧ timestamp < I64.wrap (first + k * step)

theorem CumulateLiesIn.at_first (h : CumulateLiesIn timestamp size step start first)
    (hgoesOn : I64.wrap first ≤ I64.wrap (start + size)) :
    I64.wrap start ≤ timestamp ∧ timestamp < I64.wrap first := by
  have := h 0 fun j hj => by
    obtain rfl := Nat.le_zero.mp hj
    simpa using hgoesOn
  simpa using this

variable (htime : I64.InRange timestamp) (hsize : 0 < size ∧ size ≤ I64.max)
  (hstep : 0 < step ∧ step ≤ I64.max) (hstart : start ≤ timestamp ∧ timestamp < first)
  (hcount : first + count * step = start + size)
include htime hsize hstep hstart hcount

/-- The end after the last one is in range: if it wraps around, it is not after the time. -/
theorem CumulateLiesIn.stops (h : CumulateLiesIn timestamp size step start first)
    (hin : I64.min ≤ start) (htop : start + size ≤ I64.max) : start + size + step ≤ I64.max := by
  by_contra hout
  have hpos (j : Nat) : 0 ≤ (j : Int) * step := mul_nonneg (Int.natCast_nonneg j) hstep.1.le
  have hnext : first + ((count + 1 : Nat) : Int) * step = start + size + step := by
    rw [Nat.cast_succ, add_mul, one_mul]
    omega
  unfold I64.InRange I64.min I64.max at *
  have hreached : ∀ j ≤ count + 1, I64.wrap (first + j * step) ≤ I64.wrap (start + size) := by
    intro j hj
    rcases hj.lt_or_eq with hj | rfl
    · have : (j : Int) * step ≤ count * step :=
        mul_le_mul_of_nonneg_right (by omega) hstep.1.le
      have := hpos j
      rw [I64.wrap, I64.wrap]
      omega
    · rw [hnext, I64.wrap, I64.wrap]
      omega
  have := (h _ hreached).2
  rw [hnext, I64.wrap] at this
  omega

/-- CUMULATE: a time lies in all its windows, which come to an end; the last end is `count` steps
after the first. -/
theorem cumulate_iff :
    ((∃ k : Nat, I64.wrap (start + size) < I64.wrap (first + k * step)) ∧
      CumulateLiesIn timestamp size step start first) ↔
    I64.min ≤ start ∧
      (start + size + step ≤ I64.max ∨ (I64.max < start + size ∧ first ≤ I64.max)) := by
  have hpos (j : Nat) : 0 ≤ (j : Int) * step := mul_nonneg (Int.natCast_nonneg j) hstep.1.le
  have hlast := hpos count
  constructor
  · rintro ⟨-, h⟩
    have hin : I64.min ≤ start := by
      by_contra hout
      unfold I64.InRange I64.min I64.max at *
      have := (h.at_first (by rw [I64.wrap, I64.wrap]; omega)).1
      rw [I64.wrap] at this
      omega
    refine ⟨hin, ?_⟩
    by_cases htop : start + size ≤ I64.max
    · exact Or.inl (h.stops htime hsize hstep hstart hcount hin htop)
    · refine Or.inr ⟨by omega, ?_⟩
      by_contra hout
      unfold I64.InRange I64.min I64.max at *
      have := (h.at_first (by rw [I64.wrap, I64.wrap]; omega)).2
      rw [I64.wrap] at this
      omega
  · rintro ⟨hin, htop | ⟨hout, htop⟩⟩ <;> unfold I64.InRange I64.min I64.max at *
    · have hstops : I64.wrap (start + size) < I64.wrap (first + (count + 1 : Nat) * step) := by
        rw [Nat.cast_succ, add_mul, one_mul, I64.wrap, I64.wrap]
        omega
      refine ⟨⟨count + 1, hstops⟩, fun k hreached => ?_⟩
      have hk : k ≤ count := by
        by_contra hk
        have := hreached (count + 1) (by omega)
        omega
      have hle : (k : Int) * step ≤ count * step :=
        mul_le_mul_of_nonneg_right (by exact_mod_cast hk) hstep.1.le
      have := hpos k
      rw [I64.wrap, I64.wrap]
      omega
    · have hstops : I64.wrap (start + size) < I64.wrap first := by
        rw [I64.wrap, I64.wrap]
        omega
      refine ⟨⟨0, by simpa using hstops⟩, fun k hreached => ?_⟩
      have := hreached 0 (Nat.zero_le _)
      simp only [Nat.cast_zero, zero_mul, add_zero] at this
      omega

end Cumulate

/-- The last window of `step` in a window of `size`. -/
theorem exactStart_dvd {size step : Int} (hstep : 0 < step) (hsize : 0 < size)
    (hdvd : step ∣ size) :
    ∃ count : Nat, exactStart timestamp offset step + step + count * step =
      exactStart timestamp offset size + size := by
  obtain ⟨c, rfl⟩ := hdvd
  generalize hw : I64.wrap (timestamp - offset) = w
  have hmod : w % (step * c) % step = w % step := Int.emod_emod_of_dvd w (Dvd.intro c rfl)
  have hlt := Int.emod_lt_of_pos w hsize
  have hpos := Int.emod_nonneg w hsize.ne'
  have hdiv := Int.mul_ediv_add_emod (w % (step * c)) step
  have hq : w % (step * c) / step < c := Int.ediv_lt_of_lt_mul hstep (by linarith)
  refine ⟨(c - 1 - w % (step * c) / step).toNat, ?_⟩
  rw [Int.toNat_of_nonneg (by omega), exactStart, exactStart, hw]
  rw [hmod] at hdiv
  linarith

/-- The numbers of a plan that is accepted. -/
theorem WindowPlan.validate_eq_ok {window : WindowPlan} (h : window.validate = .ok ()) :
    0 < window.sizeMillis ∧
      match window.kind with
      | .tumble => window.slideOrStepMillis = 0
      | .hop => 0 < window.slideOrStepMillis
      | .cumulate =>
        0 < window.slideOrStepMillis ∧ window.slideOrStepMillis ∣ window.sizeMillis
      | .session => True := by
  unfold WindowPlan.validate at h
  cases hkind : window.kind <;> simp only [hkind] at h ⊢
  · split_ifs at h with hsize hstep
    exact ⟨not_le.mp hsize, not_not.mp hstep⟩
  · split_ifs at h with hsize hstep
    exact ⟨not_le.mp hsize, not_le.mp hstep⟩
  · split_ifs at h with hsize hstep
    rw [not_or, not_le, not_not] at hstep
    exact ⟨not_le.mp hsize, hstep.1, Int.dvd_of_tmod_eq_zero hstep.2⟩
  · split_ifs at h with hsize
    exact ⟨not_le.mp hsize, trivial⟩

/-- The plans whose windows a time lies in. -/
theorem liesInWindows_iff {window : WindowPlan} (hvalid : window.validate = .ok ())
    (htime : I64.InRange timestamp) : LiesInWindows window timestamp ↔ window.Exact timestamp := by
  obtain ⟨hsize, hstep⟩ := window.validate_eq_ok hvalid
  obtain ⟨kind, size, step, offset, hsizeRange, hstepRange, _⟩ := window
  have hstart := @exactStart_spec timestamp offset size hsize
  cases kind with
  | tumble =>
    simp only [LiesInWindows, Ends, assignWindows, WindowPlan.Exact, List.mem_singleton,
      forall_eq, implies_true, exists_const, forall_const, true_and,
        windowStart_eq hsize hsizeRange,
      I64.wrap_wrap_add]
    rw [wrap_le_iff htime hstart.1 (by have := hsizeRange.2; omega),
      lt_wrap_iff htime hstart.2 (by have := hsizeRange.2; omega)]
  | hop =>
    have hlast := @exactStart_spec timestamp offset step hstep
    refine Iff.trans ?_ (hop_iff htime ⟨hsize, hsizeRange.2⟩ ⟨hstep, hstepRange.2⟩ hlast)
    simp only [LiesInWindows, Ends, assignWindows, windowStart_eq hstep hstepRange,
      liesIn_pushes_iff, pushes_ends_iff, sub_eq_add_neg _ step, iterate_wrap, HopLiesIn,
      decide_eq_true_eq, decide_eq_false_iff_not, not_lt, I64.wrap_wrap_add]
  | cumulate =>
    obtain ⟨hstep, hdvd⟩ := hstep
    obtain ⟨count, hcount⟩ := @exactStart_dvd timestamp offset size step hstep hsize hdvd
    have hlast := @exactStart_spec timestamp offset step hstep
    refine Iff.trans ?_ (cumulate_iff htime ⟨hsize, hsizeRange.2⟩ ⟨hstep, hstepRange.2⟩
      ⟨hstart.1, hlast.2⟩ hcount)
    simp only [LiesInWindows, Ends, assignWindows, windowStart_eq hstep hstepRange,
      windowStart_eq hsize hsizeRange, liesIn_pushes_iff, pushes_ends_iff, iterate_wrap,
      CumulateLiesIn, decide_eq_true_eq, decide_eq_false_iff_not, not_le, I64.wrap_wrap_add]
  | session =>
    simp only [LiesInWindows, Ends, assignWindows, WindowPlan.Exact, List.mem_singleton,
      forall_eq, implies_true, exists_const, forall_const, true_and, le_refl, lt_min_iff]
    exact and_iff_right (lt_add_of_pos_right _ hsize)

/-! ## Precision -/

/-- A time in milliseconds, where `divide` cuts the finer precisions. -/
def toMillis (divide : Int → Int → Int) (outside : String) (unit : TimeUnit) (value : Int) :
    Except StateError Int :=
  match unit with
  | .second => if inWidth 64 (value * 1000) then .ok (value * 1000) else .error (.execution outside)
  | .millisecond => .ok value
  | .microsecond => .ok (divide value 1000)
  | .nanosecond => .ok (divide value 1000000)

/-- `timestamp_millis` of `window_table_function.rs`. -/
def timestampMillis := toMillis Int.tdiv "Window TVF timestamp is outside Flink's millisecond range"

/-- `timestamp_millis` of `deduplicate.rs`. -/
def Deduplicate.timestampMillis := toMillis (· / ·) "deduplicate timestamp is outside Flink's range"

/-- The nanoseconds of a unit. -/
def nanos : TimeUnit → Int
  | .second => 1000000000
  | .millisecond => 1000000
  | .microsecond => 1000
  | .nanosecond => 1

/-- Deduplication cuts a time to the same milliseconds exactly if nothing negative is cut. -/
theorem timestampMillis_eq_iff {unit : TimeUnit} {value millis : Int}
    (h : timestampMillis unit value = .ok millis) :
    Deduplicate.timestampMillis unit value = .ok millis ↔ 0 ≤ value ∨
        1000000 ∣ value * nanos unit := by
  cases unit with
  | second =>
    refine iff_of_true ?_ (Or.inr (by simp only [nanos]; omega))
    simp only [timestampMillis, Deduplicate.timestampMillis, toMillis] at h ⊢
    split_ifs at h ⊢
    exact h
  | millisecond => exact iff_of_true h (Or.inr (Dvd.intro_left value rfl))
  | microsecond | nanosecond =>
    cases h
    simp only [Deduplicate.timestampMillis, toMillis, Except.ok.injEq, nanos, Int.tdiv_eq_ediv]
    split_ifs <;> simp <;> omega

/-- The key encoding cuts a time as deduplication does. -/
theorem timestampParts_eq_iff {unit : TimeUnit} {value millis : Int} :
    (∃ rest, timestampParts unit value = .ok (millis, rest)) ↔
      Deduplicate.timestampMillis unit value = .ok millis := by
  cases unit <;> simp [timestampParts, Deduplicate.timestampMillis, toMillis]
  split_ifs <;> simp

/-- A time that is cut by rounding down lies in a window exactly if its milliseconds do. -/
theorem mem_window_iff {unit : TimeUnit} {value millis : Int}
    (h : Deduplicate.timestampMillis unit value = .ok millis) (shift : Int) (b : Bounds) :
    (b.start * 1000000 ≤ value * nanos unit + shift * 1000000 ∧
      value * nanos unit + shift * 1000000 < b.stop * 1000000) ↔
    b.start ≤ millis + shift ∧ millis + shift < b.stop := by
  cases unit with
  | second =>
    simp only [Deduplicate.timestampMillis, toMillis] at h
    split_ifs at h
    cases h
    simp only [nanos]
    omega
  | millisecond | microsecond | nanosecond =>
    cases h
    simp only [nanos]
    omega

/-- **The precision of event time.**  The windows of a row come to an end, its time lies in all of
them in its own precision and is cut to milliseconds as everywhere else, exactly if the time is not
before 1970 or is a whole millisecond, and no bound of its windows wraps around.  Local time is
`shift` milliseconds ahead of it. -/
theorem event_time_precision_iff (window : WindowPlan) (unit : TimeUnit) (value millis shift : Int)
    (hvalid : window.validate = .ok ()) (hmillis : timestampMillis unit value = .ok millis)
    (htime : I64.InRange (millis + shift)) :
    (Ends window (millis + shift) ∧
      (∀ fuel, ∀ b ∈ assignWindows window (millis + shift) fuel,
        b.start * 1000000 ≤ value * nanos unit + shift * 1000000 ∧
        value * nanos unit + shift * 1000000 < b.stop * 1000000) ∧
      Deduplicate.timestampMillis unit value = .ok millis ∧
      ∃ rest, timestampParts unit value = .ok (millis, rest)) ↔
    (0 ≤ value ∨ 1000000 ∣ value * nanos unit) ∧ window.Exact (millis + shift) := by
  rw [timestampParts_eq_iff,
    and_self, ← timestampMillis_eq_iff hmillis, ← liesInWindows_iff hvalid htime,
    LiesInWindows]
  constructor
  · rintro ⟨hends, hin, hfloor⟩
    exact ⟨hfloor, hends, fun fuel b hb => (mem_window_iff hfloor shift b).mp (hin fuel b hb)⟩
  · rintro ⟨hfloor, hends, hin⟩
    exact ⟨hends, fun fuel b hb => (mem_window_iff hfloor shift b).mpr (hin fuel b hb), hfloor⟩

/-- Windows of ten milliseconds, one every five. -/
def hopTen : WindowPlan :=
  { kind := .hop, sizeMillis := 10, slideOrStepMillis := 5, offsetMillis := 0 }

/-- Windows of a second. -/
def tumbleSecond : WindowPlan :=
  { kind := .tumble, sizeMillis := 1000, slideOrStepMillis := 0, offsetMillis := 0 }

theorem event_time_precision_micros :
    Ends hopTen (-2 + 3) ∧
      (∀ fuel, ∀ b ∈ assignWindows hopTen (-2 + 3) fuel,
        b.start * 1000000 ≤ -2000 * 1000 + 3 * 1000000 ∧
        -2000 * 1000 + 3 * 1000000 < b.stop * 1000000) ∧
      Deduplicate.timestampMillis .microsecond (-2000) = .ok (-2) ∧
      ∃ rest, timestampParts .microsecond (-2000) = .ok (-2, rest) :=
  (event_time_precision_iff hopTen .microsecond (-2000) (-2) 3 rfl rfl (by decide)).mpr
    ⟨Or.inr (by decide), Or.inl ⟨2, by decide, by decide, fun _ => by decide⟩⟩

/-- One microsecond before 1970 is put into the window from 1970 on. -/
theorem last_microsecond_misplaced : timestampMillis .microsecond (-1) = .ok 0 ∧
    assignWindows tumbleSecond 0 1 = [⟨0, 1000⟩] ∧
    Deduplicate.timestampMillis .microsecond (-1) = .ok (-1) :=
  ⟨rfl, rfl, rfl⟩

-- near the end of the range the end of a window wraps around, and near its start nothing does
example : assignWindows tumbleSecond 9223372036854775307 1 =
    [⟨9223372036854775000, -9223372036854775616⟩] := by decide

example : assignWindows tumbleSecond (I64.min + 808) 1 =
    [⟨-9223372036854775000, -9223372036854774000⟩] := by decide

end StreamFusion.Window
