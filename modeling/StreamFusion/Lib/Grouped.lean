import StreamFusion.Lib.Outcome

/-!
# Batches of keyed rows

A keyed operator is described row by row: a row finds the state of its key, changes it and emits
something.  It is run batch by batch: the states of all keys of a batch are loaded, the rows work on
the loaded copies, and what was touched is written back at the end.

`Machine` is the description and `Machine.run` its row-by-row run.  `stage` is the inner loop of a
batch: the same loop over copies, with a step that may fail.  By `stage_simulates` the loop emits
what the machine emits, provided the copies simulate the states and the step keeps the simulation.
The simulation may depend on the rows of the key still to come, because a batch may load only what
its own rows need.
-/

namespace Grouped

open List Except

variable {K R E A S ε : Type}

/-- A keyed operator, row by row. -/
structure Machine (K R E A : Type) where
  key : R → K
  step : A → R → A × List E

namespace Machine

variable (M : Machine K R E A)

/-- The state after some rows. -/
def fold (a : A) (rows : List R) : A := rows.foldl (fun a r => (M.step a r).1) a

@[simp] theorem fold_nil (a : A) : M.fold a [] = a := rfl

@[simp] theorem fold_cons (a : A) (r : R) (rows : List R) :
    M.fold a (r :: rows) = M.fold (M.step a r).1 rows := rfl

theorem fold_append (a : A) (rows rows' : List R) : M.fold a (rows ++ rows') =
    M.fold (M.fold a rows) rows' :=
  foldl_append ..

end Machine

variable [DecidableEq K]

/-- The rows of one key. -/
def rowsOf (key : R → K) (k : K) (rows : List R) : List R := rows.filter fun r => key r = k

@[simp] theorem rowsOf_nil (key : R → K) (k : K) : rowsOf key k [] = [] := rfl

theorem rowsOf_cons_self (key : R → K) (r : R) (rows : List R) :
    rowsOf key (key r) (r :: rows) = r :: rowsOf key (key r) rows := by
  simp [rowsOf]

variable {k : K} {r : R}

theorem rowsOf_cons_of_ne (key : R → K) (h : key r ≠ k) (rows : List R) :
    rowsOf key k (r :: rows) = rowsOf key k rows := by
  simp [rowsOf, h]

variable {key : R → K} {rows : List R}

theorem mem_rowsOf : r ∈ rowsOf key k rows ↔ r ∈ rows ∧ key r = k := by
  simp [rowsOf]

variable {R' : Type}

theorem rowsOf_map (f : R' → R) (key : R → K) (k : K) (rows : List R') :
    rowsOf key k (rows.map f) = (rowsOf (fun r => key (f r)) k rows).map f :=
  filter_map ..

theorem rowsOf_append (key : R → K) (k : K) (rows rows' : List R) :
    rowsOf key k (rows ++ rows') = rowsOf key k rows ++ rowsOf key k rows' :=
  filter_append ..

namespace Machine

variable (M : Machine K R E A)

/-- The run of a sequence of rows from the states of all keys. -/
def run (state : K → A) : List R → (K → A) × List E
  | [] => (state, [])
  | r :: rows =>
    let (a, out) := M.step (state (M.key r)) r
    let (final, rest) := run (Function.update state (M.key r) a) rows
    (final, out ++ rest)

section

variable (state : K → A)

@[simp] theorem run_nil : M.run state [] = (state, []) := rfl

theorem run_cons (r : R) (rows : List R) : M.run state (r :: rows) =
      ((M.run (Function.update state (M.key r) (M.step (state (M.key r)) r).1) rows).1,
        (M.step (state (M.key r)) r).2 ++
          (M.run (Function.update state (M.key r) (M.step (state (M.key r)) r).1) rows).2) := rfl

theorem run_append (rows rows' : List R) : M.run state (rows ++ rows') =
      ((M.run (M.run state rows).1 rows').1,
        (M.run state rows).2 ++ (M.run (M.run state rows).1 rows').2) := by
  induction rows generalizing state with
  | nil => rfl
  | cons r rows ih => rw [cons_append, run_cons, ih, run_cons, append_assoc]

/-- A key only sees its own rows. -/
theorem run_fst_apply (rows : List R) (k : K) :
    (M.run state rows).1 k = M.fold (state k) (rowsOf M.key k rows) := by
  induction rows generalizing state with
  | nil => rfl
  | cons r rows ih =>
    rw [run_cons]
    rw [ih]
    by_cases hk : M.key r = k
    · subst hk
      rw [rowsOf_cons_self, fold_cons, Function.update_self]
    · rw [rowsOf_cons_of_ne _ hk, Function.update_of_ne (Ne.symm hk)]

end

/-- What the rows emit one after the other. -/
def emits (a : A) : List R → List E
  | [] => []
  | r :: rows => (M.step a r).2 ++ emits (M.step a r).1 rows

/-- The output of a run, seen from one key. -/
theorem run_snd_filter {group : E → K} (hgroup : ∀ a r, ∀ e ∈ (M.step a r).2, group e = M.key r)
    (state : K → A) (rows : List R) (k : K) :
    (M.run state rows).2.filter (fun e => group e = k) =
        M.emits (state k) (rowsOf M.key k rows) := by
  induction rows generalizing state with
  | nil => rfl
  | cons r rows ih =>
    rw [run_cons]
    rw [filter_append, ih]
    by_cases hk : M.key r = k
    · subst hk
      have hall : ∀ e ∈ (M.step (state (M.key r)) r).2, decide (group e = M.key r) = true :=
        fun e he => decide_eq_true (hgroup _ _ e he)
      rw [filter_eq_self.mpr hall, rowsOf_cons_self, emits, Function.update_self]
    · have hnone : ∀ e ∈ (M.step (state (M.key r)) r).2, ¬ decide (group e = k) = true := by
        intro e he heq
        exact hk ((hgroup _ _ e he).symm.trans (of_decide_eq_true heq))
      rw [filter_eq_nil_iff.mpr hnone, nil_append, rowsOf_cons_of_ne _ hk,
        Function.update_of_ne (Ne.symm hk)]

end Machine

/-- The loop of a batch over the copies of the states. -/
def stage (key : R → K) (step : S → R → Except ε (S × List E)) (staged : K → S) :
    List R → Except ε ((K → S) × List E)
  | [] => .ok (staged, [])
  | r :: rows => do
    let (s, out) ← step (staged (key r)) r
    let (final, rest) ← stage key step (Function.update staged (key r) s) rows
    .ok (final, out ++ rest)

/-- **Batch rule.**  Copies that simulate the states go through the loop as the states go through
the rows: the loop succeeds, emits what the machine emits, and the final copies simulate the final
states.  Only the loaded keys `on` have to simulate anything. -/
theorem stage_simulates (M : Machine K R E A) (step : S → R → Except ε (S × List E))
    (sim : K → List R → S → A → Prop) (on : K → Prop)
    (hstep : ∀ r rest s a, sim (M.key r) (r :: rest) s a →
      ∃ s', step s r = .ok (s', (M.step a r).2) ∧ sim (M.key r) rest s' (M.step a r).1)
    (rows : List R) (hon : ∀ r ∈ rows, on (M.key r)) (staged : K → S) (state : K → A)
    (h : ∀ k, on k → sim k (rowsOf M.key k rows) (staged k) (state k)) :
    ∃ staged', stage M.key step staged rows = .ok (staged', (M.run state rows).2) ∧
      ∀ k, on k → sim k [] (staged' k) ((M.run state rows).1 k) := by
  induction rows generalizing staged state with
  | nil => exact ⟨staged, rfl, h⟩
  | cons r rows ih =>
    obtain ⟨honr, honrows⟩ := forall_mem_cons.mp hon
    have hr := h (M.key r) honr
    rw [rowsOf_cons_self] at hr
    obtain ⟨s', hs', hsim⟩ := hstep r _ _ _ hr
    -- the other keys keep their copies and lose no row
    have hnext : ∀ k, on k → sim k (rowsOf M.key k rows) (Function.update staged (M.key r) s' k)
        (Function.update state (M.key r) (M.step (state (M.key r)) r).1 k) := by
      intro k hk
      by_cases hkr : M.key r = k
      · subst hkr
        simpa only [Function.update_self] using hsim
      · have hk' := h k hk
        rw [rowsOf_cons_of_ne _ hkr] at hk'
        simpa only [Function.update_of_ne (Ne.symm hkr)] using hk'
    obtain ⟨staged', hrun, hfinal⟩ := ih honrows _ _ hnext
    refine ⟨staged', ?_, hfinal⟩
    rw [stage, hs', Machine.run_cons]
    show (do
      let (final, rest) ← stage M.key step (Function.update staged (M.key r) s') rows
      ok (final, (M.step (state (M.key r)) r).2 ++ rest)) = _
    rw [hrun]
    rfl

/-- A loop that succeeds has taken every step. -/
theorem step_of_stage_ok {step : S → R → Except ε (S × List E)}
    {staged : K → S} {result : (K → S) × List E} (h : stage key step staged rows = .ok result) :
    ∀ r ∈ rows, ∃ s next, step s r = .ok next := by
  induction rows generalizing staged result with
  | nil => simp
  | cons r rows ih =>
    rw [stage] at h
    obtain ⟨⟨s, out⟩, hstep, hrest⟩ := bind_eq_ok.mp h
    obtain ⟨⟨final, rest⟩, htail, -⟩ := bind_eq_ok.mp hrest
    intro r' hr'
    rcases mem_cons.mp hr' with rfl | hr'
    · exact ⟨_, _, hstep⟩
    · exact ih htail r' hr'

/-- A loop whose step cannot fail is the run of a machine. -/
theorem stage_ok (M : Machine K R E A) (staged : K → A) (rows : List R) :
    stage M.key (fun a r => (.ok (M.step a r) : Except ε (A × List E))) staged rows =
      .ok (M.run staged rows) := by
  induction rows generalizing staged with
  | nil => rfl
  | cons r rows ih =>
    rw [stage, Machine.run_cons]
    show (do
      let (final, rest) ← stage M.key (fun a r => (.ok (M.step a r) : Except ε (A × List E)))
        (Function.update staged (M.key r) (M.step (staged (M.key r)) r).1) rows
      ok (final, (M.step (staged (M.key r)) r).2 ++ rest)) = _
    rw [ih]
    rfl

/-- Two machines over the same rows, the states of the first simulating those of the second. -/
theorem Machine.run_simulates (M : Machine K R E A) (N : Machine K R E S)
    (hkey : N.key = M.key) (sim : List R → S → A → Prop)
    (hstep : ∀ r rest s a, sim (r :: rest) s a →
      (N.step s r).2 = (M.step a r).2 ∧ sim rest (N.step s r).1 (M.step a r).1)
    (rows : List R) (state' : K → S) (state : K → A)
    (h : ∀ k, sim (rowsOf M.key k rows) (state' k) (state k)) :
    (N.run state' rows).2 = (M.run state rows).2 ∧
      ∀ k, sim [] ((N.run state' rows).1 k) ((M.run state rows).1 k) := by
  obtain ⟨final, hrun, hfinal⟩ := stage_simulates M
    (fun s r => (.ok (N.step s r) : Except Unit (S × List E))) (fun _ => sim) (fun _ => True)
    (fun r rest s a hs => ⟨_, by rw [← (hstep r rest s a hs).1], (hstep r rest s a hs).2⟩)
    rows (fun _ _ => trivial) _ _ fun k _ => h k
  rw [← hkey, stage_ok N, ok.injEq] at hrun
  rw [hrun]
  exact ⟨rfl, fun k => hfinal k trivial⟩

/-- The machine over rows that carry something more. -/
def Machine.comap {R' : Type} (M : Machine K R E A) (f : R' → R) : Machine K R' E A where
  key r := M.key (f r)
  step a r := M.step a (f r)

theorem Machine.run_comap (M : Machine K R E A) (f : R' → R) (state : K → A)
    (rows : List R') : (M.comap f).run state rows = M.run state (rows.map f) := by
  induction rows generalizing state with
  | nil => rfl
  | cons r rows ih => rw [run_cons, ih, map_cons, run_cons]; rfl

/-- Rows may carry something that the step does not look at. -/
theorem stage_map (f : R' → R) (key : R → K) (step : S → R → Except ε (S × List E))
    {step' : S → R' → Except ε (S × List E)} (rows : List R')
    (h : ∀ r ∈ rows, ∀ s, step' s r = step s (f r)) (staged : K → S) :
    stage (fun r => key (f r)) step' staged rows = stage key step staged (rows.map f) := by
  induction rows generalizing staged with
  | nil => rfl
  | cons r rows ih =>
    obtain ⟨hr, hrows⟩ := forall_mem_cons.mp h
    rw [stage, map_cons, stage, hr]
    rcases step (staged (key (f r))) (f r) with error | ⟨s, out⟩
    · rfl
    · show (do
        let (final, rest) ← stage (fun r =>
          key (f r)) step' (Function.update staged (key (f r)) s) rows
        ok (final, out ++ rest)) = _
      rw [ih hrows]
      rfl

/-- The keys of a batch, in the order of their first row. -/
def keysOf (key : R → K) : List R → List K
  | [] => []
  | r :: rows => key r :: (keysOf key rows).filter (· ≠ key r)

/-- The keys are those of the rows. -/
theorem mem_keysOf : k ∈ keysOf key rows ↔ ∃ r ∈ rows, key r = k := by
  induction rows with
  | nil => simp [keysOf]
  | cons r rows ih =>
    simp only [keysOf, mem_cons, mem_filter, ih, ne_eq, decide_not, Bool.not_eq_true',
      decide_eq_false_iff_not, exists_eq_or_imp]
    constructor
    · rintro (rfl | ⟨h, -⟩)
      · exact Or.inl rfl
      · exact Or.inr h
    · rintro (h | h)
      · exact Or.inl h.symm
      · by_cases hk : k = key r
        · exact Or.inl hk
        · exact Or.inr ⟨h, hk⟩

theorem nodup_keysOf (key : R → K) (rows : List R) : (keysOf key rows).Nodup := by
  induction rows with
  | nil => exact nodup_nil
  | cons r rows ih =>
    refine nodup_cons.mpr ⟨?_, ih.filter _⟩
    simp

/-- The copies of some keys. -/
theorem lookup_map {f : K → A} {keys : List K} :
    (keys.map fun k => (k, f k)).lookup k = if k ∈ keys then some (f k) else none := by
  induction keys with
  | nil => rfl
  | cons k' keys ih =>
    rw [map_cons, lookup_cons]
    by_cases hkey : k = k'
    · simp [hkey]
    · have hbeq : (k == k') = false := by simpa using hkey
      rw [hbeq, ih]
      simp [hkey]

theorem rowsOf_eq_nil (h : k ∉ keysOf key rows) : rowsOf key k rows = [] := by
  rw [eq_nil_iff_forall_not_mem]
  intro r hr
  obtain ⟨hmem, hkey⟩ := mem_rowsOf.mp hr
  exact h (mem_keysOf.mpr ⟨r, hmem, hkey⟩)

theorem keysOf_append_singleton (key : R → K) (rows : List R) (r : R) : keysOf key (rows ++ [r]) =
      if key r ∈ keysOf key rows then keysOf key rows else keysOf key rows ++ [key r] := by
  induction rows with
  | nil => simp [keysOf]
  | cons r' rows ih =>
    rw [cons_append, keysOf, ih, keysOf]
    by_cases hmem : key r ∈ keysOf key rows <;> by_cases hr : key r = key r' <;>
      simp_all [filter_append]

end Grouped
