import StreamFusion.Lib.Grouped

/-!
# Changes of one key

An operator with a state for every key processes rows one by one, and a row concerns one key.  It
may read and write whatever else the operator has, such as clocks and timers, but of the states only
that of its own key.  `KeyedChange` is such an operator, with a lens to its states, and
`change_local` says that the states of the other keys are neither read nor written.

A run can therefore be made on any states that agree with the operator's own on the keys of its rows
(`run_withStates`), in particular on copies of just those states.
-/

namespace Keyed

open Grouped Function List

variable {O K R E C A : Type} [DecidableEq K]

/-- An operator of which a row changes the state of one key.  `change` is told the position of its
row; only what `content` leaves out of the emitted rows depends on it. -/
structure KeyedChange (O K R E C A : Type) [DecidableEq K] where
  key : R → K
  states : O → K → A
  withStates : O → (K → A) → O
  change : R → Nat → O → O × List E
  content : E → C
  states_withStates : ∀ o g, states (withStates o g) = g
  withStates_states : ∀ o, withStates o (states o) = o
  withStates_withStates : ∀ o g g', withStates (withStates o g) g' = withStates o g'
  change_local : ∀ r n o g, change r n (withStates o (update g (key r) (states o (key r)))) =
    (withStates (change r n o).1 (update g (key r) (states (change r n o).1 (key r))),
      (change r n o).2)
  change_position : ∀ r n n' o, (change r n o).1 = (change r n' o).1 ∧
    (change r n o).2.map content = (change r n' o).2.map content

namespace KeyedChange

variable (c : KeyedChange O K R E C A)

/-- The rows in order, from the position `first` on. -/
def run (first : Nat) : List R → O → O × List E
  | [], o => (o, [])
  | r :: rows, o =>
    let (changed, emitted) := c.change r first o
    let (final, rest) := run (first + 1) rows changed
    (final, emitted ++ rest)

theorem run_cons (first : Nat) (r : R) (rows : List R) (o : O) :
    c.run first (r :: rows) o = ((c.run (first + 1) rows (c.change r first o).1).1,
      (c.change r first o).2 ++ (c.run (first + 1) rows (c.change r first o).1).2) := rfl

/-- What every row keeps, a run keeps. -/
theorem run_invariant (inv : O → Prop) (hchange : ∀ r n o, inv o → inv (c.change r n o).1)
    (first : Nat) (rows : List R) {o : O} (ho : inv o) : inv (c.run first rows o).1 := by
  induction rows generalizing first o with
  | nil => exact ho
  | cons r rows ih => exact ih (first + 1) (hchange r first o ho)

/-- The position of the first row is not seen. -/
theorem run_position (first first' : Nat) (rows : List R) (o : O) :
    (c.run first rows o).1 = (c.run first' rows o).1 ∧
      (c.run first rows o).2.map c.content = (c.run first' rows o).2.map c.content := by
  induction rows generalizing first first' o with
  | nil => exact ⟨rfl, rfl⟩
  | cons r rows ih =>
    obtain ⟨hchange, hcontent⟩ := c.change_position r first first' o
    obtain ⟨hfinal, hrest⟩ := ih (first + 1) (first' + 1) (c.change r first' o).1
    rw [run_cons, run_cons, hchange, map_append, map_append, hcontent, hrest]
    exact ⟨hfinal, rfl⟩

/-- Two runs in a row are a run of all the rows. -/
theorem run_append (first : Nat) (rows rows' : List R) (o : O) : c.run first (rows ++ rows') o =
      ((c.run (first + rows.length) rows' (c.run first rows o).1).1,
        (c.run first rows o).2 ++
            (c.run (first + rows.length) rows' (c.run first rows o).1).2) := by
  induction rows generalizing first o with
  | nil => rfl
  | cons r rows ih =>
    rw [cons_append, run_cons, ih, run_cons, append_assoc, length_cons,
      Nat.add_right_comm first 1, Nat.add_assoc first]

/-- A row leaves the states of the other keys. -/
theorem states_change_of_ne (r : R) (n : Nat) (o : O) {k : K} (h : k ≠ c.key r) :
    c.states (c.change r n o).1 k = c.states o k := by
  have hlocal := congrArg Prod.fst (c.change_local r n o (c.states o))
  rw [update_eq_self, c.withStates_states] at hlocal
  rw [hlocal, c.states_withStates, update_of_ne h]

/-- **Locality.**  A run on other states that agree on the keys of its rows emits the same and
leaves the same states of these keys. -/
theorem run_withStates (first : Nat) (rows : List R) (o : O) (g : K → A)
    (h : ∀ r ∈ rows, g (c.key r) = c.states o (c.key r)) :
    c.run first rows (c.withStates o g) = (c.withStates (c.run first rows o).1 fun k =>
          if k ∈ rows.map c.key then c.states (c.run first rows o).1 k else g k,
        (c.run first rows o).2) := by
  induction rows generalizing first o g with
  | nil => rfl
  | cons r rows ih =>
    obtain ⟨hr, hrows⟩ := forall_mem_cons.mp h
    have hstart : g = update g (c.key r) (c.states o (c.key r)) := by
      rw [← hr, update_eq_self]
    have hchange := c.change_local r first o g
    rw [← hstart] at hchange
    have hagree : ∀ r' ∈ rows, update g (c.key r)
        (c.states (c.change r first o).1 (c.key r)) (c.key r') =
          c.states (c.change r first o).1 (c.key r') := by
      intro r' hr'
      by_cases hkey : c.key r' = c.key r
      · rw [hkey, update_self]
      · rw [update_of_ne hkey, hrows r' hr', c.states_change_of_ne r first o hkey]
    rw [run_cons, run_cons, hchange]
    dsimp only
    rw [ih (first + 1) (c.change r first o).1 _ hagree]
    refine Prod.ext (congrArg (c.withStates _) (funext fun k => ?_)) rfl
    rw [map_cons]
    by_cases hk : k ∈ rows.map c.key
    · rw [if_pos hk, if_pos (mem_cons_of_mem _ hk)]
    · rw [if_neg hk]
      by_cases hkey : k = c.key r
      · have hnot : c.states (c.run (first + 1) rows (c.change r first o).1).1 k =
            c.states (c.change r first o).1 k := by
          have hrest := ih (first + 1) (c.change r first o).1 (c.states (c.change r first o).1)
            (fun _ _ => rfl)
          rw [c.withStates_states] at hrest
          rw [hrest, c.states_withStates, if_neg hk]
        rw [if_pos (mem_cons.mpr (.inl hkey)), hnot, hkey, update_self]
      · rw [update_of_ne hkey, if_neg (mem_cons.not.mpr (not_or.mpr ⟨hkey, hk⟩))]

/-- A run leaves the states of the keys that it has no row of. -/
theorem states_run_of_notMem (first : Nat) (rows : List R) (o : O) {k : K}
    (h : k ∉ rows.map c.key) : c.states (c.run first rows o).1 k = c.states o k := by
  have hrun := c.run_withStates first rows o (c.states o) fun _ _ => rfl
  rw [c.withStates_states] at hrun
  rw [hrun, c.states_withStates, if_neg h]

end KeyedChange

end Keyed
