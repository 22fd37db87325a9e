import StreamFusion.Lib.Outcome

/-!
# Emptying a queue in batches

A call takes some elements from the front of a queue, as many as its argument allows, and is
repeated until it returns nothing.  The batches then make up the whole queue, however they are
sized, and it takes at most one call for each element and one for the empty answer.

The queue is a view of the state, `R s taken s'` is what is known about the state after `taken` has
been removed from it, and both compose over the calls.
-/

namespace Drain

open List

variable {ε σ α κ : Type}

/-- Repeats a call until it returns nothing; `none` if the arguments run out before. -/
def drain (step : κ → σ → Except ε (List α × σ)) : List κ → σ → Except ε (Option (List α × σ))
  | [], _ => .ok none
  | k :: ks, s => do
    let (batch, s) ← step k s
    if batch.isEmpty then
      .ok (some ([], s))
    else
      let rest ← drain step ks s
      .ok (rest.map fun r => (batch ++ r.1, r.2))

/-- A call that takes a non-empty front part of the queue, if there is one. -/
def Serves (queue : σ → List α) (R : σ → List α → σ → Prop)
    (step : σ → Except ε (List α × σ)) : Prop :=
  ∀ s, ∃ n s', 0 < n ∧ step s = .ok ((queue s).take n, s') ∧ R s ((queue s).take n) s' ∧
    queue s' = (queue s).drop n

/-- Calls that each take a front part drain the queue in order. -/
theorem drain_of_serves {queue : σ → List α} {R : σ → List α → σ → Prop}
    (htrans : ∀ s a s' b s'', R s a s' → R s' b s'' → R s (a ++ b) s'')
    {step : κ → σ → Except ε (List α × σ)} {ks : List κ}
    (hstep : ∀ k ∈ ks, Serves queue R (step k)) (s : σ) :
    ∃ result, drain step ks s = .ok result ∧
      (∀ taken s', result = some (taken, s') → taken = queue s ∧ R s (queue s) s') ∧
      ((queue s).length < ks.length → result.isSome = true) := by
  induction ks generalizing s with
  | nil => exact ⟨none, rfl, by simp, by simp⟩
  | cons k ks ih =>
    obtain ⟨hk, hks⟩ := forall_mem_cons.mp hstep
    obtain ⟨n, s', hn, hcall, hR, hqueue⟩ := hk s
    rw [drain, hcall, Except.ok_bind]
    dsimp only
    by_cases hempty : ((queue s).take n).isEmpty = true
    · have hnil : queue s = [] := by
        rw [List.isEmpty_iff, List.take_eq_nil_iff] at hempty
        exact hempty.resolve_left (by omega)
      rw [if_pos hempty]
      refine ⟨_, rfl, ?_, fun _ => rfl⟩
      rintro taken s'' heq
      cases heq
      rw [hnil] at hR ⊢
      exact ⟨rfl, by simpa using hR⟩
    · rw [if_neg hempty]
      obtain ⟨result, hrest, hspec, hsome⟩ := ih hks s'
      rw [hrest, Except.ok_bind]
      refine ⟨_, rfl, ?_, ?_⟩
      · intro taken s'' heq
        obtain ⟨⟨taken', s₃⟩, hresult, heq⟩ := Option.map_eq_some_iff.mp heq
        cases heq
        obtain ⟨rfl, hR'⟩ := hspec taken' s₃ hresult
        have := htrans _ _ _ _ _ hR hR'
        rw [hqueue, take_append_drop] at this
        exact ⟨by rw [hqueue, take_append_drop], this⟩
      · intro hlength
        rw [Option.isSome_map]
        have hpos : 0 < (queue s).length := by
          rw [length_pos_iff]
          rintro hnil
          simp [hnil] at hempty
        refine hsome ?_
        rw [hqueue, length_drop]
        rw [length_cons] at hlength
        omega

end Drain
