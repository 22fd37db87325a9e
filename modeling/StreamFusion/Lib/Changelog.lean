import Mathlib

/-!
# Changelogs

A changelog is a list of changes to a table of rows.  `replayKey` plays the changes of one key back
and refuses those that do not fit its value, so that a changelog is valid exactly if the replay of
every key succeeds.
-/

namespace Changelog

/-- The kind of a change.  An update is a pair of changes. -/
inductive Kind where
  | insert
  | updateBefore
  | updateAfter
  | delete
  deriving DecidableEq, Repr

/-- INSERT and UPDATE_AFTER. -/
def Kind.adds : Kind → Bool
  | insert => true
  | updateBefore => false
  | updateAfter => true
  | delete => false

/-- A change: its kind and its row. -/
structure Change (ρ : Type) where
  kind : Kind
  row : ρ
  deriving DecidableEq, Repr

section Keyed

variable {K V : Type} [DecidableEq K] [DecidableEq V]

/-- The changes that turn the value of one key into another one, or into none. -/
def changesOf (k : K) : Option V → Option V → List (Change (K × V))
  | none, none => []
  | none, some v => [⟨.insert, (k, v)⟩]
  | some v, none => [⟨.delete, (k, v)⟩]
  | some v, some v' => if v = v' then [] else [⟨.updateBefore, (k, v)⟩, ⟨.updateAfter, (k, v')⟩]

/-! ### The changes of one key -/

/-- Plays the changes of one key back.  An insertion finds no row, an update is a pair that names
the row it replaces, and a deletion names the row it removes; anything else is refused. -/
def replayKey : Option V → List (Change V) → Option (Option V)
  | value, [] => some value
  | none, ⟨.insert, v⟩ :: rest => replayKey (some v) rest
  | some current, ⟨.updateBefore, v⟩ :: ⟨.updateAfter, v'⟩ :: rest =>
    if v = current then replayKey (some v') rest else none
  | some current, ⟨.delete, v⟩ :: rest => if v = current then replayKey none rest else none
  | _, _ => none

/-- The changes of a key, without the key. -/
def changesFor (k : K) (changes : List (Change (K × V))) : List (Change V) :=
  (changes.filter fun change => change.row.1 = k).map fun change => ⟨change.kind, change.row.2⟩

omit [DecidableEq V] in
theorem changesFor_append (k : K) (changes changes' : List (Change (K × V))) :
    changesFor k (changes ++ changes') = changesFor k changes ++ changesFor k changes' := by
  simp [changesFor]

theorem changesFor_changesOf (k k' : K) (value value' : Option V) :
    changesFor k' (changesOf k value value') =
      if k = k' then changesFor k (changesOf k value value') else [] := by
  by_cases hk : k = k'
  · rw [if_pos hk, hk]
  · rw [if_neg hk, changesFor, List.map_eq_nil_iff, List.filter_eq_nil_iff]
    intro change hchange
    have hkey : change.row.1 = k := by
      rcases value with _ | v <;> rcases value' with _ | v' <;> simp only [changesOf] at hchange
      · cases hchange
      · rw [List.mem_singleton.mp hchange]
      · rw [List.mem_singleton.mp hchange]
      · split at hchange
        · cases hchange
        · rcases List.mem_cons.mp hchange with rfl | hchange
          · rfl
          · rw [List.mem_singleton.mp hchange]
    simpa [hkey] using hk

/-- The changes from one value to another are played back in front of any others. -/
theorem replayKey_changesOf_append (k : K) (value value' : Option V) (changes : List (Change V)) :
    replayKey value (changesFor k (changesOf k value value') ++ changes) =
        replayKey value' changes := by
  rcases value with _ | v <;> rcases value' with _ | v'
  · rfl
  · simp [changesOf, changesFor, replayKey]
  · simp [changesOf, changesFor, replayKey]
  · by_cases hv : v = v'
    · simp [changesOf, changesFor, hv]
    · simp [changesOf, changesFor, hv, replayKey]

end Keyed

end Changelog
