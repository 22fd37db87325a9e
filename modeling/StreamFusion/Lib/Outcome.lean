import Mathlib

/-!
# Computations that can fail

A fallible computation is an `Except ε α`, and one that also changes a state is an `Op ε σ α`.  An
`Op` keeps the changes made before a failure, as a method that returns an error through `&mut self`
does; so "the operation failed" and "the operation failed and changed nothing" are different
statements.

The lemmas take such computations apart: a bind succeeds exactly if both of its halves do, and a
loop over a list is described by what one iteration does.
-/

namespace Except

open List

variable {ε α β : Type}

variable {f : α → Except ε β} {x : Except ε α}

theorem bind_eq_ok {b : β} : x >>= f = .ok b ↔ ∃ a, x = .ok a ∧ f a = .ok b := by
  cases x <;> simp [bind, Except.bind]

@[simp] theorem ok_bind (a : α) (f : α → Except ε β) : (Except.ok a >>= f) = f a := rfl

@[simp] theorem error_bind (e : ε) (f : α → Except ε β) :
    ((Except.error e : Except ε α) >>= f) = .error e := rfl

@[simp] theorem pure_eq_ok (a : α) : (pure a : Except ε α) = .ok a := rfl

/-- A check that has passed. -/
theorem ite_error_eq_ok {p : Prop} [Decidable p] {e : ε} {a : α} :
    (if p then .error e else x) = .ok a ↔ ¬ p ∧ x = .ok a := by
  by_cases h : p <;> simp [h]

variable {as : List α}

theorem of_cons_eq_ok {xs : Except ε (List α)}
    (h : (do let a ← x; let as ← xs; .ok (a :: as)) = .ok as) :
    ∃ a rest, x = .ok a ∧ xs = .ok rest ∧ as = a :: rest := by
  obtain ⟨a, ha, h⟩ := bind_eq_ok.mp h
  obtain ⟨rest, hrest, h⟩ := bind_eq_ok.mp h
  exact ⟨a, rest, ha, hrest, (Except.ok.inj h).symm⟩

theorem mapM_congr {g : α → Except ε β} (h : ∀ a ∈ as, f a = g a) : as.mapM f = as.mapM g := by
  induction as with
  | nil => rfl
  | cons a as ih =>
    obtain ⟨ha, has⟩ := forall_mem_cons.mp h
    rw [mapM_cons, mapM_cons, ha, ih has]

/-- A traversal succeeds if every element does. -/
theorem mapM_of_ok {g : α → β} (h : ∀ a ∈ as, f a = .ok (g a)) : as.mapM f = .ok (as.map g) := by
  induction as with
  | nil => rfl
  | cons a as ih =>
    obtain ⟨ha, has⟩ := forall_mem_cons.mp h
    rw [mapM_cons, ha, ok_bind, ih has]
    rfl

/-- A pass succeeds if every step does. -/
theorem mapM_eq_ok {bs : List β} : as.mapM f = .ok bs ↔
    List.Forall₂ (fun a b => f a = .ok b) as bs := by
  induction as generalizing bs with
  | nil =>
    rw [mapM_nil, forall₂_nil_left_iff]
    exact ⟨fun h => (Except.ok.inj h).symm, fun h => congrArg Except.ok h.symm⟩
  | cons a as ih =>
    rw [mapM_cons, bind_eq_ok]
    constructor
    · rintro ⟨b, hb, htail⟩
      obtain ⟨bs', hbs, hcons⟩ := bind_eq_ok.mp htail
      obtain rfl := Except.ok.inj hcons
      exact .cons hb (ih.mp hbs)
    · rintro (_ | ⟨hb, hbs⟩)
      exact ⟨_, hb, bind_eq_ok.mpr ⟨_, ih.mpr hbs, rfl⟩⟩

/-- A traversal succeeds exactly if every element does. -/
theorem exists_mapM_eq_ok : (∃ bs, as.mapM f = .ok bs) ↔ ∀ a ∈ as, ∃ b, f a = .ok b := by
  simp only [mapM_eq_ok]
  constructor
  · rintro ⟨bs, h⟩
    induction h with
    | nil => exact forall_mem_nil _
    | cons hb _ ih => exact forall_mem_cons.mpr ⟨⟨_, hb⟩, ih⟩
  · intro h
    induction as with
    | nil => exact ⟨[], .nil⟩
    | cons a as ih =>
      obtain ⟨⟨b, hb⟩, has⟩ := forall_mem_cons.mp h
      obtain ⟨bs, hbs⟩ := ih has
      exact ⟨b :: bs, .cons hb hbs⟩

/-- A loop of checks succeeds exactly if every check does. -/
theorem forM_eq_ok {f : α → Except ε Unit} : as.forM f = .ok () ↔ ∀ a ∈ as, f a = .ok () := by
  induction as with
  | nil => exact ⟨fun _ => forall_mem_nil _, fun _ => rfl⟩
  | cons a as ih =>
    show (f a >>= fun _ => as.forM f) = _ ↔ _
    rw [bind_eq_ok, forall_mem_cons, ← ih]
    exact ⟨fun ⟨_, ha, has⟩ => ⟨ha, has⟩, fun ⟨ha, has⟩ => ⟨_, ha, has⟩⟩

end Except

/-- A computation over a state that may fail and keeps what it changed before it failed. -/
def Op (ε σ α : Type) : Type := σ → Except ε α × σ

namespace Op

variable {ε σ α β : Type}

instance : Monad (Op ε σ) where
  pure a := fun s => (.ok a, s)
  bind x f := fun s =>
    match x s with
    | (.ok a, s') => f a s'
    | (.error e, s') => (.error e, s')

instance : LawfulMonad (Op ε σ) :=
  LawfulMonad.mk' _
    (fun x => by
      funext s
      show (match x s with | (.ok a, s') => (.ok a, s') | (.error e, s') => (.error e, s')) = x s
      rcases x s with ⟨_ | _, _⟩ <;> rfl)
    (fun _ _ => rfl)
    (fun x f g => by
      funext s
      show (match (match x s with | (.ok a, s') => f a s' | (.error e, s') => (.error e, s')) with
        | (.ok b, s') => g b s' | (.error e, s') => (.error e, s')) =
        (match x s with | (.ok a, s') => (f a >>= g) s' | (.error e, s') => (.error e, s'))
      rcases x s with ⟨_ | _, _⟩ <;> rfl)

/-- A fallible computation that does not touch the state. -/
def lift (x : Except ε α) : Op ε σ α := fun s => (x, s)

/-- The state. -/
def get : Op ε σ σ := fun s => (.ok s, s)

/-- Changes the state. -/
def modify (f : σ → σ) : Op ε σ Unit := fun s => (.ok (), f s)

@[simp] theorem pure_apply (a : α) (s : σ) : (pure a : Op ε σ α) s = (.ok a, s) := rfl

@[simp] theorem lift_apply (x : Except ε α) (s : σ) : (lift x : Op ε σ α) s = (x, s) := rfl

@[simp] theorem lift_ok (a : α) : (lift (.ok a) : Op ε σ α) = pure a := rfl

@[simp] theorem get_apply (s : σ) : (get : Op ε σ σ) s = (.ok s, s) := rfl

variable {x : Op ε σ α} {f : α → Op ε σ β} {s s' : σ}

theorem bind_of_ok {a : α} (h : x s = (.ok a, s')) : (x >>= f) s = f a s' := by
  show (match x s with | (.ok a, s') => f a s' | (.error e, s') => (.error e, s')) = _
  rw [h]

theorem bind_of_error {e : ε} (h : x s = (.error e, s')) : (x >>= f) s = (.error e, s') := by
  show (match x s with | (.ok a, s') => f a s' | (.error e, s') => (.error e, s')) = _
  rw [h]

theorem bind_eq_ok {s'' : σ} {b : β} :
    (x >>= f) s = (.ok b, s'') ↔ ∃ a s', x s = (.ok a, s') ∧ f a s' = (.ok b, s'') := by
  rcases h : x s with ⟨_ | a, s'⟩
  · simp [bind_of_error h]
  · simp [bind_of_ok h]

theorem bind_eq_error {s'' : σ} {e : ε} : (x >>= f) s = (.error e, s'') ↔
      x s = (.error e, s'') ∨ ∃ a s', x s = (.ok a, s') ∧ f a s' = (.error e, s'') := by
  rcases h : x s with ⟨_ | a, s'⟩
  · simp [bind_of_error h]
  · simp [bind_of_ok h]

/-- Runs an operation for every element of a list, up to the first failure. -/
def forEach (f : α → Op ε σ Unit) : List α → Op ε σ Unit
  | [] => pure ()
  | a :: as => do
    f a
    forEach f as

@[simp] theorem forEach_nil (f : α → Op ε σ Unit) : forEach f [] = pure () := rfl

theorem forEach_cons (f : α → Op ε σ Unit) (a : α) (as : List α) :
    forEach f (a :: as) = (do f a; forEach f as) := rfl

variable {as : List α}

theorem forEach_congr {f g : α → Op ε σ Unit} (h : ∀ a ∈ as, f a = g a) :
    forEach f as = forEach g as := by
  induction as with
  | nil => rfl
  | cons a as ih =>
    obtain ⟨ha, has⟩ := List.forall_mem_cons.mp h
    rw [forEach_cons, forEach_cons, ha, ih has]

/-- **Loop rule.**  If every iteration keeps `rel` and steps the abstract state by `step`, the loop
steps it by the fold of `step`. -/
theorem forEach_ok_induction {τ : Type} {f : α → Op ε σ Unit} (step : τ → α → τ)
    (rel : σ → τ → Prop)
    (hstep : ∀ a s s' t, rel s t → f a s = (.ok (), s') → rel s' (step t a)) {t : τ} (h : rel s t)
    (hrun : forEach f as s = (.ok (), s')) :
    rel s' (as.foldl step t) := by
  induction as generalizing s t with
  | nil =>
    obtain rfl : s = s' := by simpa using hrun
    exact h
  | cons a as ih =>
    rw [forEach_cons, bind_eq_ok] at hrun
    obtain ⟨⟨⟩, s₁, h₁, h₂⟩ := hrun
    exact ih (hstep a s s₁ t h h₁) h₂

/-- **Progress rule.**  If `inv` makes every iteration succeed and is kept by it, the loop
succeeds. -/
theorem forEach_succeeds (f : α → Op ε σ Unit) (inv : σ → Prop) (as : List α)
    (hstep : ∀ a ∈ as, ∀ s, inv s → ∃ s', f a s = (.ok (), s') ∧ inv s') (h : inv s) :
    ∃ s', forEach f as s = (.ok (), s') ∧ inv s' := by
  induction as generalizing s with
  | nil => exact ⟨s, rfl, h⟩
  | cons a as ih =>
    obtain ⟨s₁, h₁, hinv₁⟩ := hstep a List.mem_cons_self s h
    obtain ⟨s₂, h₂, hinv₂⟩ := ih (fun b hb => hstep b (List.mem_cons_of_mem _ hb)) hinv₁
    exact ⟨s₂, by rw [forEach_cons, bind_of_ok h₁, h₂], hinv₂⟩

end Op
