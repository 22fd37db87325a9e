import StreamFusion.Lib.Wire

/-!
# Readers

A reader consumes a front part of a byte string and returns a value, or fails.  Its state is what is
left of the input, so a position in a buffer is the buffer without its front.

`Parses r bytes a` says that the reader returns `a` on `bytes` and stops right behind them, whatever
comes next.  It composes along the monad, which is how a decoder is shown to undo an encoder that
writes its fields one after the other.
-/

namespace Wire

open List

variable {ε α β : Type}

/-- A parser that takes its bytes from the front. -/
abbrev Reader (ε α : Type) := StateT Bytes (Except ε) α

namespace Reader

/-- Takes so many bytes. -/
def exactly (truncated : ε) (n : Nat) : Reader ε Bytes := fun input =>
  if n ≤ input.length then .ok (input.take n, input.drop n) else .error truncated

/-- Takes a little-endian number. -/
def leNat (truncated : ε) (w : Nat) : Reader ε Nat := do
  return Wire.leNat (← exactly truncated w)

/-- Fails. -/
def fail (error : ε) : Reader ε α := fun _ => .error error

/-- How many bytes are left. -/
def remaining : Reader ε Nat := fun input => .ok (input.length, input)

/-- Repeats a reader. -/
def times (r : Reader ε α) : Nat → Reader ε (List α)
  | 0 => pure []
  | n + 1 => do
    let a ← r
    return a :: (← times r n)

/-- The reader returns `a` on `bytes` and leaves what comes after them. -/
def Parses (r : Reader ε α) (bytes : Bytes) (a : α) : Prop :=
  ∀ rest, r (bytes ++ rest) = .ok (a, rest)

theorem parses_pure (a : α) : Parses (pure a : Reader ε α) [] a := fun _ => rfl

variable {r : Reader ε α} {f : α → Reader ε β} {bytes : Bytes} {a : α} {b : β}

/-- Readers in sequence read bytes in sequence. -/
theorem Parses.bind {bytes' : Bytes} (h : Parses r bytes a) (h' : Parses (f a) bytes' b) :
    Parses (r >>= f) (bytes ++ bytes') b := by
  intro rest
  show (r (bytes ++ bytes' ++ rest) >>= fun p => f p.1 p.2) = _
  rw [append_assoc, h (bytes' ++ rest)]
  exact h' rest

/-- The last step of a reader consumes nothing. -/
theorem Parses.bind_pure (h : Parses r bytes a) (h' : Parses (f a) [] b) :
    Parses (r >>= f) bytes b := by
  have := h.bind h'
  rwa [append_nil] at this

variable {rest : Bytes}

/-- The reader goes on with what comes after the bytes. -/
theorem Parses.run_bind {result : Except ε (β × Bytes)} (h : Parses r bytes a)
    (h' : f a rest = result) :
    (r >>= f) (bytes ++ rest) = result := by
  show (r (bytes ++ rest) >>= fun p => f p.1 p.2) = _
  rw [h rest]
  exact h'

variable {n : Nat}

theorem parses_exactly (truncated : ε) (h : bytes.length = n) :
    Parses (exactly truncated n) bytes bytes := by
  intro rest
  subst h
  simp [exactly]

variable {w : Nat}

theorem parses_leNat (truncated : ε) (h : n < 256 ^ w) : Parses (leNat truncated w)
    (leBytes w n) n := by
  intro rest
  have hread := parses_exactly truncated (length_leBytes w n) rest
  show (exactly truncated w (leBytes w n ++ rest) >>= fun p => _) = _
  rw [hread]
  show Except.ok (Wire.leNat (leBytes w n), rest) = _
  rw [leNat_leBytes_of_lt h]

variable {as : List α}

/-- A reader is repeated for each element. -/
theorem parses_times {encode : α → Bytes} (h : ∀ a ∈ as, Parses r (encode a) a) :
    Parses (times r as.length) (as.flatMap encode) as := by
  induction as with
  | nil => exact parses_pure []
  | cons a as ih =>
    obtain ⟨ha, has⟩ := forall_mem_cons.mp h
    rw [flatMap_cons]
    exact ha.bind ((ih has).bind_pure (parses_pure _))

variable {error : ε}

theorem parses_guard {p : Prop} [Decidable p] (hp : ¬ p)
    (h : Parses r bytes a) : Parses (if p then fail error else r) bytes a := by
  rwa [if_neg hp]

/-- The whole input is the encoding of the result. -/
theorem Parses.run (h : Parses r bytes a) : r bytes = .ok (a, []) := by
  have := h []
  rwa [append_nil] at this

/-! ## Taking a reader apart -/

variable {input : Bytes}

theorem bind_eq_ok : (r >>= f) input = .ok (b, rest) ↔
      ∃ a middle, r input = .ok (a, middle) ∧ f a middle = .ok (b, rest) := by
  show (r input >>= fun p => f p.1 p.2) = _ ↔ _
  rw [Except.bind_eq_ok, Prod.exists]

theorem pure_eq_ok {b : α} : (pure a : Reader ε α) input = .ok (b, rest) ↔ a = b ∧
    input = rest := by
  show Except.ok (a, input) = _ ↔ _
  rw [Except.ok.injEq, Prod.mk.injEq]

variable {truncated : ε}

theorem exactly_eq_ok : exactly truncated n input = .ok (bytes, rest) ↔
      n ≤ input.length ∧ input.take n = bytes ∧ input.drop n = rest := by
  rw [exactly]
  split
  · rename_i h
    simp [h]
  · rename_i h
    simp [h]

theorem leNat_eq_ok : leNat truncated w input = .ok (n, rest) ↔
      w ≤ input.length ∧ Wire.leNat (input.take w) = n ∧ input.drop w = rest := by
  rw [leNat, bind_eq_ok]
  constructor
  · rintro ⟨bytes, middle, hread, hpure⟩
    obtain ⟨hw, rfl, rfl⟩ := exactly_eq_ok.mp hread
    obtain ⟨rfl, rfl⟩ := pure_eq_ok.mp hpure
    exact ⟨hw, rfl, rfl⟩
  · rintro ⟨hw, rfl, rfl⟩
    exact ⟨_, _, exactly_eq_ok.mpr ⟨hw, rfl, rfl⟩, pure_eq_ok.mpr ⟨rfl, rfl⟩⟩

theorem lt_of_leNat_eq_ok (h : leNat truncated w input = .ok (n, rest)) : n < 256 ^ w := by
  obtain ⟨hw, rfl, -⟩ := leNat_eq_ok.mp h
  have hlt := Wire.leNat_lt (input.take w)
  rwa [length_take, Nat.min_eq_left hw] at hlt

/-- A reader that fails if a condition holds went on because it does not. -/
theorem guard_eq_ok {p : Prop} [Decidable p] :
    (if p then fail error else r) input = .ok (a, rest) ↔ ¬ p ∧ r input = .ok (a, rest) := by
  split
  · rename_i h
    simp [fail, h]
  · rename_i h
    simp [h]

theorem remaining_bind (f : Nat → Reader ε α) (input : Bytes) :
    (remaining >>= f) input = f input.length input := rfl

/-- The reader takes so many bytes whenever it succeeds. -/
def Consumes (r : Reader ε α) (n : Nat) : Prop :=
  ∀ input a rest, r input = .ok (a, rest) → n ≤ input.length ∧ input.drop n = rest

theorem consumes_leNat (truncated : ε) (w : Nat) : Consumes (leNat truncated w) w := by
  intro input n rest h
  obtain ⟨hw, -, hrest⟩ := leNat_eq_ok.mp h
  exact ⟨hw, hrest⟩

theorem consumes_pure (a : α) : Consumes (pure a : Reader ε α) 0 := by
  intro input b rest h
  obtain ⟨-, rfl⟩ := pure_eq_ok.mp h
  exact ⟨Nat.zero_le _, rfl⟩

variable {m : Nat}

/-- Readers in sequence take what both take. -/
theorem Consumes.bind (h : Consumes r m) (h' : ∀ a, Consumes (f a) n) :
    Consumes (r >>= f) (m + n) := by
  intro input b rest hrun
  obtain ⟨a, middle, hr, hf⟩ := bind_eq_ok.mp hrun
  obtain ⟨hm, rfl⟩ := h input a middle hr
  obtain ⟨hn, rfl⟩ := h' a _ b rest hf
  rw [length_drop] at hn
  exact ⟨by omega, by rw [drop_drop]⟩

/-- What a reader has read can be read as plain bytes. -/
theorem Consumes.exactly (h : Consumes r n) (truncated : ε) (hr : r input = .ok (a, rest)) :
    ∃ bytes, Reader.exactly truncated n input = .ok (bytes, rest) := by
  obtain ⟨hn, hrest⟩ := h input a rest hr
  exact ⟨_, exactly_eq_ok.mpr ⟨hn, rfl, hrest⟩⟩

theorem times_add {middle : Bytes} {bs : List α}
    (h : times r m input = .ok (as, middle)) (h' : times r n middle = .ok (bs, rest)) :
    times r (m + n) input = .ok (as ++ bs, rest) := by
  induction m generalizing input as with
  | zero =>
    obtain ⟨rfl, rfl⟩ := pure_eq_ok.mp h
    rwa [Nat.zero_add]
  | succ m ih =>
    rw [times, bind_eq_ok] at h
    obtain ⟨a, input', ha, htail⟩ := h
    obtain ⟨as', middle', has, hpure⟩ := bind_eq_ok.mp htail
    obtain ⟨rfl, rfl⟩ := pure_eq_ok.mp hpure
    rw [Nat.succ_add, times, bind_eq_ok]
    exact ⟨a, input', ha, bind_eq_ok.mpr ⟨_, _, ih has, pure_eq_ok.mpr ⟨rfl, rfl⟩⟩⟩

/-- What holds of every value that the reader returns holds of all that it returns in a row. -/
theorem times_spec {P : α → Prop} (hr : ∀ input a rest, r input = .ok (a, rest) → P a)
    (h : times r n input = .ok (as, rest)) : as.length = n ∧ ∀ a ∈ as, P a := by
  induction n generalizing input as with
  | zero =>
    obtain ⟨rfl, -⟩ := pure_eq_ok.mp h
    exact ⟨rfl, forall_mem_nil _⟩
  | succ n ih =>
    obtain ⟨a, middle, ha, htail⟩ := bind_eq_ok.mp h
    obtain ⟨as', middle', has, hpure⟩ := bind_eq_ok.mp htail
    obtain ⟨rfl, rfl⟩ := pure_eq_ok.mp hpure
    obtain ⟨hlength, hall⟩ := ih has
    exact ⟨congrArg (· + 1) hlength, forall_mem_cons.mpr ⟨hr _ _ _ ha, hall⟩⟩

end Reader

end Wire
