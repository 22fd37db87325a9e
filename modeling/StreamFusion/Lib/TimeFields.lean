import StreamFusion.Lib.Reader
import StreamFusion.Lib.WrappingInt

/-!
# Times and byte strings as fields

The fields of a record of times and rows: a 64-bit time, a time that may be missing, for which the
smallest time stands, and a byte string behind its length in four bytes.  Each has its reader, and
the reader undoes the writer on the values that the field can hold.
-/

namespace Wire

variable {ε : Type}

/-- A time, little-endian. -/
def timeBytes (time : Int) : Bytes := leBytes 8 (time % 2 ^ 64).toNat

/-- A time that may be missing: the smallest time says so. -/
def optionTimeBytes (time : Option Int) : Bytes := timeBytes (time.getD I64.min)

/-- Bytes behind their number. -/
def blobBytes (bytes : Bytes) : Bytes := leBytes 4 bytes.length ++ bytes

@[simp] theorem length_timeBytes (time : Int) : (timeBytes time).length = 8 := length_leBytes _ _

@[simp] theorem length_optionTimeBytes (time : Option Int) : (optionTimeBytes time).length = 8 :=
  length_timeBytes _

namespace Reader

/-- Reads a time. -/
def time (truncated : ε) : Reader ε Int := do
  let n ← leNat truncated 8
  return I64.wrap n

/-- Reads a time that may be missing. -/
def optionTime (truncated : ε) : Reader ε (Option Int) := do
  let n ← time truncated
  return if n = I64.min then none else some n

/-- Reads bytes behind their number. -/
def blob (truncated : ε) : Reader ε Bytes := do
  let length ← leNat truncated 4
  exactly truncated length

variable (truncated : ε)

theorem parses_time {n : Int} (h : I64.InRange n) : Parses (time truncated) (timeBytes n) n := by
  obtain ⟨hmin, hmax⟩ := h
  unfold I64.min at hmin
  unfold I64.max at hmax
  have hlt : (n % 2 ^ 64).toNat < 256 ^ 8 := by
    omega
  refine (parses_leNat truncated hlt).bind_pure ?_
  have hwrap : I64.wrap ((n % 2 ^ 64).toNat : Int) = n := by
    unfold I64.wrap
    omega
  rw [hwrap]
  exact parses_pure n

/-- A time that stands for a missing one would be read as missing. -/
theorem parses_optionTime {n : Option Int} (h : ∀ v ∈ n, I64.InRange v ∧ v ≠ I64.min) :
    Parses (optionTime truncated) (optionTimeBytes n) n := by
  rcases n with _ | v
  · refine (parses_time truncated (n := I64.min) (by decide)).bind_pure ?_
    rw [if_pos rfl]
    exact parses_pure _
  · obtain ⟨hrange, hne⟩ := h v rfl
    refine (parses_time truncated hrange).bind_pure ?_
    rw [if_neg hne]
    exact parses_pure _

theorem parses_blob {bytes : Bytes} (h : bytes.length < 2 ^ 32) :
    Parses (blob truncated) (blobBytes bytes) bytes :=
  (parses_leNat truncated (by simpa using h)).bind (parses_exactly truncated rfl)

end Reader

end Wire
