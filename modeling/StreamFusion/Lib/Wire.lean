import StreamFusion.Lib.Outcome

/-!
# Byte strings, fixed-width integers and a bounded cursor

Binary formats are concatenations of fields, and their readers are cursors that move over an
immutable slice.  Every codec proof needs two things:

* `leBytes w n` writes `n` in `w` bytes, least significant byte first, and `leNat` reads it back;
  on numbers below `256 ^ w` and on byte strings of length `w` the two are inverse to each other;
* `Cursor.Reads c xs c'` says that the cursor `c` stands in front of the bytes `xs` and that `c'`
  stands right behind them.  The relation is functional, and `Cursor.reads_append` splits it along
  a concatenation, so the specification of a composite reader is read off its fields.

A `Slice` carries the bound that a slice of a running program has: at most `isizeMax` bytes.  So no
offset inside a slice comes near the end of the machine word, and a checked addition fails only
where the read would have failed anyway (`Cursor.checkedAdd_of_le`).
-/

namespace Wire

open List

/-! ## Machine words -/

/-- The number of values of an address-sized unsigned word. -/
def usizeLimit : Nat := 2 ^ 64

/-- The largest number of bytes one slice can have. -/
def isizeMax : Nat := 2 ^ 63 - 1

/-- Addition of address-sized words, `none` on overflow. -/
def checkedAdd (a b : Nat) : Option Nat :=
  if a + b < usizeLimit then some (a + b) else none

/-- Multiplication of address-sized words, `none` on overflow. -/
def checkedMul (a b : Nat) : Option Nat :=
  if a * b < usizeLimit then some (a * b) else none

/-- Addition of address-sized words, clamped at the largest one. -/
def saturatingAdd (a b : Nat) : Nat :=
  min (a + b) (usizeLimit - 1)

theorem saturatingAdd_le (a b : Nat) : saturatingAdd a b ≤ usizeLimit - 1 :=
  Nat.min_le_right _ _

@[simp] theorem checkedAdd_eq_some {a b c : Nat} :
    checkedAdd a b = some c ↔ a + b < usizeLimit ∧ a + b = c := by
  unfold checkedAdd
  split
  · rename_i hlt
    simp [hlt]
  · rename_i hge
    simp [hge]

/-- A chain of checked additions is one checked addition of the sum. -/
theorem checkedAdd_chain (a b c d : Nat) :
    ((checkedAdd a b).bind (checkedAdd · c)).bind (checkedAdd · d) = checkedAdd a (b + c + d) := by
  ext n
  simp only [Option.bind_eq_some_iff, checkedAdd_eq_some]
  constructor
  · rintro ⟨_, ⟨_, ⟨_, rfl⟩, _, rfl⟩, _, rfl⟩
    omega
  · rintro ⟨_, rfl⟩
    exact ⟨_, ⟨_, ⟨by omega, rfl⟩, by omega, rfl⟩, by omega, by omega⟩

/-! ## Little-endian integers -/

/-- Byte strings. -/
abbrev Bytes := List UInt8

/-- The `w` low bytes of `n`, least significant first. -/
def leBytes : Nat → Nat → Bytes
  | 0, _ => []
  | w + 1, n => UInt8.ofNat n :: leBytes w (n / 256)

/-- The number a byte string denotes, least significant byte first. -/
def leNat : Bytes → Nat
  | [] => 0
  | b :: bs => b.toNat + 256 * leNat bs

@[simp] theorem leNat_nil : leNat [] = 0 := rfl

@[simp] theorem leNat_cons (b : UInt8) (bs : Bytes) : leNat (b :: bs) =
    b.toNat + 256 * leNat bs := rfl

@[simp] theorem length_leBytes (w n : Nat) : (leBytes w n).length = w := by
  induction w generalizing n with
  | zero => rfl
  | succ w ih => simp [leBytes, ih]

theorem leNat_lt (bs : Bytes) : leNat bs < 256 ^ bs.length := by
  induction bs with
  | nil => simp
  | cons b bs ih =>
    have hb : b.toNat < 256 := b.toNat_lt
    simp only [leNat_cons, length_cons, Nat.pow_succ]
    omega

theorem leNat_leBytes (w n : Nat) : leNat (leBytes w n) = n % 256 ^ w := by
  induction w generalizing n with
  | zero => simp [leBytes, Nat.mod_one]
  | succ w ih =>
    rw [leBytes, leNat_cons, ih, Nat.pow_succ', Nat.mod_mul]
    simp

variable {w n : Nat}

theorem leNat_leBytes_of_lt (h : n < 256 ^ w) : leNat (leBytes w n) = n := by
  rw [leNat_leBytes, Nat.mod_eq_of_lt h]

theorem leBytes_leNat (bs : Bytes) : leBytes bs.length (leNat bs) = bs := by
  induction bs with
  | nil => rfl
  | cons b bs ih =>
    have hb : b.toNat < 256 := b.toNat_lt
    have hdiv : (b.toNat + 256 * leNat bs) / 256 = leNat bs := by omega
    have hhead : UInt8.ofNat (b.toNat + 256 * leNat bs) = b := by
      apply UInt8.toNat_inj.mp
      simp only [UInt8.toNat_ofNat']
      omega
    simp only [length_cons, leBytes, leNat_cons, hdiv, hhead, ih]

theorem leBytes_injective {m : Nat} (hm : m < 256 ^ w) (hn : n < 256 ^ w)
    (h : leBytes w m = leBytes w n) : m = n := by
  rw [← leNat_leBytes_of_lt hm, h, leNat_leBytes_of_lt hn]

/-! ## Slices and cursors -/

/-- A byte slice of a running program. -/
def Slice : Type := { bytes : Bytes // bytes.length ≤ isizeMax }

namespace Slice

/-- The bytes of a slice. -/
def toBytes (s : Slice) : Bytes := s.1

theorem length_le (s : Slice) : s.toBytes.length ≤ isizeMax := s.2

theorem length_lt_usizeLimit (s : Slice) : s.toBytes.length < usizeLimit :=
  lt_of_le_of_lt s.length_le (by decide)

end Slice

/-- A slice and a position in it. -/
structure Cursor where
  bytes : Slice
  offset : Nat

variable {c c' : Cursor} {α : Type} {s : Slice}

namespace Cursor

/-- The next `len` bytes and the cursor behind them, `none` if the slice ends before. -/
def take? (c : Cursor) (len : Nat) : Option (Bytes × Cursor) :=
  if c.offset + len ≤ c.bytes.toBytes.length then
    some ((c.bytes.toBytes.drop c.offset).take len, { c with offset := c.offset + len })
  else
    none

/-- The cursor `c` stands in front of `xs`, and `c'` right behind it. -/
def Reads (c : Cursor) (xs : Bytes) (c' : Cursor) : Prop :=
  ∃ before after, c.bytes.toBytes = before ++ (xs ++ after) ∧ before.length = c.offset ∧
    c' = { c with offset := c.offset + xs.length }

variable {xs : Bytes}

theorem Reads.bytes_eq (h : c.Reads xs c') : c'.bytes = c.bytes := by
  obtain ⟨_, _, _, _, rfl⟩ := h
  rfl

theorem Reads.offset_eq (h : c.Reads xs c') : c'.offset = c.offset + xs.length := by
  obtain ⟨_, _, _, _, rfl⟩ := h
  rfl

theorem Reads.offset_le (h : c.Reads xs c') : c'.offset ≤ c.bytes.toBytes.length := by
  obtain ⟨before, after, hb, hlen, rfl⟩ := h
  simp [hb, ← hlen]

variable {len : Nat}

/-- A checked addition inside a slice does not overflow. -/
theorem checkedAdd_of_le (h : c.offset + len ≤ c.bytes.toBytes.length) :
    checkedAdd c.offset len = some (c.offset + len) :=
  checkedAdd_eq_some.mpr ⟨lt_of_le_of_lt h c.bytes.length_lt_usizeLimit, rfl⟩

/-- `take?` succeeds exactly on what stands in front of the cursor. -/
theorem take?_eq_some : c.take? len = some (xs, c') ↔ xs.length = len ∧ c.Reads xs c' := by
  constructor
  · intro h
    unfold take? at h
    split at h
    · rename_i hle
      obtain ⟨rfl, rfl⟩ : (c.bytes.toBytes.drop c.offset).take len = xs ∧
          { c with offset := c.offset + len } = c' := by simpa using h
      have hlen : ((c.bytes.toBytes.drop c.offset).take len).length = len := by
        simp
        omega
      refine ⟨hlen, c.bytes.toBytes.take c.offset,
        (c.bytes.toBytes.drop c.offset).drop len, ?_, ?_, ?_⟩
      · rw [take_append_drop, take_append_drop]
      · simp
        omega
      · rw [hlen]
    · cases h
  · rintro ⟨rfl, before, after, hb, hlen, rfl⟩
    have hle : c.offset + xs.length ≤ c.bytes.toBytes.length := by
      simp [hb, ← hlen]
    have hdrop : c.bytes.toBytes.drop c.offset = xs ++ after := by
      rw [hb, ← hlen, drop_left]
    rw [take?, if_pos hle, hdrop, take_left]

theorem reads_nil : c.Reads [] c' ↔ c.offset ≤ c.bytes.toBytes.length ∧ c' = c := by
  constructor
  · intro h
    obtain ⟨before, after, hb, hlen, rfl⟩ := h
    refine ⟨?_, rfl⟩
    simp [hb, ← hlen]
  · rintro ⟨hle, rfl⟩
    exact ⟨c'.bytes.toBytes.take c'.offset, c'.bytes.toBytes.drop c'.offset,
      by simp, by simp [hle], rfl⟩

/-- Reading a concatenation is reading its parts one after the other. -/
theorem reads_append {ys : Bytes} : c.Reads (xs ++ ys) c' ↔ ∃ d, c.Reads xs d ∧ d.Reads ys c' := by
  constructor
  · rintro ⟨before, after, hb, hlen, rfl⟩
    refine ⟨{ c with offset := c.offset + xs.length },
      ⟨before, ys ++ after, by simp [hb], hlen, rfl⟩,
      ⟨before ++ xs, after, by simp [hb], by simp [hlen], ?_⟩⟩
    simp [Nat.add_assoc]
  · rintro ⟨d, ⟨before, after, hb, hlen, rfl⟩, before', after', hb', hlen', rfl⟩
    have hsplit : before ++ (xs ++ after) = before' ++ (ys ++ after') := hb.symm.trans hb'
    have hlen'' : (before ++ xs).length = before'.length := by simp [hlen, hlen']
    obtain ⟨-, hafter⟩ : before ++ xs = before' ∧ after = ys ++ after' :=
      append_inj (by simpa using hsplit) hlen''
    exact ⟨before, after', by simp [hb, hafter], hlen, by simp [Nat.add_assoc]⟩

/-- A fixed-width field is read as a number and converted. -/
theorem reads_converted (decode : Nat → α) (encode : α → Nat) {a : α}
    (hdecode : ∀ n < 256 ^ w, encode (decode n) = n) (hlt : encode a < 256 ^ w)
    (hencode : decode (encode a) = a) :
    (∃ xs d, (xs.length = w ∧ c.Reads xs d) ∧ decode (leNat xs) = a ∧ d = c') ↔
      c.Reads (leBytes w (encode a)) c' := by
  constructor
  · rintro ⟨xs, d, ⟨rfl, hr⟩, rfl, rfl⟩
    rwa [hdecode _ (leNat_lt xs), leBytes_leNat]
  · intro hr
    refine ⟨_, _, ⟨length_leBytes _ _, hr⟩, ?_, rfl⟩
    rw [leNat_leBytes_of_lt hlt, hencode]

/-- A length is read, and then as many bytes. -/
theorem reads_lengthPrefixed : (∃ (n : UInt32) (d : Cursor), c.Reads (leBytes 4 n.toNat) d ∧
      xs.length = n.toNat ∧ d.Reads xs c') ↔
    xs.length < 2 ^ 32 ∧ c.Reads (leBytes 4 xs.length ++ xs) c' := by
  rw [reads_append]
  constructor
  · rintro ⟨n, d, hr, hlen, hr'⟩
    exact ⟨hlen ▸ n.toNat_lt, d, hlen ▸ hr, hr'⟩
  · rintro ⟨hlt, d, hr, hr'⟩
    have hlen : (UInt32.ofNat xs.length).toNat = xs.length := UInt32.toNat_ofNat_of_lt' hlt
    exact ⟨UInt32.ofNat xs.length, d, hlen.symm ▸ hr, hlen.symm, hr'⟩

/-- The cursor at the start of a slice stands in front of the whole slice and nothing else. -/
theorem reads_from_start : (Cursor.mk s 0).Reads xs c' ∧ c'.offset = s.toBytes.length ↔
      s.toBytes = xs ∧ c' = ⟨s, s.toBytes.length⟩ := by
  constructor
  · rintro ⟨⟨before, after, hb, hlen, rfl⟩, hoff⟩
    obtain rfl : before = [] := length_eq_zero_iff.mp hlen
    simp only [hb, length_append, Nat.zero_add] at hoff
    obtain rfl : after = [] := length_eq_zero_iff.mp (by omega)
    simp_all
  · rintro ⟨rfl, rfl⟩
    exact ⟨⟨[], [], by simp, rfl, by simp⟩, rfl⟩

end Cursor

/-! ## Repeated fields -/

section Many

variable {ε α : Type}

/-- Runs a reader `n` times and collects what it returns. -/
def readMany (read : Cursor → Except ε (α × Cursor)) : Nat → Cursor → Except ε (List α × Cursor)
  | 0, c => .ok ([], c)
  | n + 1, c => do
    let (a, c) ← read c
    let (as, c) ← readMany read n c
    return (a :: as, c)

/-- `read` accepts exactly the encodings of the values that satisfy `valid`. -/
def Decodes (read : Cursor → Except ε (α × Cursor)) (valid : α → Prop)
    (encode : α → Bytes) : Prop :=
  ∀ c a c', read c = .ok (a, c') ↔ valid a ∧ c.Reads (encode a) c'

variable {encode : α → Bytes} {as : List α}

/-- A reader of one field extends to a reader of any number of them. -/
theorem Decodes.readMany {read : Cursor → Except ε (α × Cursor)} {valid : α → Prop}
    (h : Decodes read valid encode)
    (hc : c.offset ≤ c.bytes.toBytes.length) :
    readMany read n c = .ok (as, c') ↔
      as.length = n ∧ (∀ a ∈ as, valid a) ∧ c.Reads (as.flatMap encode) c' := by
  induction n generalizing c as with
  | zero =>
    simp only [Wire.readMany, Except.ok.injEq, Prod.mk.injEq, length_eq_zero_iff]
    constructor
    · rintro ⟨rfl, rfl⟩
      exact ⟨rfl, by simp, Cursor.reads_nil.mpr ⟨hc, rfl⟩⟩
    · rintro ⟨rfl, -, hr⟩
      exact ⟨rfl, (Cursor.reads_nil.mp hr).2.symm⟩
  | succ n ih =>
    simp only [Wire.readMany, Except.bind_eq_ok, Prod.exists]
    constructor
    · rintro ⟨a, d, hread, bs, d', hmany, hpure⟩
      obtain ⟨rfl, rfl⟩ : a :: bs = as ∧ d' = c' := by simpa [pure, Except.pure] using hpure
      obtain ⟨hvalid, hr⟩ := (h c a d).mp hread
      have hd : d.offset ≤ d.bytes.toBytes.length := hr.bytes_eq ▸ hr.offset_le
      obtain ⟨hlen, hvalids, hrs⟩ := (ih hd).mp hmany
      refine ⟨by simp [hlen], by simpa using ⟨hvalid, hvalids⟩, ?_⟩
      rw [flatMap_cons, Cursor.reads_append]
      exact ⟨d, hr, hrs⟩
    · rintro ⟨hlen, hvalid, hr⟩
      obtain _ | ⟨a, bs⟩ := as
      · cases hlen
      rw [flatMap_cons, Cursor.reads_append] at hr
      obtain ⟨d, hr₁, hr₂⟩ := hr
      have hd : d.offset ≤ d.bytes.toBytes.length := hr₁.bytes_eq ▸ hr₁.offset_le
      have hvalid' : valid a ∧ ∀ b ∈ bs, valid b := by simpa using hvalid
      refine ⟨a, d, (h c a d).mpr ⟨hvalid'.1, hr₁⟩, bs, c',
        (ih hd).mpr ⟨by simpa using hlen, hvalid'.2, hr₂⟩, rfl⟩

/-- A reader that takes in every encoding of the elements of a list takes in all of them, one after
the other. -/
theorem readMany_of_reads {β : Type} {read : Cursor → Except ε (β × Cursor)} {P : α → β → Prop}
    (hread : ∀ a ∈ as, ∀ c c' : Cursor, c.bytes = s → c.Reads (encode a) c' →
      ∃ b, read c = .ok (b, c') ∧ P a b) (hc : c.bytes = s) (hr : c.Reads (as.flatMap encode) c') :
    ∃ bs, readMany read as.length c = .ok (bs, c') ∧ List.Forall₂ P as bs := by
  induction as generalizing c with
  | nil =>
    obtain ⟨-, rfl⟩ := Cursor.reads_nil.mp hr
    exact ⟨[], rfl, .nil⟩
  | cons a as ih =>
    rw [flatMap_cons, Cursor.reads_append] at hr
    obtain ⟨d, hr₁, hr₂⟩ := hr
    obtain ⟨hread₁, hread₂⟩ := forall_mem_cons.mp hread
    obtain ⟨b, hb, hP⟩ := hread₁ c d hc hr₁
    obtain ⟨bs, hbs, hPs⟩ := ih hread₂ (hr₁.bytes_eq.trans hc) hr₂
    exact ⟨b :: bs, by simp [readMany, hb, hbs], .cons hP hPs⟩

end Many

/-! ## Fixed-width records -/

variable {f : α → Bytes}

/-- The record at position `i` of a file of records that all have `w` bytes. -/
theorem take_drop_flatMap (hw : ∀ a, (f a).length = w)
    {l : List α} {i : Nat} {a : α} (h : l[i]? = some a) :
    ((l.flatMap f).drop (i * w)).take w = f a := by
  induction l generalizing i with
  | nil => simp at h
  | cons b l ih =>
    cases i with
    | zero =>
      obtain rfl : b = a := by simpa using h
      rw [flatMap_cons, Nat.zero_mul, drop_zero, ← hw b, take_left]
    | succ i =>
      rw [flatMap_cons, Nat.succ_mul, Nat.add_comm, ← drop_drop]
      rw [show ((f b ++ l.flatMap f).drop w) = l.flatMap f by rw [← hw b, drop_left]]
      exact ih (by simpa using h)

theorem length_flatMap_const (hw : ∀ a, (f a).length = w)
    (l : List α) : (l.flatMap f).length = l.length * w := by
  induction l with
  | nil => simp
  | cons a l ih => simp [hw, ih, Nat.succ_mul, Nat.add_comm]

end Wire
