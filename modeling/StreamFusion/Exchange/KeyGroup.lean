import StreamFusion.Lib.Wire

/-!
# Key groups

The key group of a row is a hash of its encoded key, modulo the maximal parallelism.  A key group
belongs to the channel that its share of all key groups falls into, and the first key group of a
channel is found by the same division, rounded up.  The products are 32-bit products; with at most
32768 key groups none of them overflows.
-/

namespace StreamFusion.Exchange

open Wire UInt32

/-- The errors of the exchange. -/
inductive ExchangeError where
  | invalidArgument (message : String)
  | castError (message : String)
  | execution (message : String)
  | resourcesExhausted (message : String)
  /-- A failed assertion or an index outside its array. -/
  | assertion (message : String)
  deriving DecidableEq

/-! ## The hash -/

/-- A rotation by fewer than 32 bits. -/
def rotateLeft (value : UInt32) (bits : UInt32) : UInt32 :=
  (value <<< bits) ||| (value >>> (32 - bits))

/-- A word before it enters the hash. -/
def mixWord (value : UInt32) : UInt32 :=
  rotateLeft (value * 0xcc9e2d51) 15 * 0x1b873593

/-- The hash after one more word. -/
def mixHash (hash word : UInt32) : UInt32 :=
  rotateLeft (hash ^^^ word) 13 * 5 + 0xe6546b64

/-- The last mixing of a hash. -/
def finalize (value : UInt32) : UInt32 :=
  let value := (value ^^^ (value >>> 16)) * 0x85ebca6b
  let value := (value ^^^ (value >>> 13)) * 0xc2b2ae35
  value ^^^ (value >>> 16)

/-- The hash of whole words. -/
def hashWords (hash : UInt32) : Bytes → UInt32
  | b₀ :: b₁ :: b₂ :: b₃ :: rest =>
    hashWords (mixHash hash (mixWord (UInt32.ofNat (leNat [b₀, b₁, b₂, b₃])))) rest
  | _ => hash

/-- The hash of a key whose length is a multiple of four, as a bit pattern. -/
def binaryRowHash (bytes : Bytes) : Except ExchangeError UInt32 :=
  if bytes.length % 4 = 0 then
    .ok (finalize (hashWords 42 bytes ^^^ UInt32.ofNat bytes.length))
  else
    .error (.assertion "bytes.len().is_multiple_of(4)")

/-- The absolute value of the signed number; the smallest one has none and is mapped to zero. -/
def flinkMurmurHash (value : UInt32) : UInt32 :=
  let result := finalize (mixHash 0 (mixWord value) ^^^ 4)
  if result < 2147483648 then result
  else if result ≠ 2147483648 then 0 - result
  else 0

/-- The key group of an encoded key. -/
def assignKeyGroup (binaryRow : Bytes) (maxParallelism : UInt32) : Except ExchangeError UInt32 :=
  if 0 < maxParallelism ∧ maxParallelism ≤ 32768 then do
    let hash ← binaryRowHash binaryRow
    .ok (flinkMurmurHash hash % maxParallelism)
  else
    .error (.assertion "max_parallelism > 0 && max_parallelism <= 32_768")

example : binaryRowHash [] = .ok 142593372 := by decide +kernel

example : binaryRowHash [1, 0, 0, 0] = .ok (UInt32.ofInt (-559580957)) := by decide +kernel

example : assignKeyGroup [1, 0, 0, 0] 128 = .ok 2 := by decide +kernel

/-- A key of whole words has a key group, and it is one of the key groups. -/
theorem assignKeyGroup_ok {binaryRow : Bytes} (hwords : binaryRow.length % 4 = 0)
    {maxParallelism : UInt32} (hpos : 0 < maxParallelism) (hmax : maxParallelism ≤ 32768) :
    ∃ keyGroup, assignKeyGroup binaryRow maxParallelism = .ok keyGroup ∧
        keyGroup < maxParallelism := by
  refine ⟨flinkMurmurHash (finalize (hashWords 42 binaryRow ^^^ UInt32.ofNat binaryRow.length)) %
    maxParallelism, ?_, UInt32.mod_lt _ hpos⟩
  rw [assignKeyGroup, if_pos ⟨hpos, hmax⟩, binaryRowHash, if_pos hwords]
  rfl

/-! ## Channels -/

/-- The channel of a key group. -/
def destinationOf (maxParallelism parallelism keyGroup : UInt32) : UInt32 :=
  keyGroup * parallelism / maxParallelism

/-- A product that stays at the largest number. -/
def saturatingMul (a b : UInt32) : UInt32 :=
  if a.toNat * b.toNat < 2 ^ 32 then a * b else 4294967295

/-- A sum that stays at the largest number. -/
def saturatingAdd (a b : UInt32) : UInt32 :=
  if a.toNat + b.toNat < 2 ^ 32 then a + b else 4294967295

/-- The key group that stands for a channel. -/
def channelTag (maxParallelism parallelism destination : UInt32) : UInt32 :=
  saturatingAdd (saturatingMul destination maxParallelism) (parallelism - 1) / parallelism

/-- The receiving side: the channel of a tagged frame. -/
def selectChannel (maxParallelism numberOfChannels keyGroup : UInt32) :
    Except ExchangeError UInt32 :=
  if keyGroup < maxParallelism then
    .ok (destinationOf maxParallelism numberOfChannels keyGroup)
  else
    .error (.assertion "Native exchange key group exceeds maximum parallelism")

section Channels

variable {m p d : Nat}

/-- Rounding up undoes rounding down. -/
theorem floor_ceil_div (hp : 0 < p) (hpm : p ≤ m) : (d * m + (p - 1)) / p * p / m = d := by
  have hrest := Nat.mod_lt (d * m + (p - 1)) hp
  have hsplit := Nat.div_add_mod' (d * m + (p - 1)) p
  obtain ⟨q, hq⟩ : ∃ q, (d * m + (p - 1)) / p = q := ⟨_, rfl⟩
  rw [hq] at hsplit ⊢
  apply Nat.div_eq_of_lt_le
  · omega
  · rw [Nat.add_mul, Nat.one_mul]
    omega

/-- The tag is the least key group of its channel. -/
theorem ceil_div_le {g : Nat} (hp : 0 < p) (h : g * p / m = d) : (d * m + (p - 1)) / p ≤ g := by
  have hle : d * m ≤ g * p := by
    rw [← h]
    exact Nat.div_mul_le_self _ _
  rw [Nat.div_le_iff_le_mul_add_pred hp]
  rw [Nat.mul_comm p g]
  omega

variable {maxParallelism parallelism : UInt32}

/-- How many key groups and channels there may be. -/
structure Geometry (maxParallelism parallelism : UInt32) : Prop where
  pos : 0 < parallelism
  le : parallelism ≤ maxParallelism
  max : maxParallelism ≤ 32768

namespace Geometry

variable (geometry : Geometry maxParallelism parallelism)

include geometry

theorem toNat_bounds : 0 < parallelism.toNat ∧ parallelism.toNat ≤ maxParallelism.toNat ∧
    maxParallelism.toNat ≤ 32768 :=
  ⟨lt_iff_toNat_lt.mp geometry.pos, le_iff_toNat_le.mp geometry.le,
    le_iff_toNat_le.mp geometry.max⟩

theorem not_refused :
    ¬ (parallelism = 0 ∨ parallelism > maxParallelism ∨ maxParallelism > 32768) := by
  rintro (hzero | hgt | hgt)
  · exact absurd geometry.pos (by rw [hzero]; decide)
  · exact UInt32.not_le.mpr hgt geometry.le
  · exact UInt32.not_le.mpr hgt geometry.max

variable {keyGroup : UInt32}

section

variable (h : keyGroup < maxParallelism)
include h

/-- The product of a key group and the number of channels fits. -/
theorem product_lt : keyGroup.toNat * parallelism.toNat < 2 ^ 32 := by
  obtain ⟨-, hle, hmax⟩ := geometry.toNat_bounds
  have hkey : keyGroup.toNat < maxParallelism.toNat := lt_iff_toNat_lt.mp h
  calc keyGroup.toNat * parallelism.toNat ≤ 32768 * 32768 := Nat.mul_le_mul (by omega) (by omega)
    _ < 2 ^ 32 := by norm_num

theorem toNat_destinationOf :
    (destinationOf maxParallelism parallelism keyGroup).toNat =
      keyGroup.toNat * parallelism.toNat / maxParallelism.toNat := by
  rw [destinationOf, UInt32.toNat_div, UInt32.toNat_mul, Nat.mod_eq_of_lt (geometry.product_lt h)]

/-- A key group has a destination. -/
theorem destinationOf_lt :
    destinationOf maxParallelism parallelism keyGroup < parallelism := by
  obtain ⟨hpos, hle, hmax⟩ := geometry.toNat_bounds
  have hkey : keyGroup.toNat < maxParallelism.toNat := UInt32.lt_iff_toNat_lt.mp h
  rw [UInt32.lt_iff_toNat_lt, geometry.toNat_destinationOf h,
    Nat.div_lt_iff_lt_mul (by omega), Nat.mul_comm parallelism.toNat]
  exact Nat.mul_lt_mul_of_pos_right hkey hpos

end

variable {destination : UInt32}

/-- Neither the product nor the sum saturates. -/
theorem sum_lt (h : destination < parallelism) :
    destination.toNat * maxParallelism.toNat + (parallelism.toNat - 1) < 2 ^ 32 := by
  obtain ⟨hpos, hle, hmax⟩ := geometry.toNat_bounds
  have hdest : destination.toNat < parallelism.toNat := lt_iff_toNat_lt.mp h
  have hproduct : destination.toNat * maxParallelism.toNat ≤ 32768 * 32768 :=
    Nat.mul_le_mul (by omega) hmax
  omega

theorem toNat_channelTag (h : destination < parallelism) :
    (channelTag maxParallelism parallelism destination).toNat =
      (destination.toNat * maxParallelism.toNat + (parallelism.toNat - 1)) / parallelism.toNat := by
  have hsum := geometry.sum_lt h
  have hproduct : (destination * maxParallelism).toNat =
      destination.toNat * maxParallelism.toNat := by
    rw [UInt32.toNat_mul, Nat.mod_eq_of_lt (by omega)]
  have hone : (1 : UInt32) ≤ parallelism := by
    rw [UInt32.le_iff_toNat_le]
    exact geometry.toNat_bounds.1
  have hpred : (parallelism - 1).toNat = parallelism.toNat - 1 := by
    rw [UInt32.toNat_sub_of_le _ _ hone]
    rfl
  rw [channelTag, saturatingMul, if_pos (by omega), saturatingAdd, hproduct, hpred, if_pos hsum,
    UInt32.toNat_div, UInt32.toNat_add, hproduct, hpred, Nat.mod_eq_of_lt hsum]

/-- The tag of a channel is the least key group of the channel. -/
theorem channelTag_le (h : keyGroup < maxParallelism) :
    channelTag maxParallelism parallelism (destinationOf maxParallelism parallelism keyGroup) ≤
        keyGroup := by
  obtain ⟨hpos, -, -⟩ := geometry.toNat_bounds
  rw [le_iff_toNat_le, geometry.toNat_channelTag (geometry.destinationOf_lt h)]
  exact ceil_div_le hpos (geometry.toNat_destinationOf h).symm

/-- The receiving side maps the tag of a channel back to the channel. -/
theorem selectChannel_channelTag (h : destination < parallelism) :
    selectChannel maxParallelism parallelism (channelTag maxParallelism parallelism destination) =
      .ok destination := by
  obtain ⟨hpos, hle, -⟩ := geometry.toNat_bounds
  have hdest : destination.toNat < parallelism.toNat := lt_iff_toNat_lt.mp h
  have htag : channelTag maxParallelism parallelism destination < maxParallelism := by
    rw [lt_iff_toNat_lt, geometry.toNat_channelTag h, Nat.div_lt_iff_lt_mul hpos]
    calc destination.toNat * maxParallelism.toNat + (parallelism.toNat - 1)
        < destination.toNat * maxParallelism.toNat + maxParallelism.toNat := by omega
      _ = (destination.toNat + 1) * maxParallelism.toNat := by rw [Nat.add_mul, Nat.one_mul]
      _ ≤ parallelism.toNat * maxParallelism.toNat := Nat.mul_le_mul_right _ hdest
      _ = maxParallelism.toNat * parallelism.toNat := Nat.mul_comm _ _
  rw [selectChannel, if_pos htag]
  congr 1
  apply UInt32.toNat_inj.mp
  rw [geometry.toNat_destinationOf htag, geometry.toNat_channelTag h, floor_ceil_div hpos hle]

end Geometry

end Channels

end StreamFusion.Exchange
