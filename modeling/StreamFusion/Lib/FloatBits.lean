import Mathlib

/-!
# Binary floating point, by its bits

A number of a binary interchange format is a sign bit above a magnitude; magnitudes above the one of
infinity are not numbers.  `less` is the comparison of the standard: false as soon as one side is
not a number, and blind to the sign of zero.

It is not the strict part of a linear order.  `compareTotal` repairs that the way Java's boxed
comparison does: it asks `less` first and falls back to the bits, read as a signed integer.  The
result is a linear order on all bit patterns (`compareTotal_eq_compare`): it compares the integers
`rank`.
-/

namespace FloatBits

/-- The half of the range of bit patterns with the sign bit set, and the magnitude of infinity. -/
structure Format where
  half : Nat
  infinity : Nat
  infinity_lt : infinity < half

/-- Single precision. -/
def binary32 : Format := ⟨2 ^ 31, 0x7f800000, by norm_num⟩

/-- Double precision. -/
def binary64 : Format := ⟨2 ^ 63, 0x7ff0000000000000, by norm_num⟩

namespace Format

variable (F : Format)

/-- Is the sign bit set? -/
def negative (bits : Nat) : Bool := F.half ≤ bits

/-- The bits without the sign bit. -/
def magnitude (bits : Nat) : Nat := if F.negative bits then bits - F.half else bits

/-- Is it not a number? -/
def isNaN (bits : Nat) : Bool := F.infinity < F.magnitude bits

/-- The number a bit pattern stands for, up to scaling; the two zeros are one. -/
def number (bits : Nat) : Int :=
  if F.negative bits then -(F.magnitude bits : Int) else F.magnitude bits

/-- The comparison of numbers. -/
def less (a b : Nat) : Bool := !F.isNaN a && !F.isNaN b && F.number a < F.number b

/-- The bits as a signed integer. -/
def signed (bits : Nat) : Int := if F.negative bits then bits - 2 * F.half else bits

/-- Numbers by value, then by their bits. -/
def compareTotal (a b : Nat) : Ordering :=
  if F.less a b then .lt
  else if F.less b a then .gt
  else compare (F.signed a) (F.signed b)

/-- Negative numbers, the negative zero, negative NaNs, and then the rest by its bits. -/
def rank (bits : Nat) : Int :=
  if F.negative bits && !F.isNaN bits then -(F.half : Int) - F.magnitude bits else F.signed bits

theorem rank_injective {a b : Nat} (h : F.rank a = F.rank b) (ha : a < 2 * F.half)
    (hb : b < 2 * F.half) : a = b := by
  have := F.infinity_lt
  simp only [rank, signed, isNaN, magnitude, negative] at h
  by_cases hna : F.half ≤ a <;> by_cases hnb : F.half ≤ b <;>
    simp only [hna, hnb, decide_true, decide_false, if_true, if_false, Bool.true_and,
      Bool.false_and, Bool.not_eq_true', decide_eq_false_iff_not, Bool.false_eq_true] at h <;>
    (try split_ifs at h) <;> omega

/-- The total order is the order of the ranks. -/
theorem compareTotal_eq_compare {a b : Nat} (ha : a < 2 * F.half) (hb : b < 2 * F.half) :
    F.compareTotal a b = compare (F.rank a) (F.rank b) := by
  have := F.infinity_lt
  -- the four sign combinations, with both sides of every comparison made explicit
  simp only [compareTotal, less, rank, signed, number, isNaN, magnitude, negative]
  by_cases hna : F.half ≤ a <;> by_cases hnb : F.half ≤ b <;>
    simp only [hna, hnb, decide_true, decide_false, if_true, if_false, Bool.true_and,
      Bool.false_and, Bool.false_eq_true, Bool.and_eq_true, Bool.not_eq_true',
      decide_eq_false_iff_not, decide_eq_true_eq, compare, compareOfLessAndEq] <;>
    split_ifs <;> first | rfl | omega

end Format

end FloatBits
