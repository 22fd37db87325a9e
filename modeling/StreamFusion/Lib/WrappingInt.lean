import Mathlib

/-!
# Signed 64-bit arithmetic on integers

Times and intervals are signed 64-bit numbers whose sums and differences wrap around.  They are
modelled as integers, and `wrap` brings a result back into the range.  Wrapping commutes with sums,
so a chain of wrapping operations is exact as soon as its final result is in range, whatever its
intermediate results are.
-/

namespace I64

/-- The smallest 64-bit integer. -/
def min : Int := -9223372036854775808

/-- The largest 64-bit integer. -/
def max : Int := 9223372036854775807

/-- The number of the 64-bit range with the same residue. -/
def wrap (x : Int) : Int := (x + 9223372036854775808) % 18446744073709551616 - 9223372036854775808

/-- A number that 64 bits can hold. -/
def InRange (x : Int) : Prop := min ≤ x ∧ x ≤ max

instance (x : Int) : Decidable (InRange x) := inferInstanceAs (Decidable (_ ∧ _))

theorem wrap_of_inRange {x : Int} (h : InRange x) : wrap x = x := by
  unfold InRange min max at h
  unfold wrap
  omega

theorem inRange_wrap (x : Int) : InRange (wrap x) := by
  unfold InRange min max wrap
  omega

@[simp] theorem wrap_wrap_add (x y : Int) : wrap (wrap x + y) = wrap (x + y) := by
  unfold wrap
  omega

/-- The sum with a number that is not negative; it stops at the end of the range. -/
def saturatingAdd (x y : Int) : Int := if x + y ≤ max then x + y else Max.max x max

theorem le_saturatingAdd {x y : Int} (h : 0 ≤ y) : x ≤ saturatingAdd x y := by
  unfold saturatingAdd
  split <;> omega

end I64
