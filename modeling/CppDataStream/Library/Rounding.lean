/-
# Rounding to nearest, ties to even

`roundDiv n d` is the integer nearest to the fraction `n / d`, the even one of two
that are equally near.  `toPrecision p n` is the integer of at most `p` significant
bits that is nearest to `n` in this sense, which is what the conversion of an integer
to a binary floating-point format with `p` significant bits gives.  Integers below
`2 ^ p` are converted exactly (`toPrecision_of_lt`).
-/

import Mathlib.Algebra.Ring.Nat
import Mathlib.Data.Nat.Log
import Mathlib.Tactic.Common

namespace CppDataStream
namespace Rounding

/-- The integer nearest to `n / d`. -/
def roundDiv (n d : ℕ) : ℕ :=
  if 2 * (n % d) < d ∨ (2 * (n % d) = d ∧ n / d % 2 = 0) then n / d else n / d + 1

/-- Nothing is rounded in a division by one. -/
theorem roundDiv_one (n : ℕ) : roundDiv n 1 = n := by
  simp [roundDiv, Nat.mod_one]

/-- The integer of at most `p` significant bits nearest to `n`. -/
def toPrecision (p n : ℕ) : ℕ :=
  roundDiv n (2 ^ (Nat.log 2 n + 1 - p)) * 2 ^ (Nat.log 2 n + 1 - p)

/-- An integer that has no more than `p` bits is not rounded. -/
theorem toPrecision_of_lt {p n : ℕ} (hp : 0 < p) (h : n < 2 ^ p) : toPrecision p n = n := by
  have hlog : Nat.log 2 n < p := by
    rcases Nat.eq_zero_or_pos n with rfl | hn
    · simpa using hp
    · exact Nat.log_lt_of_lt_pow hn.ne' h
  rw [toPrecision, Nat.sub_eq_zero_of_le hlog, Nat.pow_zero, roundDiv_one, Nat.mul_one]

end Rounding
end CppDataStream
