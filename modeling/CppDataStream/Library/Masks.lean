/-
# Masks of low bits

Or-ing a number with its shifts by `1`, `2`, `4`, ... copies every bit to the places
below it: after shifts by `s₁`, ..., `sₙ`, none of them longer than the copies so far,
a bit stands where the number has one at most `s₁ + ... + sₙ` places above
(`Smeared`).  When that covers the whole number the result is a mask of low bits,
`2 ^ k - 1` for the least `k` with `x < 2 ^ k` (`Smeared.eq_mask`).

A counter that wraps at `2 ^ w`, masked with `2 ^ k - 1` for `k ≤ w`, counts modulo
`2 ^ k` (`wrap_and_mask`).
-/

import Mathlib.Data.Nat.Size
import Mathlib.Data.Nat.Bitwise
import Mathlib.Data.Nat.ModEq
import Mathlib.Algebra.Ring.Nat
import Mathlib.Tactic.Common

namespace CppDataStream
namespace Masks

/-- `y` has a bit where `x` has one fewer than `k` places above. -/
def Smeared (x y k : ℕ) : Prop := ∀ i, y.testBit i = true ↔ ∃ j < k, x.testBit (i + j) = true

/-- A number has its own bits. -/
theorem Smeared.refl (x : ℕ) : Smeared x x 1 := fun i => by simp

/-- A shift that is not longer than the copies extends them by its length. -/
theorem Smeared.or_shift {x y k s : ℕ} (h : Smeared x y k) (hs : s ≤ k) :
    Smeared x (y ||| y >>> s) (k + s) := by
  intro i
  rw [Nat.testBit_or, Nat.testBit_shiftRight, Bool.or_eq_true, h, h]
  constructor
  · rintro (⟨j, hj, hx⟩ | ⟨j, hj, hx⟩)
    · exact ⟨j, by omega, hx⟩
    · exact ⟨s + j, by omega, by rwa [Nat.add_comm s i, Nat.add_assoc] at hx⟩
  · rintro ⟨j, hj, hx⟩
    rcases Nat.lt_or_ge j k with hjk | hjk
    · exact Or.inl ⟨j, hjk, hx⟩
    · exact Or.inr ⟨j - s, by omega, by rwa [show s + i + (j - s) = i + j by omega]⟩

/-- **Copies that cover the whole number leave a mask.** -/
theorem Smeared.eq_mask {x y k : ℕ} (h : Smeared x y k) (hx : x < 2 ^ k) : y = 2 ^ x.size - 1 := by
  refine Nat.eq_of_testBit_eq fun i => ?_
  rw [Nat.testBit_two_pow_sub_one, Bool.eq_iff_iff, h, decide_eq_true_iff, Nat.lt_size]
  constructor
  · rintro ⟨j, -, hj⟩
    exact (Nat.pow_le_pow_right (by decide) (Nat.le_add_right i j)).trans (Nat.ge_two_pow_of_testBit hj)
  · intro hle
    obtain ⟨j, hij, hj⟩ := Nat.exists_ge_and_testBit_of_ge_two_pow hle
    have hjk : j < k := by
      by_contra hge
      exact absurd (Nat.ge_two_pow_of_testBit hj)
        (Nat.not_le.mpr (hx.trans_le (Nat.pow_le_pow_right (by decide) (Nat.le_of_not_lt hge))))
    exact ⟨j - i, by omega, by rwa [show i + (j - i) = j by omega]⟩

/-- The mask of `x` covers `x`, and it is the least that does. -/
theorem size_pred_le_iff {c k : ℕ} (hc : 0 < c) : (c - 1).size ≤ k ↔ c ≤ 2 ^ k := by
  rw [Nat.size_le]
  omega

/-- A masked counter counts modulo the power of two, also past its wrap. -/
theorem wrap_and_mask {k w : ℕ} (h : k ≤ w) (i : ℕ) : i % 2 ^ w &&& (2 ^ k - 1) = i % 2 ^ k := by
  rw [Nat.and_two_pow_sub_one_eq_mod, Nat.mod_mod_of_dvd _ (Nat.pow_dvd_pow 2 h)]

/-- Places less than `m` apart are different modulo `m`. -/
theorem add_mod_inj {m n i j : ℕ} (hi : i < m) (hj : j < m) (h : (n + i) % m = (n + j) % m) : i = j := by
  have h : Nat.ModEq m i j := Nat.ModEq.add_left_cancel' n h
  rwa [Nat.ModEq, Nat.mod_eq_of_lt hi, Nat.mod_eq_of_lt hj] at h

end Masks
end CppDataStream
