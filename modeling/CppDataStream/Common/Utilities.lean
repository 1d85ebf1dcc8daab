/-
# `prettyPrintBytes`

`src/common/Utilities.cpp`, lines 49-62.  The function prints a byte count as a
number of bytes, kilobytes and so on.  Its loop divides the count by 1024, and drops
the remainder, as often as it can, and keeps the count before the last division
divided by `1024.0`, so the number printed has the precision of one unit of the
suffix before.  Floating-point values are rational numbers here: the conversion of an
integer rounds to the precision of the type, and a division by `1024.0` is exact.

A count of `1024` bytes or less does not enter the loop.  The loop itself would scale
a count of `1024`: this one count is printed as `1024.000000 B`, where every other
positive count is normalised (`normalised_iff`).
-/

import CppDataStream.Library.Rounding
import Mathlib.Algebra.Order.Field.Rat
import Mathlib.Tactic.FieldSimp
import Mathlib.Tactic.Linarith
import Mathlib.Tactic.NormNum
import Mathlib.Tactic.Positivity
import Mathlib.Tactic.Ring

namespace CppDataStream

open Rounding

/-- The significant bits of a `long double`, at least those of a `double`. -/
structure LongDouble where
  mantDig : ℕ
  le_mantDig : 53 ≤ mantDig

/-- `static_cast<long double>(bytes)`. -/
def LongDouble.ofUInt64 (L : LongDouble) (bytes : UInt64) : ℚ := toPrecision L.mantDig bytes.toNat

/-- `static_cast<double>(bytes)`. -/
def doubleOfUInt64 (bytes : UInt64) : ℚ := toPrecision 53 bytes.toNat

/-- `suffix`. -/
def suffix : List String := ["B", "KB", "MB", "GB", "TB", "PB", "EB"]

/-- The loop, which `rounds` more times finds `i < suffix.size() - 1`. -/
def scaleLoop : ℕ → ℕ → UInt64 → ℚ → ℚ × ℕ
  | 0, i, _, dblBytes => (dblBytes, i)
  | rounds + 1, i, bytes, dblBytes =>
      if bytes / 1024 > 0 then
        scaleLoop rounds (i + 1) (bytes / 1024) (doubleOfUInt64 bytes / 1024)
      else (dblBytes, i)

/-- `dblBytes` and `i` where `std::format` is called. -/
def scale (L : LongDouble) (bytes : UInt64) : ℚ × ℕ :=
  if bytes > 1024 then scaleLoop (suffix.length - 1) 0 bytes (L.ofUInt64 bytes)
  else (L.ofUInt64 bytes, 0)

/-- `{:02f}`: six digits after the point, which are more characters than the width 2
asks for. -/
def formatFixed (v : ℚ) : String :=
  let digits := roundDiv (v.num.toNat * 10 ^ 6) v.den
  let fraction := toString (digits % 10 ^ 6)
  toString (digits / 10 ^ 6) ++ "." ++ "".pushn '0' (6 - fraction.length) ++ fraction

/-- `prettyPrintBytes`. -/
def prettyPrintBytes (L : LongDouble) (bytes : UInt64) : String :=
  formatFixed (scale L bytes).1 ++ " " ++ suffix.getD (scale L bytes).2 ""

/-! ### The loop -/

/-- The loop as it stands in the source. -/
theorem scaleLoop_eq {rounds i : ℕ} (hi : i + rounds = suffix.length - 1) (bytes : UInt64)
    (dblBytes : ℚ) :
    scaleLoop rounds i bytes dblBytes =
      if bytes / 1024 > 0 ∧ i < suffix.length - 1 then
        scaleLoop (rounds - 1) (i + 1) (bytes / 1024) (doubleOfUInt64 bytes / 1024)
      else (dblBytes, i) := by
  cases rounds with
  | zero => rw [if_neg (by omega), scaleLoop]
  | succ rounds =>
      have hlt : i < suffix.length - 1 := by omega
      simp only [scaleLoop, hlt, and_true, Nat.add_sub_cancel]

/-- A `uint64_t` is divided as a number is. -/
theorem toNat_div_1024 (bytes : UInt64) : (bytes / 1024).toNat = bytes.toNat / 1024 :=
  UInt64.toNat_div bytes 1024

/-- The loop goes on for 1024 bytes and more. -/
theorem div_1024_pos_iff (bytes : UInt64) : bytes / 1024 > 0 ↔ 1024 ≤ bytes.toNat := by
  rw [gt_iff_lt, UInt64.lt_iff_toNat_lt, toNat_div_1024]
  exact Nat.div_pos_iff.trans (by omega)

/-- **What the loop computes**, when it is given as many rounds as it can make: the
exponent of the largest power of 1024 in the count, and the count before the last
round over 1024. -/
theorem scaleLoop_eq_log {rounds : ℕ} (i : ℕ) (bytes : UInt64) (dblBytes : ℚ)
    (hrounds : Nat.log 1024 bytes.toNat ≤ rounds) :
    scaleLoop rounds i bytes dblBytes =
      (if Nat.log 1024 bytes.toNat = 0 then dblBytes
        else ((bytes.toNat / 1024 ^ (Nat.log 1024 bytes.toNat - 1) : ℕ) : ℚ) / 1024,
        i + Nat.log 1024 bytes.toNat) := by
  induction rounds generalizing i bytes dblBytes with
  | zero =>
      have hlog : Nat.log 1024 bytes.toNat = 0 := by omega
      rw [scaleLoop, if_pos hlog, hlog, Nat.add_zero]
  | succ rounds ih =>
      rw [scaleLoop]
      by_cases hle : 1024 ≤ bytes.toNat
      · have hlog : Nat.log 1024 bytes.toNat = Nat.log 1024 (bytes / 1024).toNat + 1 := by
          rw [toNat_div_1024, Nat.log_of_one_lt_of_le (by norm_num) hle]
        rw [if_pos ((div_1024_pos_iff bytes).mpr hle), ih _ _ _ (by omega), hlog,
          if_neg (Nat.succ_ne_zero _), Nat.add_sub_cancel, Nat.add_right_comm, Nat.add_assoc]
        congr 1
        split_ifs with hzero
        · -- the last round divides an integer that has at most 20 bits
          have hlt : bytes.toNat < 1024 ^ (1 + 1) := by
            have := Nat.lt_pow_succ_log_self (b := 1024) (by norm_num) bytes.toNat
            rwa [hlog, hzero] at this
          rw [hzero, pow_zero, Nat.div_one, doubleOfUInt64, toPrecision_of_lt (by norm_num)
            (hlt.trans (by norm_num))]
        · obtain ⟨j, hj⟩ := Nat.exists_eq_succ_of_ne_zero hzero
          rw [toNat_div_1024] at hj ⊢
          rw [hj, Nat.succ_sub_one, Nat.div_div_eq_div_mul, Nat.pow_succ']
      · rw [if_neg fun h => hle ((div_1024_pos_iff bytes).mp h), Nat.log_of_lt (by omega)]
        rfl

/-! ### Normalised byte counts -/

/-- `v` with the suffix `i` is what `b` bytes are normalised to: `i` is the largest
exponent of a power of 1024 that is at most `b`, and `v` times this power is `b`, short
of less than a unit of the suffix before. -/
structure Normalised (b : ℕ) (v : ℚ) (i : ℕ) : Prop where
  index_le : i ≤ 6
  pow_le : 1024 ^ i ≤ b
  largest : ∀ j, 1024 ^ j ≤ b → j ≤ i
  one_le : 1 ≤ v
  lt : v < 1024
  mul_pow_le : v * 1024 ^ i ≤ b
  lt_mul_pow : (b : ℚ) < (v + 1 / 1024) * 1024 ^ i
  eq_of_zero : i = 0 → v = b

/-- Counts below 1024 are normalised as they are. -/
theorem normalised_of_lt {b : ℕ} (hb : 1 ≤ b) (hlt : b < 1024) : Normalised b b 0 where
  index_le := Nat.zero_le 6
  pow_le := by simpa using hb
  largest j hj := by
    by_contra hne
    have := Nat.pow_le_pow_right (show 0 < 1024 by norm_num) (show 1 ≤ j by omega)
    omega
  one_le := by exact_mod_cast hb
  lt := by exact_mod_cast hlt
  mul_pow_le := by simp
  lt_mul_pow := by simp
  eq_of_zero _ := rfl

/-- Counts from 1024 on are normalised by their quotient with the power of 1024 before
the largest. -/
theorem normalised_div {b i : ℕ} (hi : i + 1 ≤ 6) (hle : 1024 ^ (i + 1) ≤ b)
    (hlt : b < 1024 ^ (i + 2)) : Normalised b (((b / 1024 ^ i : ℕ) : ℚ) / 1024) (i + 1) := by
  have hpos : 0 < 1024 ^ i := Nat.pow_pos (by norm_num)
  have hlow : 1024 ≤ b / 1024 ^ i := by
    rw [Nat.le_div_iff_mul_le hpos, ← Nat.pow_succ']
    exact hle
  have hhigh : b / 1024 ^ i < 1024 * 1024 := by
    rw [Nat.div_lt_iff_lt_mul hpos]
    calc b
      _ < 1024 ^ (i + 2) := hlt
      _ = 1024 * 1024 * 1024 ^ i := by ring
  have hmul : b / 1024 ^ i * 1024 ^ i ≤ b := Nat.div_mul_le_self b _
  have hmul' : b < (b / 1024 ^ i + 1) * 1024 ^ i := by
    rw [Nat.mul_comm]
    exact Nat.lt_mul_div_succ b hpos
  generalize hq : b / 1024 ^ i = q at hlow hhigh hmul hmul'
  refine ⟨hi, hle, fun j hj => ?_, ?_, ?_, ?_, ?_, fun h => absurd h (by omega)⟩
  · have := (Nat.pow_lt_pow_iff_right (show 1 < 1024 by norm_num)).mp (hj.trans_lt hlt)
    omega
  · rw [le_div_iff₀ (by norm_num), one_mul]
    exact_mod_cast hlow
  · rw [div_lt_iff₀ (by norm_num)]
    exact_mod_cast hhigh
  · calc (q : ℚ) / 1024 * 1024 ^ (i + 1)
      _ = (q * 1024 ^ i : ℕ) := by
          push_cast
          ring
      _ ≤ b := by exact_mod_cast hmul
  · calc (b : ℚ)
      _ < ((q + 1) * 1024 ^ i : ℕ) := by exact_mod_cast hmul'
      _ = ((q : ℚ) / 1024 + 1 / 1024) * 1024 ^ (i + 1) := by
          push_cast
          ring

/-- A count of at most 1024 bytes is printed as it is. -/
theorem scale_of_le (L : LongDouble) {b : UInt64} (hb : b.toNat ≤ 1024) :
    scale L b = ((b.toNat : ℚ), 0) := by
  have hnot : ¬ b > 1024 := by
    rw [gt_iff_lt, UInt64.lt_iff_toNat_lt]
    exact Nat.not_lt.mpr hb
  rw [scale, if_neg hnot, LongDouble.ofUInt64, toPrecision_of_lt (by have := L.le_mantDig; omega)]
  calc b.toNat
    _ ≤ 1024 := hb
    _ < 2 ^ 53 := by norm_num
    _ ≤ 2 ^ L.mantDig := Nat.pow_le_pow_right (by norm_num) L.le_mantDig

/-- A larger count is scaled to the largest power of 1024: there is a suffix for it. -/
theorem scale_of_gt (L : LongDouble) {b : UInt64} (hb : 1024 < b.toNat) :
    ∃ i, i + 1 ≤ 6 ∧ Nat.log 1024 b.toNat = i + 1 ∧
      scale L b = (((b.toNat / 1024 ^ i : ℕ) : ℚ) / 1024, i + 1) := by
  have hgt : b > 1024 := UInt64.lt_iff_toNat_lt.mpr hb
  have hpos : 0 < Nat.log 1024 b.toNat := Nat.log_pos (by norm_num) hb.le
  have hlog : Nat.log 1024 b.toNat < 7 :=
    Nat.log_lt_of_lt_pow (by omega) (b.toNat_lt.trans (by norm_num))
  have hrounds : Nat.log 1024 b.toNat ≤ suffix.length - 1 := Nat.lt_succ_iff.mp hlog
  obtain ⟨i, hi⟩ := Nat.exists_eq_succ_of_ne_zero hpos.ne'
  refine ⟨i, by omega, hi, ?_⟩
  rw [scale, if_pos hgt, scaleLoop_eq_log 0 b _ hrounds, if_neg hpos.ne', hi, Nat.succ_sub_one,
    Nat.zero_add]

/-- **`prettyPrintBytes` normalises every positive byte count but one.**  What it
passes to `std::format` for `b` bytes is normalised if and only if `b` is not 1024. -/
theorem normalised_iff (L : LongDouble) (b : UInt64) (hb : 1 ≤ b) :
    Normalised b.toNat (scale L b).1 (scale L b).2 ↔ b ≠ 1024 := by
  have hone : 1 ≤ b.toNat := UInt64.le_iff_toNat_le.mp hb
  constructor
  · rintro h rfl
    rw [scale_of_le L le_rfl] at h
    exact absurd (show ((1024 : ℕ) : ℚ) < 1024 from h.lt) (by norm_num)
  · intro hne
    have hne : b.toNat ≠ 1024 := fun h => hne (UInt64.toNat_inj.mp h)
    rcases Nat.lt_or_gt_of_ne hne with hlt | hgt
    · rw [scale_of_le L hlt.le]
      exact normalised_of_lt hone hlt
    · obtain ⟨i, hi, hlog, hscale⟩ := scale_of_gt L hgt
      rw [hscale]
      have hle := Nat.pow_log_le_self 1024 (show b.toNat ≠ 0 by omega)
      have hlt := Nat.lt_pow_succ_log_self (show 1 < 1024 by norm_num) b.toNat
      rw [hlog] at hle hlt
      exact normalised_div hi hle hlt

/-- The 80-bit format. -/
def extended : LongDouble := ⟨64, by norm_num⟩

example : prettyPrintBytes extended 1536 = "1.500000 KB" := by decide +kernel

/-- One and a half kilobytes. -/
theorem normalised_iff_1536 :
    Normalised (1536 : UInt64).toNat (scale extended 1536).1 (scale extended 1536).2 ↔
      (1536 : UInt64) ≠ 1024 :=
  normalised_iff extended 1536 (by decide)

/-- One kilobyte is not normalised. -/
theorem not_normalised_1024 :
    (1 : UInt64) ≤ 1024 ∧
      ¬ Normalised (1024 : UInt64).toNat (scale extended 1024).1 (scale extended 1024).2 := by
  refine ⟨by decide, fun h => ?_⟩
  rw [scale_of_le extended le_rfl] at h
  exact absurd (show ((1024 : ℕ) : ℚ) < 1024 from h.lt) (by norm_num)

end CppDataStream
