import Juxta.Decimal.Shortest
import Juxta.Proofs.Decimal.Digits
import Mathlib.Algebra.Order.Field.Power
import Mathlib.Data.Rat.Cast.Order
import Mathlib.Tactic.FieldSimp
import Mathlib.Tactic.Linarith
import Mathlib.Tactic.NormNum
import Mathlib.Tactic.Positivity

/-!
# Magnitudes

A ratio is brought to a power of two or of ten by scaling both of its sides, so that all comparisons
are between natural numbers.  Here they are compared as rational numbers, and the exponents at which
the digits of a ratio begin are shown not to be too large.

## What is here

* `Binary64.ratio_lt_iff`, `Binary64.le_ratio_iff` — a ratio that is compared with a power.
* `Binary64.roundToEven_near` — rounding to an integer goes half a unit at most.
* `Binary64.zpow_binaryExponent_le`, `Decimal.zpow_decimalExponent_le` — where the digits begin.
-/

set_option autoImplicit false
namespace Juxta

/-! ## Ratios and powers -/

namespace Binary64

theorem power_pos {base : Nat} (hbase : 0 < base) (e : Int) : 0 < power base e :=
  Nat.pow_pos hbase

/-- A ratio of powers is a power with an exponent of either sign. -/
theorem power_eq {base : Nat} (hbase : 0 < base) (e : Int) :
    (power base e : ℚ) = (base : ℚ) ^ e * power base (-e) := by
  have hbase' : (base : ℚ) ≠ 0 := Nat.cast_ne_zero.2 hbase.ne'
  have hpower (e : Int) : (power base e : ℚ) = (base : ℚ) ^ (e.toNat : Int) := by
    rw [zpow_natCast]
    exact Nat.cast_pow base e.toNat
  rw [hpower, hpower, ← zpow_add₀ hbase']
  congr 1
  omega

/-- A ratio is compared with a power by scaling both of its sides. -/
theorem ratio_lt_iff {base num den : Nat} (hbase : 0 < base) (hden : 0 < den) (e : Int) :
    num * power base (-e) < den * power base e ↔ (num : ℚ) / den < (base : ℚ) ^ e := by
  have hden : (0 : ℚ) < den := Nat.cast_pos.2 hden
  have hpower : (0 : ℚ) < power base (-e) := Nat.cast_pos.2 (power_pos hbase (-e))
  rw [div_lt_iff₀ hden, ← Nat.cast_lt (α := ℚ), Nat.cast_mul, Nat.cast_mul, power_eq hbase e,
    ← mul_assoc, mul_lt_mul_iff_left₀ hpower, mul_comm (den : ℚ)]

theorem le_ratio_iff {base num den : Nat} (hbase : 0 < base) (hden : 0 < den) (e : Int) :
    den * power base e ≤ num * power base (-e) ↔ (base : ℚ) ^ e ≤ (num : ℚ) / den := by
  rw [← not_lt, ratio_lt_iff hbase hden, not_lt]

/-- A ratio is rounded to an integer that is at most half away from it. -/
theorem roundToEven_near {den : Nat} (hden : 0 < den) (num : Nat) :
    |(roundToEven num den : ℚ) - (num : ℚ) / den| ≤ 1 / 2 := by
  have hpos : (0 : ℚ) < den := Nat.cast_pos.2 hden
  have hbounds : 2 * num ≤ (2 * roundToEven num den + 1) * den ∧
      2 * roundToEven num den * den ≤ 2 * num + den := by
    have hdiv := Nat.div_add_mod num den
    have hlt := Nat.mod_lt num hden
    unfold roundToEven
    dsimp only
    generalize num / den = floor at *
    generalize num % den = r at *
    have hcomm : den * floor = floor * den := Nat.mul_comm _ _
    have hsucc : (floor + 1) * den = floor * den + den := Nat.succ_mul _ _
    split <;> [skip; split <;> [skip; split]]
    all_goals constructor <;> nlinarith
  rw [abs_le, neg_le_sub_iff_le_add, sub_le_iff_le_add, div_le_iff₀ hpos, ← sub_le_iff_le_add',
    le_div_iff₀ hpos]
  have hlow : (2 * num : ℚ) ≤ (2 * roundToEven num den + 1) * den := by exact_mod_cast hbounds.1
  have hhigh : (2 * roundToEven num den * den : ℚ) ≤ 2 * num + den := by exact_mod_cast hbounds.2
  constructor <;> nlinarith

/-- The integer is one of the two next to the ratio. -/
theorem roundToEven_eq (num den : Nat) :
    roundToEven num den = num / den ∨ roundToEven num den = num / den + 1 := by
  unfold roundToEven
  dsimp only
  split <;> [skip; split <;> [skip; split]]
  all_goals simp

/-- The power of two of the exponent is not greater than the ratio. -/
theorem zpow_binaryExponent_le {num den : Nat} (hnum : 0 < num) (hden : 0 < den) :
    (2 : ℚ) ^ binaryExponent num den ≤ (num : ℚ) / den := by
  unfold binaryExponent
  dsimp only
  split
  · have hlow : 2 ^ num.log2 ≤ num := Nat.log2_self_le hnum.ne'
    have hhigh : den < 2 ^ (den.log2 + 1) := Nat.lt_log2_self
    have hlow : (2 : ℚ) ^ (num.log2 : Int) ≤ num := by
      rw [zpow_natCast]
      exact_mod_cast hlow
    have hhigh : (den : ℚ) ≤ (2 : ℚ) ^ ((den.log2 : Int) + 1) := by
      rw [← Nat.cast_succ, zpow_natCast]
      exact_mod_cast hhigh.le
    rw [le_div_iff₀ (Nat.cast_pos.2 hden)]
    calc (2 : ℚ) ^ ((num.log2 : Int) - den.log2 - 1) * den
        ≤ (2 : ℚ) ^ ((num.log2 : Int) - den.log2 - 1) * (2 : ℚ) ^ ((den.log2 : Int) + 1) := by
          gcongr
      _ = (2 : ℚ) ^ (num.log2 : Int) := by
          rw [← zpow_add₀ (by norm_num)]
          congr 1
          omega
      _ ≤ num := hlow
  · next hge => exact (le_ratio_iff Nat.zero_lt_two hden _).1 (Nat.le_of_not_lt hge)

end Binary64

/-! ## The first digit -/

namespace Decimal

open Binary64

/-- Five decimals of the logarithm of two: `10 ^ 0.30102 ≤ 2 ≤ 10 ^ 0.30103`. -/
theorem pow_two_bounds : 10 ^ 30102 ≤ 2 ^ 100000 ∧ 2 ^ 100000 ≤ 10 ^ 30103 := by
  decide +kernel

/-- Between powers of two and of ten, for exponents of either sign. -/
theorem zpow_le_zpow_of_bounds {scale low high : Nat} (hlow : 10 ^ low ≤ 2 ^ scale)
    (hhigh : 2 ^ scale ≤ 10 ^ high) (b : Int) :
    (10 : ℚ) ^ min (low * b) (high * b) ≤ (2 : ℚ) ^ (scale * b) := by
  have hten : (1 : ℚ) ≤ 10 := by norm_num
  have hlow : (10 : ℚ) ^ (low : Int) ≤ (2 : ℚ) ^ (scale : Int) := by
    rw [zpow_natCast, zpow_natCast]
    exact_mod_cast hlow
  have hhigh : (2 : ℚ) ^ (scale : Int) ≤ (10 : ℚ) ^ (high : Int) := by
    rw [zpow_natCast, zpow_natCast]
    exact_mod_cast hhigh
  rw [zpow_mul 2]
  rcases Int.le_total 0 b with hb | hb
  · calc (10 : ℚ) ^ min (low * b) (high * b)
        ≤ (10 : ℚ) ^ (low * b) := zpow_le_zpow_right₀ hten (min_le_left _ _)
      _ = ((10 : ℚ) ^ (low : Int)) ^ b := zpow_mul _ _ _
      _ ≤ ((2 : ℚ) ^ (scale : Int)) ^ b := zpow_le_zpow_left₀ hb (by positivity) hlow
  · calc (10 : ℚ) ^ min (low * b) (high * b)
        ≤ (10 : ℚ) ^ (high * b) := zpow_le_zpow_right₀ hten (min_le_right _ _)
      _ = ((10 : ℚ) ^ (high : Int)) ^ b := zpow_mul _ _ _
      _ ≤ ((2 : ℚ) ^ (scale : Int)) ^ b := by
        obtain ⟨c, rfl⟩ : ∃ c : Nat, b = -c := ⟨b.natAbs, by omega⟩
        rw [zpow_neg, zpow_neg, zpow_natCast _ c, zpow_natCast _ c]
        gcongr

/-- The estimate of the power of ten is too large by one at most. -/
theorem zpow_estimate_le {b : Int} (hb : b ≤ 100000) :
    (10 : ℚ) ^ (Int.fdiv (b * 30103) 100000 - 1) ≤ (2 : ℚ) ^ b := by
  have hfdiv : Int.fdiv (b * 30103) 100000 = b * 30103 / 100000 :=
    Int.fdiv_eq_ediv_of_nonneg _ (by decide)
  have hbounds := zpow_le_zpow_of_bounds pow_two_bounds.1 pow_two_bounds.2 b
  refine le_of_pow_le_pow_left₀ (n := 100000) (by decide) (by positivity) ?_
  rw [← zpow_natCast, ← zpow_natCast, ← zpow_mul, ← zpow_mul,
    mul_comm b ((100000 : Nat) : Int)]
  refine le_trans (zpow_le_zpow_right₀ (by norm_num) ?_) hbounds
  rw [hfdiv]
  omega

/-- The number has a digit at the power of ten of its exponent. -/
theorem zpow_decimalExponent_le {num den : Nat} (hnum : 0 < num) (hden : 0 < den)
    (hb : binaryExponent num den ≤ 100000) :
    (10 : ℚ) ^ decimalExponent num den ≤ (num : ℚ) / den := by
  unfold decimalExponent adjustExponent
  split
  · exact (zpow_estimate_le hb).trans (zpow_binaryExponent_le hnum hden)
  · next hge =>
    split
    · next hle => exact (le_ratio_iff (show 0 < 10 by decide) hden _).1 hle
    · exact (le_ratio_iff (show 0 < 10 by decide) hden _).1 (Nat.le_of_not_lt hge)

end Decimal
end Juxta
