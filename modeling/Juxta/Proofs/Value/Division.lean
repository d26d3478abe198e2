import Juxta.Proofs.Evaluation.Range
import Mathlib.Data.Rat.Floor

/-!
# Division and remainder

The quotient of two integers is their ratio without its fraction, and the remainder is what is then
missing from the dividend.  Both are computed apart from each other, and only the quotient is
wrapped, since there is one pair of integers of 64 bits whose ratio does not have 64 bits: the least
of them and minus one.

## What is here

* `towardZero` — a ratio without its fraction; `tdiv_eq_towardZero` — truncating division.
* `Overflows` — the only operands whose ratio is out of range; `isInt64_tdiv` — all others.
* `Division a b q r` — all that ties a quotient and a remainder to their operands.
* `quotient_and_remainder_fit` — the two operators are tied so.
-/

set_option autoImplicit false
namespace Juxta

/-! ## Ratios without their fraction -/

/-- The integer next to a ratio, on the side of zero. -/
def towardZero (x : ℚ) : Int :=
  if 0 ≤ x then ⌊x⌋ else ⌈x⌉

theorem towardZero_neg (x : ℚ) : towardZero (-x) = -towardZero x := by
  rcases lt_trichotomy x 0 with hx | rfl | hx
  · rw [towardZero, if_pos (by linarith), towardZero, if_neg (by linarith), Int.floor_neg]
  · simp [towardZero]
  · rw [towardZero, if_neg (by linarith), towardZero, if_pos hx.le, Int.ceil_neg]

/-- **Truncating division is the ratio without its fraction.** -/
theorem tdiv_eq_towardZero (a b : Int) : a.tdiv b = towardZero (a / b) := by
  have hnonneg (m n : Nat) : (m : Int).tdiv n = towardZero ((m : ℚ) / n) := by
    have hratio : (0 : ℚ) ≤ (m : ℚ) / n := div_nonneg m.cast_nonneg n.cast_nonneg
    rw [towardZero, if_pos hratio, Int.tdiv_eq_ediv_of_nonneg (Int.natCast_nonneg m)]
    exact (Rat.floor_intCast_div_natCast m n).symm
  obtain ⟨m, rfl | rfl⟩ := a.eq_nat_or_neg
  all_goals obtain ⟨n, rfl | rfl⟩ := b.eq_nat_or_neg
  all_goals simp [hnonneg, neg_div, div_neg, towardZero_neg, Int.neg_tdiv, Int.tdiv_neg]

/-! ## The only ratio that is out of range -/

/-- The least integer of 64 bits. -/
def leastInteger : Int :=
  -9223372036854775808

/-- The operands whose ratio is one more than the greatest integer of 64 bits. -/
def Overflows (a b : Int) : Prop :=
  a = leastInteger ∧ b = -1

instance (a b : Int) : Decidable (Overflows a b) :=
  inferInstanceAs (Decidable (_ ∧ _))

theorem wrap_eq_self {n : Int} (h : IsInt64 n) : wrap n = n := by
  have hhalf : (↑(Nat.pow 2 64) : Int) = 2 * ↑(Nat.pow 2 63) := by decide
  rw [IsInt64] at h
  exact Int.bmod_eq_of_le (by omega) (by omega)

/-- **A truncated ratio is in range unless its operands overflow.** -/
theorem isInt64_tdiv {a b : Int} (ha : IsInt64 a) (h : ¬ Overflows a b) : IsInt64 (a.tdiv b) := by
  have hpow : (Nat.pow 2 63 : Int) = 9223372036854775808 := rfl
  rw [IsInt64] at ha ⊢
  rw [Overflows, leastInteger] at h
  by_cases hunit : b.natAbs ≤ 1
  · obtain rfl | rfl | rfl : b = 0 ∨ b = 1 ∨ b = -1 := by omega
    · rw [Int.tdiv_zero]
      omega
    · rwa [Int.tdiv_one]
    · rw [Int.tdiv_neg, Int.tdiv_one]
      omega
  · have habs : (a.tdiv b).natAbs = a.natAbs / b.natAbs := Int.natAbs_tdiv a b
    have hhalf : a.natAbs / b.natAbs ≤ a.natAbs / 2 := Nat.div_le_div_left (by omega) (by decide)
    omega

/-! ## Quotient and remainder -/

/-- All that ties a quotient and a remainder to the integers that were divided. -/
structure Division (a b q r : Int) : Prop where
  /-- They make up the dividend, up to a multiple of `2 ^ 64`. -/
  wrap_eq : wrap (q * b + r) = a
  /-- They make it up exactly but for one pair of operands. -/
  exact_iff : q * b + r = a ↔ ¬ Overflows a b
  remainder_lt : |r| < |b|
  remainder_sign : r = 0 ∨ r.sign = a.sign
  quotient_eq : ¬ Overflows a b → q = towardZero (a / b)
  overflow : Overflows a b → q = leastInteger ∧ r = 0
  quotient_inRange : IsInt64 q
  remainder_inRange : IsInt64 r

theorem sign_tmod (a b : Int) : a.tmod b = 0 ∨ (a.tmod b).sign = a.sign := by
  rcases Int.lt_trichotomy a 0 with ha | rfl | ha
  · have hnonneg : 0 ≤ (-a).tmod b := Int.tmod_nonneg b (by omega)
    rw [Int.neg_tmod] at hnonneg
    rcases Int.lt_or_eq_of_le (Int.neg_nonneg.1 hnonneg) with hlt | heq
    · exact .inr ((Int.sign_eq_neg_one_of_neg hlt).trans (Int.sign_eq_neg_one_of_neg ha).symm)
    · exact .inl heq
  · exact .inl (Int.zero_tmod b)
  · rcases Int.lt_or_eq_of_le (Int.tmod_nonneg b ha.le) with hlt | heq
    · exact .inr ((Int.sign_eq_one_of_pos hlt).trans (Int.sign_eq_one_of_pos ha).symm)
    · exact .inl heq.symm

theorem abs_tmod_lt (a : Int) {b : Int} (hb : b ≠ 0) : |a.tmod b| < |b| := by
  rw [Int.abs_eq_natAbs, Int.abs_eq_natAbs, Int.natAbs_tmod]
  exact Int.ofNat_lt.2 (Nat.mod_lt _ (Int.natAbs_pos.2 hb))

theorem division_of_not_overflows {a b : Int} (ha : IsInt64 a) (hb : b ≠ 0)
    (h : ¬ Overflows a b) : Division a b (wrap (a.tdiv b)) (a.tmod b) := by
  have hq := isInt64_tdiv ha h
  rw [wrap_eq_self hq]
  have hexact : a.tdiv b * b + a.tmod b = a := Int.tdiv_mul_add_tmod a b
  exact
    { wrap_eq := by rw [hexact, wrap_eq_self ha]
      exact_iff := iff_of_true hexact h
      remainder_lt := abs_tmod_lt a hb
      remainder_sign := sign_tmod a b
      quotient_eq := fun _ => tdiv_eq_towardZero a b
      overflow := fun h' => absurd h' h
      quotient_inRange := hq
      remainder_inRange := ha.tmod b }

theorem division_of_overflows {a b : Int} (h : Overflows a b) :
    Division a b (wrap (a.tdiv b)) (a.tmod b) := by
  obtain ⟨rfl, rfl⟩ := h
  exact
    { wrap_eq := by decide
      exact_iff := by decide
      remainder_lt := by decide
      remainder_sign := by decide
      quotient_eq := fun h => absurd ⟨rfl, rfl⟩ h
      overflow := by decide
      quotient_inRange := by decide
      remainder_inRange := by decide }

/-- **Division and remainder fit together on all integers of 64 bits**, whatever the divisor.  By
anything but zero both operators yield an integer, and the two are tied to the operands as
`Division` says.  By zero both fail. -/
theorem quotient_and_remainder_fit {a : Int} (ha : IsInt64 a) (b : Int) :
    (b ≠ 0 → ∃ q r, applyOperator "/" (.int a) (.int b) = .ok (.int q) ∧
      applyOperator "%" (.int a) (.int b) = .ok (.int r) ∧ Division a b q r) ∧
      (b = 0 → applyOperator "/" (.int a) (.int b) = .error .zeroDivision ∧
        applyOperator "%" (.int a) (.int b) = .error .zeroDivision) := by
  have hdiv : applyOperator "/" (.int a) (.int b) = (Operator.div.onInts a b).map .int := rfl
  have hmod : applyOperator "%" (.int a) (.int b) = (Operator.mod.onInts a b).map .int := rfl
  rw [hdiv, hmod, Operator.onInts, Operator.onInts]
  refine ⟨fun hzero => ?_, fun hzero => by simp [hzero, Except.map]⟩
  rw [if_neg hzero, if_neg hzero]
  refine ⟨_, _, rfl, rfl, ?_⟩
  by_cases h : Overflows a b
  · exact division_of_overflows h
  · exact division_of_not_overflows ha hzero h

/-- The pair that overflows, and a negative dividend that is not a multiple of its divisor. -/
theorem quotient_and_remainder_fit_least :
    (∃ q r, applyOperator "/" (.int leastInteger) (.int (-1)) = .ok (.int q) ∧
      applyOperator "%" (.int leastInteger) (.int (-1)) = .ok (.int r) ∧
        Division leastInteger (-1) q r) ∧
      (∃ q r, applyOperator "/" (.int (-7)) (.int 2) = .ok (.int q) ∧
        applyOperator "%" (.int (-7)) (.int 2) = .ok (.int r) ∧ Division (-7) 2 q r) ∧
      applyOperator "/" (.int (-7)) (.int 0) = .error .zeroDivision :=
  ⟨(quotient_and_remainder_fit (by decide) (-1)).1 (by decide),
    (quotient_and_remainder_fit (by decide) 2).1 (by decide),
    ((quotient_and_remainder_fit (by decide) 0).2 rfl).1⟩

end Juxta
