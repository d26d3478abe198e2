import Juxta.Proofs.Decimal.Magnitude
import Mathlib.Data.List.DropRight

/-!
# The shortest decimal rounds to its number

The numbers that round to a floating-point number lie between the midpoints to its neighbours.  The
search for a short decimal looks for one there, and the seventeen digits to which it comes in the
end always suffice.  Since no number rounds to two, a floating-point number can be told by its
shortest decimal.

## What is here

* `Rounds m q v` — the number `v` rounds to `m * 2 ^ q`; `contains_iff` — how that is tested.
* `rounds_search`, `rounds_nearestOnGrid` — what is found, be it on the last grid.
* `magnitude` — a decimal as a rational number; `rounds_shortest` — the shortest one.
* `Canonical` — the significands and exponents of finite numbers; `Rounds.unique` — no number rounds
  to two of them.
-/

set_option autoImplicit false
namespace Juxta.Decimal

open Binary64 (power power_pos power_eq hiddenBit leastExponent)

variable {m m' num den : Nat} {q q' e : Int} {v : ℚ}

/-! ## Rounding -/

/-- The quarters of a unit between `m * 2 ^ q` and the midpoint to its lower neighbour. -/
def quartersBelow (m : Nat) (q : Int) : Nat :=
  if m = hiddenBit && q ≠ leastExponent then 1 else 2

theorem quartersBelow_le (m : Nat) (q : Int) : (quartersBelow m q : ℚ) ≤ 2 := by
  rw [quartersBelow]
  split <;> norm_num

/-- The number rounds to `m * 2 ^ q`: it lies between the midpoints to the neighbours, and strictly
between them if `m` is odd. -/
structure Rounds (m : Nat) (q : Int) (v : ℚ) : Prop where
  low : ((m : ℚ) - quartersBelow m q / 4) * 2 ^ q ≤ v
  high : v ≤ ((m : ℚ) + 1 / 2) * 2 ^ q
  odd : m % 2 = 1 → ((m : ℚ) - quartersBelow m q / 4) * 2 ^ q < v ∧ v < ((m : ℚ) + 1 / 2) * 2 ^ q

/-- Quarters of a unit and a ratio, scaled to natural numbers. -/
theorem scaled_quarters (hden : 0 < den) (a : Nat) (q : Int) :
    ∃ c : ℚ, 0 < c ∧ (a * power 2 q * den : Nat) = (a : ℚ) / 4 * 2 ^ q * c ∧
      (num * (4 * power 2 (-q)) : Nat) = (num : ℚ) / den * c := by
  have hden : (0 : ℚ) < den := Nat.cast_pos.2 hden
  have hscale : (0 : ℚ) < power 2 (-q) := Nat.cast_pos.2 (power_pos Nat.zero_lt_two (-q))
  refine ⟨den * (4 * power 2 (-q)), by positivity, ?_, ?_⟩
  · push_cast
    rw [power_eq Nat.zero_lt_two q]
    push_cast
    ring
  · push_cast
    field_simp

theorem quarters_le_iff (hden : 0 < den) (a : Nat) (q : Int) :
    a * power 2 q * den ≤ num * (4 * power 2 (-q)) ↔ (a : ℚ) / 4 * 2 ^ q ≤ (num : ℚ) / den := by
  obtain ⟨c, hc, hleft, hright⟩ := scaled_quarters hden a q
  rw [← Nat.cast_le (α := ℚ), hleft, hright, mul_le_mul_iff_left₀ hc]

theorem le_quarters_iff (hden : 0 < den) (a : Nat) (q : Int) :
    num * (4 * power 2 (-q)) ≤ a * power 2 q * den ↔ (num : ℚ) / den ≤ (a : ℚ) / 4 * 2 ^ q := by
  obtain ⟨c, hc, hleft, hright⟩ := scaled_quarters hden a q
  rw [← Nat.cast_le (α := ℚ), hleft, hright, mul_le_mul_iff_left₀ hc]

/-- **The interval around a number holds what rounds to it.** -/
theorem contains_iff (hm : 0 < m) (hden : 0 < den) :
    (Interval.around m q).contains num den = true ↔ Rounds m q ((num : ℚ) / den) := by
  have hbelow : quartersBelow m q ≤ 4 * m := by
    rw [quartersBelow]
    split <;> omega
  have hlow : ((4 * m - quartersBelow m q : Nat) : ℚ) / 4 = m - quartersBelow m q / 4 := by
    rw [Nat.cast_sub hbelow]
    push_cast
    ring
  have hhigh : ((4 * m + 2 : Nat) : ℚ) / 4 = m + 1 / 2 := by
    push_cast
    ring
  have hcontains : (Interval.around m q).contains num den =
      let low := (4 * m - quartersBelow m q) * power 2 q * den
      let x := num * (4 * power 2 (-q))
      let high := (4 * m + 2) * power 2 q * den
      if m % 2 = 0 then low ≤ x && x ≤ high else low < x && x < high := by
    simp only [Interval.contains, Interval.around, decide_eq_true_eq]
    rfl
  rw [hcontains]
  dsimp only
  split
  · next heven =>
    rw [Bool.and_eq_true, decide_eq_true_iff, decide_eq_true_iff, quarters_le_iff hden,
      le_quarters_iff hden, hlow, hhigh]
    exact ⟨fun h => ⟨h.1, h.2, fun hodd => by omega⟩, fun h => ⟨h.low, h.high⟩⟩
  · next hodd =>
    rw [Bool.and_eq_true, decide_eq_true_iff, decide_eq_true_iff, ← not_le, ← not_le,
      le_quarters_iff hden, quarters_le_iff hden, not_le, not_le, hlow, hhigh]
    exact ⟨fun h => ⟨h.1.le, h.2.le, fun _ => h⟩, fun h => h.odd (by omega)⟩

/-! ## The search -/

/-- A multiple of a power of ten as a ratio. -/
theorem grid_eq (n : Nat) (e : Int) :
    ((n * power 10 e : Nat) : ℚ) / (power 10 (-e) : Nat) = n * 10 ^ e := by
  have hpower : (0 : ℚ) < power 10 (-e) := Nat.cast_pos.2 (power_pos (by decide) (-e))
  have hten := power_eq (show 0 < 10 by decide) e
  rw [Nat.cast_mul, hten, ← mul_assoc, mul_div_cancel_right₀ _ hpower.ne']
  push_cast
  rfl

/-- What is found on a grid rounds to the number. -/
theorem rounds_of_onGrid (hm : 0 < m) {n : Nat} (h : (Interval.around m q).onGrid e = some n) :
    Rounds m q (n * 10 ^ e) := by
  have hcontains (n : Nat)
      (h : (Interval.around m q).contains (n * power 10 e) (power 10 (-e)) = true) :
      Rounds m q (n * 10 ^ e) := by
    rw [← grid_eq]
    exact (contains_iff hm (power_pos (by decide) _)).1 h
  simp only [Interval.onGrid] at h
  split at h
  · cases h
  · next hlow _ =>
    obtain rfl := Option.some.inj h
    exact hcontains _ hlow
  · next hhigh =>
    obtain rfl := Option.some.inj h
    exact hcontains _ hhigh
  · next hlow hhigh =>
    obtain rfl := Option.some.inj h
    rcases Binary64.roundToEven_eq ((Interval.around m q).centre * power 10 (-e))
      ((Interval.around m q).unit * power 10 e) with heq | heq
    · rw [heq]
      exact hcontains _ hlow
    · rw [heq]
      exact hcontains _ hhigh

/-- The nearest multiple of `10 ^ e`. -/
def nearestOnGrid (m : Nat) (q e : Int) : Nat :=
  Binary64.roundToEven ((Interval.around m q).centre * power 10 (-e))
    ((Interval.around m q).unit * power 10 e)

/-- A search ends with a decimal that rounds to the number, if the last one to be tried does. -/
theorem rounds_search (hm : 0 < m) (tries : Nat) (e : Int)
    (hlast : Rounds m q (nearestOnGrid m q (e - tries) * 10 ^ (e - tries))) :
    Rounds m q (((Interval.around m q).search tries e).1 *
      10 ^ ((Interval.around m q).search tries e).2) := by
  induction tries generalizing e with
  | zero =>
    rw [Int.natCast_zero, Int.sub_zero] at hlast
    exact hlast
  | succ tries ih =>
    rw [Interval.search]
    split
    · next n hn => exact rounds_of_onGrid hm hn
    · refine ih (e - 1) ?_
      rwa [show e - 1 - (tries : Int) = e - (tries + 1 : Nat) by omega]

/-! ## Seventeen digits -/

/-- The significands and exponents of finite numbers. -/
structure Canonical (m : Nat) (q : Int) : Prop where
  lt : m < 2 * hiddenBit
  least : leastExponent ≤ q
  greatest : q ≤ 971
  normal : leastExponent < q → hiddenBit ≤ m

theorem centre_eq (m : Nat) (q : Int) :
    ((Interval.around m q).centre : ℚ) / (Interval.around m q).unit = m * 2 ^ q := by
  have hpower : (0 : ℚ) < power 2 (-q) := Nat.cast_pos.2 (power_pos (by decide) (-q))
  have hunit : ((Interval.around m q).unit : ℚ) = 4 * power 2 (-q) := by
    simp [Interval.around]
  have hcentre : ((Interval.around m q).centre : ℚ) = 4 * m * (2 ^ q * power 2 (-q)) := by
    have htwo := power_eq Nat.zero_lt_two q
    push_cast at htwo
    simp [Interval.around, htwo]
  rw [hunit, hcentre]
  field_simp

theorem unit_pos (m : Nat) (q : Int) : 0 < (Interval.around m q).unit :=
  Nat.mul_pos (by decide) (power_pos (by decide) (-q))

/-- The nearest multiple of a power of ten is at most half of it away. -/
theorem nearestOnGrid_near (m : Nat) (q e : Int) :
    |(nearestOnGrid m q e : ℚ) * 10 ^ e - m * 2 ^ q| ≤ 10 ^ e / 2 := by
  have hten : (0 : ℚ) < 10 ^ e := by positivity
  have hpower : (0 : ℚ) < power 10 (-e) := Nat.cast_pos.2 (power_pos (by decide) (-e))
  have hunit : (0 : ℚ) < (Interval.around m q).unit := Nat.cast_pos.2 (unit_pos m q)
  have hnear := Binary64.roundToEven_near
    (Nat.mul_pos (unit_pos m q) (power_pos (show 0 < 10 by decide) e))
    ((Interval.around m q).centre * power 10 (-e))
  have hratio : (((Interval.around m q).centre * power 10 (-e) : Nat) : ℚ) /
      ((Interval.around m q).unit * power 10 e : Nat) = m * 2 ^ q / 10 ^ e := by
    have hpow := power_eq (show 0 < 10 by decide) e
    push_cast at hpow ⊢
    rw [hpow, ← centre_eq]
    field_simp
  rw [hratio] at hnear
  have hscale := mul_le_mul_of_nonneg_right hnear hten.le
  rw [← abs_of_pos hten, ← abs_mul, abs_of_pos hten, sub_mul, div_mul_cancel₀ _ hten.ne'] at hscale
  calc |(nearestOnGrid m q e : ℚ) * 10 ^ e - m * 2 ^ q| ≤ 1 / 2 * 10 ^ e := hscale
    _ = 10 ^ e / 2 := by ring

/-- **Seventeen digits suffice.**  A multiple of a power of ten that is nearest to a number rounds
to it, if the number has seventeen digits from there on. -/
theorem rounds_nearestOnGrid (h : m < 2 * hiddenBit) (he : (10 : ℚ) ^ (e + 16) ≤ m * 2 ^ q) :
    Rounds m q (nearestOnGrid m q e * 10 ^ e) := by
  have htwo : (0 : ℚ) < 2 ^ q := by positivity
  have hten : (10 : ℚ) ^ (e + 16) = 10 ^ e * 10 ^ (16 : Nat) := by
    rw [zpow_add₀ (by norm_num)]
    rfl
  have hhidden : hiddenBit = 4503599627370496 := rfl
  obtain ⟨hlow, hhigh⟩ := abs_le.1 (nearestOnGrid_near m q e)
  have hm : (m : ℚ) ≤ 9007199254740992 := by
    rw [hhidden] at h
    exact_mod_cast h.le
  -- the decimal is nearer to the number than either midpoint
  have hgap : (10 : ℚ) ^ e / 2 < quartersBelow m q / 4 * 2 ^ q := by
    rw [quartersBelow]
    split
    · next hpow =>
      obtain ⟨rfl, -⟩ : m = hiddenBit ∧ _ := by simpa using hpow
      rw [hten, hhidden] at he
      push_cast at he ⊢
      linarith
    · rw [hten] at he
      have hmul : (m : ℚ) * 2 ^ q ≤ 9007199254740992 * 2 ^ q := by gcongr
      push_cast
      linarith
  have hquarter : (quartersBelow m q : ℚ) / 4 * 2 ^ q ≤ 1 / 2 * 2 ^ q := by
    have hle : (quartersBelow m q : ℚ) / 4 ≤ 1 / 2 := by linarith [quartersBelow_le m q]
    gcongr
  have hstrict : ((m : ℚ) - quartersBelow m q / 4) * 2 ^ q < nearestOnGrid m q e * 10 ^ e ∧
      nearestOnGrid m q e * 10 ^ e < ((m : ℚ) + 1 / 2) * 2 ^ q := by
    rw [sub_mul, add_mul]
    constructor <;> linarith
  exact ⟨hstrict.1.le, hstrict.2.le, fun _ => hstrict⟩

/-! ## The shortest decimal -/

/-- A decimal number without its sign. -/
def magnitude (d : Decimal) : ℚ :=
  ofDigits d.digits * 10 ^ d.exponent

theorem ofDigits_replicate_zero (n : Nat) : ofDigits (List.replicate n 0) = 0 := by
  induction n with
  | zero => rfl
  | succ n ih =>
    rw [List.replicate_succ', ofDigits_append, ih]
    rfl

theorem trimZeros_fst (digits : List Nat) (e : Int) :
    (trimZeros digits e).1 = digits.rdropWhile (· = 0) := by
  have hsplit := List.rdropWhile_append_rtakeWhile (p := (· = 0)) (l := digits)
  have hzeros : (digits.reverse.takeWhile (· = 0)).length = (digits.rtakeWhile (· = 0)).length :=
    List.length_reverse.symm
  rw [trimZeros]
  dsimp only
  rw [hzeros]
  generalize digits.rdropWhile (· = 0) = front at *
  generalize digits.rtakeWhile (· = 0) = zeros at *
  rw [← hsplit, List.length_append, Nat.add_sub_cancel, List.take_left]

/-- The zeros at the end of some digits become part of the exponent. -/
theorem trimZeros_eq (digits : List Nat) (e : Int) :
    ∃ zeros, digits = (trimZeros digits e).1 ++ List.replicate zeros 0 ∧
      (trimZeros digits e).2 = e + zeros := by
  refine ⟨(digits.rtakeWhile (· = 0)).length, ?_, ?_⟩
  · have hzeros : digits.rtakeWhile (· = 0) = List.replicate _ 0 :=
      List.eq_replicate_iff.2 ⟨rfl, fun d hd => by simpa using List.mem_rtakeWhile_imp hd⟩
    rw [trimZeros_fst, ← hzeros, List.rdropWhile_append_rtakeWhile]
  · rw [trimZeros, List.rtakeWhile, List.length_reverse]

theorem lt_ten_of_mem_digitsOf {n d : Nat} (h : d ∈ digitsOf n) : d < 10 := by
  obtain ⟨c, hc, rfl⟩ := List.mem_map.1 h
  have hdigit := Nat.isDigit_of_mem_toDigits (by decide) (by decide) hc
  simp only [Char.isDigit, Bool.and_eq_true, decide_eq_true_eq] at hdigit
  have hhigh : c.toNat ≤ 57 := hdigit.2
  show c.toNat - 48 < 10
  omega

theorem Rounds.pos (h : Rounds m q v) (hm : 0 < m) : 0 < v := by
  have htwo : (0 : ℚ) < 2 ^ q := by positivity
  have hbelow := quartersBelow_le m q
  have hone : (1 : ℚ) ≤ m := Nat.one_le_cast.2 hm
  have hlow : (0 : ℚ) < (m : ℚ) - quartersBelow m q / 4 := by linarith
  exact (mul_pos hlow htwo).trans_le h.low

theorem magnitude_trimZeros (negative : Bool) (n : Nat) (e : Int) :
    magnitude ⟨negative, (trimZeros (digitsOf n) e).1, (trimZeros (digitsOf n) e).2⟩ =
      n * 10 ^ e := by
  obtain ⟨zeros, hdigits, hexponent⟩ := trimZeros_eq (digitsOf n) e
  have hn := congrArg ofDigits hdigits
  rw [ofDigits_digitsOf, ofDigits_append, ofDigits_replicate_zero, List.length_replicate,
    Nat.add_zero] at hn
  have hn : (n : ℚ) = ofDigits (trimZeros (digitsOf n) e).1 * 10 ^ zeros := by exact_mod_cast hn
  rw [magnitude, hexponent, zpow_add₀ (by norm_num), zpow_natCast, ← mul_assoc, mul_right_comm,
    ← hn]

/-- **The shortest decimal rounds to its number.** -/
theorem rounds_shortest (h : Canonical m q) (hm : 0 < m) (negative : Bool) :
    Rounds m q (magnitude (shortest negative m q)) := by
  have hunit := unit_pos m q
  have hcentre : 0 < (Interval.around m q).centre :=
    Nat.mul_pos (Nat.mul_pos (by decide) hm) (power_pos (by decide) q)
  have hb : Binary64.binaryExponent (Interval.around m q).centre (Interval.around m q).unit ≤
      100000 := by
    have hlow := Binary64.zpow_binaryExponent_le hcentre hunit
    have hhigh : (m : ℚ) * 2 ^ q < 2 ^ ((53 : Nat) + q) := by
      have hlt : (m : ℚ) < 2 ^ 53 := by exact_mod_cast h.lt
      rw [zpow_add₀ (by norm_num), zpow_natCast]
      gcongr
    rw [centre_eq] at hlow
    have hlt := (zpow_lt_zpow_iff_right₀ (by norm_num)).1 (hlow.trans_lt hhigh)
    have hgreatest := h.greatest
    omega
  have hfirst := zpow_decimalExponent_le hcentre hunit hb
  rw [centre_eq] at hfirst
  rw [shortest]
  dsimp only
  rw [magnitude_trimZeros]
  refine rounds_search hm 16 _ (rounds_nearestOnGrid h.lt ?_)
  rwa [show ∀ e : Int, e - ((16 : Nat) : Int) + 16 = e from fun e => by omega]

/-- A decimal that can be written: there are digits, and they are below ten. -/
structure IsWritable (d : Decimal) : Prop where
  nonempty : d.digits ≠ []
  lt_ten : ∀ digit ∈ d.digits, digit < 10

theorem isWritable_shortest (h : Canonical m q) (hm : 0 < m) (negative : Bool) :
    IsWritable (shortest negative m q) where
  nonempty hnil := by
    have hpos := (rounds_shortest h hm negative).pos hm
    rw [magnitude, hnil] at hpos
    simp [ofDigits] at hpos
  lt_ten digit hdigit := lt_ten_of_mem_digitsOf (List.mem_of_mem_take hdigit)

/-! ## Only one number -/

/-- The midpoint below a normal number is at most a quarter of a unit below all normal numbers of
that unit. -/
theorem le_sub_quartersBelow (hq : leastExponent < q) (hm : hiddenBit ≤ m) :
    (hiddenBit : ℚ) - 1 / 4 ≤ m - quartersBelow m q / 4 := by
  rcases Nat.eq_or_lt_of_le hm with rfl | hlt
  · rw [quartersBelow, if_pos (by simpa using hq.ne')]
    norm_num
  · have hstep : (hiddenBit : ℚ) + 1 ≤ m := by exact_mod_cast hlt
    linarith [quartersBelow_le m q]

/-- The midpoint above a number is not greater than the midpoint below a larger one.  If both are
even, it is smaller. -/
theorem high_le_low (hm : Canonical m q) (hm' : Canonical m' q')
    (hlt : q < q' ∨ (q = q' ∧ m < m')) :
    ((m : ℚ) + 1 / 2) * 2 ^ q ≤ (m' - quartersBelow m' q' / 4) * 2 ^ q' ∧
      (m % 2 = 0 → m' % 2 = 0 →
        ((m : ℚ) + 1 / 2) * 2 ^ q < (m' - quartersBelow m' q' / 4) * 2 ^ q') := by
  have htwo : (0 : ℚ) < 2 ^ q := by positivity
  rcases hlt with hlt | ⟨rfl, hlt⟩
  · -- the unit of the larger number is at least twice as large
    have hunit : (2 : ℚ) * 2 ^ q ≤ 2 ^ q' := by
      rw [← zpow_one_add₀ (by norm_num)]
      exact zpow_le_zpow_right₀ (by norm_num) (by omega)
    have hbelow := le_sub_quartersBelow (hm.least.trans_lt hlt) (hm'.normal (hm.least.trans_lt hlt))
    have hhidden : (1 : ℚ) ≤ hiddenBit := by norm_num [hiddenBit]
    have hlow : (2 * hiddenBit - 1 / 2 : ℚ) * 2 ^ q ≤ (m' - quartersBelow m' q' / 4) * 2 ^ q' :=
      calc (2 * hiddenBit - 1 / 2 : ℚ) * 2 ^ q = (hiddenBit - 1 / 4) * (2 * 2 ^ q) := by ring
        _ ≤ (m' - quartersBelow m' q' / 4) * 2 ^ q' := by
          gcongr
          linarith
    have hhigh (k : Nat) (hk : m + k ≤ 2 * hiddenBit) :
        ((m : ℚ) + 1 / 2) * 2 ^ q ≤ (2 * hiddenBit + 1 / 2 - k) * 2 ^ q := by
      have hk : (m : ℚ) + k ≤ 2 * hiddenBit := by exact_mod_cast hk
      gcongr
      linarith
    have heven : hiddenBit % 2 = 0 := rfl
    have hm := hm.lt
    constructor
    · have hone := hhigh 1 hm
      push_cast at hone
      linarith
    · intro hmeven _
      have htwice := hhigh 2 (by omega)
      push_cast at htwice
      linarith
  · have hbelow := quartersBelow_le m' q
    constructor
    · have hstep : (m : ℚ) + 1 ≤ m' := by exact_mod_cast hlt
      gcongr
      linarith
    · intro hmeven hmeven'
      have hstep : (m : ℚ) + 2 ≤ m' := by exact_mod_cast (show m + 2 ≤ m' by omega)
      gcongr
      linarith

/-- What rounds to a number does not round to a larger one. -/
theorem Rounds.not_greater (h : Rounds m q v) (h' : Rounds m' q' v) (hm : Canonical m q)
    (hm' : Canonical m' q') (hlt : q < q' ∨ (q = q' ∧ m < m')) : False := by
  obtain ⟨hle, hstrict⟩ := high_le_low hm hm' hlt
  by_cases hodd : m % 2 = 1
  · exact absurd ((h.odd hodd).2.trans_le (hle.trans h'.low)) (lt_irrefl v)
  · by_cases hodd' : m' % 2 = 1
    · exact absurd ((h.high.trans hle).trans_lt (h'.odd hodd').1) (lt_irrefl v)
    · have hlt := hstrict (by omega) (by omega)
      exact absurd ((h.high.trans_lt hlt).trans_le h'.low) (lt_irrefl v)

/-- **No number rounds to two.** -/
theorem Rounds.unique (h : Rounds m q v) (h' : Rounds m' q' v) (hm : Canonical m q)
    (hm' : Canonical m' q') : m = m' ∧ q = q' := by
  rcases lt_trichotomy q q' with hlt | rfl | hlt
  · exact (h.not_greater h' hm hm' (.inl hlt)).elim
  · rcases lt_trichotomy m m' with hlt | rfl | hlt
    · exact (h.not_greater h' hm hm' (.inr ⟨rfl, hlt⟩)).elim
    · exact ⟨rfl, rfl⟩
    · exact (h'.not_greater h hm' hm (.inr ⟨rfl, hlt⟩)).elim
  · exact (h'.not_greater h hm' hm (.inl hlt)).elim

end Juxta.Decimal
