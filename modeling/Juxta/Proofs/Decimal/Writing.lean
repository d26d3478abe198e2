import Juxta.Proofs.Decimal.Notation

/-!
# The text of a floating-point number determines it

Different floating-point numbers have different texts.  The text of a finite number is the shortest
decimal that rounds to it, and that is read back with its sign and magnitude; no decimal rounds to
two numbers.  The other texts are not numerals at all.

## What is here

* `Binary64.encode` — the bits of a number; `Binary64.encode_ofFloat` — those of a floating-point
  value; `Binary64.ofFloat_injective` — the value is determined by the number behind it.
* `exists_spelled?_writeNumber` — the text of a finite number spells a decimal that rounds to it.
* `formatFloat_injective` — the main result.
* `formatFloat_solid` — what the texts are made of.
-/

set_option autoImplicit false
namespace Juxta

open Decimal (Canonical Rounds IsWritable magnitude spelled?)

/-! ## The bits of a number -/

namespace Binary64

variable {bits : Nat}

/-- The bits of a number.  Not-a-number has only one pattern. -/
def encode : Binary64 → Nat
  | nan => infinityBits + hiddenBit / 2
  | infinite negative => (if negative then signBit else 0) + infinityBits
  | finite negative m q =>
    (if negative then signBit else 0) + ((q - leastExponent).toNat * hiddenBit + m)

/-- The sign bit and the others. -/
theorem sign_add_mod (h : bits < 2 ^ 64) :
    (if decide (bits / signBit % 2 = 1) then signBit else 0) + bits % signBit = bits := by
  have hsign : signBit = 9223372036854775808 := rfl
  rw [hsign]
  split <;> rename_i hnegative <;> rw [decide_eq_true_eq] at hnegative <;> omega

/-- The exponent field and the fraction are the bits without the sign. -/
theorem biased_mul_add (bits : Nat) :
    bits / hiddenBit % 2048 * hiddenBit + bits % hiddenBit = bits % signBit := by
  have hhidden : hiddenBit = 4503599627370496 := rfl
  have hsign : signBit = 9223372036854775808 := rfl
  rw [hhidden, hsign]
  omega

theorem encode_decode (hbits : bits < 2 ^ 64) (h : decode bits ≠ nan) :
    encode (decode bits) = bits := by
  have hsign := sign_add_mod hbits
  rw [← biased_mul_add] at hsign
  simp only [decode] at h ⊢
  split
  · next hinfinite =>
    rw [hinfinite] at hsign
    split
    · next hfraction =>
      rwa [hfraction, Nat.add_zero] at hsign
    · next hfraction => simp [hinfinite, hfraction] at h
  · split
    · next hsubnormal =>
      rwa [hsubnormal] at hsign
    · next hnormal =>
      have hexponent : ((bits / hiddenBit % 2048 : Nat) - 1075 - leastExponent : Int).toNat + 1 =
          bits / hiddenBit % 2048 := by
        have hleast : leastExponent = -1074 := rfl
        omega
      have hmagnitude : ∀ e fraction : Nat,
          e * hiddenBit + (hiddenBit + fraction) = (e + 1) * hiddenBit + fraction := by
        intro e fraction
        rw [Nat.succ_mul, Nat.add_assoc]
      rwa [encode, hmagnitude, hexponent]

/-- Not-a-number has all bits of the exponent field and a fraction. -/
theorem fields_of_nan (h : decode bits = nan) :
    bits / hiddenBit % 2048 = 2047 ∧ bits % hiddenBit ≠ 0 := by
  simp only [decode] at h
  split at h
  · next hbiased =>
    split at h
    · cases h
    · next hfraction => exact ⟨hbiased, hfraction⟩
  · split at h <;> cases h

open Float.Model in
/-- **The bits of a floating-point value are those of its number.** -/
theorem encode_ofFloat (x : Float) : encode (ofFloat x) = x.toBits.toNat := by
  by_cases hnan : ofFloat x = nan
  · obtain ⟨hbiased, hfraction⟩ := fields_of_nan hnan
    have hbiased : x.toModel.toBits.toNat / 4503599627370496 % 2048 = 2047 := hbiased
    have hfraction : x.toModel.toBits.toNat % 4503599627370496 ≠ 0 := hfraction
    have hbits := x.toModel.valid.eq_packedNaN ?_ ?_
    · rw [hnan]
      exact (congrArg BitVec.toNat hbits).symm
    · apply BitVec.eq_of_toNat_eq
      simpa [UnpackedFloat.unpackExponent, Nat.shiftRight_eq_div_pow] using hbiased
    · intro hzero
      apply hfraction
      simpa [UnpackedFloat.unpackMantissa] using congrArg BitVec.toNat hzero
  · exact encode_decode x.toBits.toNat_lt hnan

theorem ofFloat_injective : Function.Injective ofFloat := by
  intro x y h
  have hbits : x.toBits.toNat = y.toBits.toNat := by
    rw [← encode_ofFloat, ← encode_ofFloat, h]
  obtain ⟨⟨a, ha⟩⟩ := x
  obtain ⟨⟨b, hb⟩⟩ := y
  obtain rfl : a = b := UInt64.toNat_inj.1 hbits
  rfl

/-- The significand and the exponent of a finite number. -/
theorem canonical_of_decode {m : Nat} {q : Int} {negative : Bool}
    (h : decode bits = finite negative m q) : Canonical m q := by
  have hhidden : hiddenBit = 4503599627370496 := rfl
  have hleast : leastExponent = -1074 := rfl
  have hfraction : bits % hiddenBit < hiddenBit := Nat.mod_lt _ (by decide)
  simp only [decode] at h
  split at h
  · split at h <;> cases h
  · split at h
    · cases h
      constructor <;> omega
    · cases h
      constructor <;> omega

end Binary64

/-! ## Reading back -/

/-- Zero has the least exponent. -/
theorem Decimal.Canonical.exponent_of_zero {q : Int} (h : Canonical 0 q) :
    q = Binary64.leastExponent := by
  rcases h.least.eq_or_lt with heq | hlt
  · exact heq.symm
  · exact absurd (h.normal hlt) (by decide)

/-- The decimal that is written for a finite number. -/
def Decimal.written (negative : Bool) (m : Nat) (q : Int) : Decimal :=
  if m = 0 then ⟨negative, [0], 0⟩ else shortest negative m q

theorem toList_writeNumber (negative : Bool) (m : Nat) (q : Int) :
    (Layout.language.writeNumber (.finite negative m q)).toList =
      Layout.language.writeDecimal (Decimal.written negative m q) := by
  rw [Layout.writeNumber, Decimal.written]
  split <;> exact String.toList_ofList

theorem isWritable_written {m : Nat} {q : Int} (negative : Bool) (h : Canonical m q) :
    IsWritable (Decimal.written negative m q) := by
  rw [Decimal.written]
  split
  · exact ⟨List.cons_ne_nil _ _, by simp⟩
  · next hne => exact Decimal.isWritable_shortest h (Nat.pos_of_ne_zero hne) negative

/-- **The text of a finite number is read back**: it spells a decimal of the same sign, which is
zero for a zero and rounds to the number otherwise. -/
theorem exists_spelled?_writeNumber {m : Nat} {q : Int} (negative : Bool) (h : Canonical m q) :
    ∃ d, spelled? (Layout.language.writeNumber (.finite negative m q)).toList = some d ∧
      d.negative = negative ∧
      (m = 0 ∧ magnitude d = 0 ∨ 0 < m ∧ Rounds m q (magnitude d)) := by
  obtain ⟨d, hd, hsign, hmagnitude⟩ :=
    Decimal.readsAs_writeDecimal (isWritable_written negative h)
  refine ⟨d, by rwa [toList_writeNumber], ?_⟩
  rw [hsign, hmagnitude, Decimal.written]
  split
  · next hzero => exact ⟨rfl, .inl ⟨hzero, by simp [magnitude, Decimal.ofDigits]⟩⟩
  · next hne =>
    have hm := Nat.pos_of_ne_zero hne
    exact ⟨rfl, .inr ⟨hm, Decimal.rounds_shortest h hm negative⟩⟩

theorem spelled?_nan : spelled? "NaN".toList = none := by decide

theorem spelled?_infinite (negative : Bool) :
    spelled? (Layout.language.writeNumber (.infinite negative)).toList = none := by
  cases negative <;> decide

/-- What is not a numeral is not the text of a finite number. -/
theorem writeNumber_finite_ne {m : Nat} {q : Int} {b : Binary64} (negative : Bool)
    (hm : Canonical m q) (hb : spelled? (Layout.language.writeNumber b).toList = none) :
    Layout.language.writeNumber (.finite negative m q) ≠ Layout.language.writeNumber b := by
  intro h
  obtain ⟨d, hd, -⟩ := exists_spelled?_writeNumber negative hm
  rw [h, hb] at hd
  cases hd

/-- The text of a finite number determines it. -/
theorem finite_of_writeNumber_eq {m m' : Nat} {q q' : Int} {negative negative' : Bool}
    (hm : Canonical m q) (hm' : Canonical m' q')
    (h : Layout.language.writeNumber (.finite negative m q) =
      Layout.language.writeNumber (.finite negative' m' q')) :
    Binary64.finite negative m q = .finite negative' m' q' := by
  obtain ⟨d, hd, rfl, hvalue⟩ := exists_spelled?_writeNumber negative hm
  obtain ⟨d', hd', rfl, hvalue'⟩ := exists_spelled?_writeNumber negative' hm'
  rw [h, hd'] at hd
  obtain rfl := Option.some.inj hd
  rcases hvalue with ⟨rfl, hzero⟩ | ⟨hpos, hrounds⟩
  · rcases hvalue' with ⟨rfl, -⟩ | ⟨hpos', hrounds'⟩
    · rw [hm.exponent_of_zero, hm'.exponent_of_zero]
    · exact absurd hzero (hrounds'.pos hpos').ne'
  · rcases hvalue' with ⟨rfl, hzero'⟩ | ⟨-, hrounds'⟩
    · exact absurd hzero' (hrounds.pos hpos).ne'
    · obtain ⟨rfl, rfl⟩ := hrounds.unique hrounds' hm hm'
      rfl

/-- **Different floating-point values have different texts.** -/
theorem formatFloat_injective : Function.Injective formatFloat := by
  intro x y h
  have h : Layout.language.writeNumber (Binary64.ofFloat x) =
      Layout.language.writeNumber (Binary64.ofFloat y) := h
  apply Binary64.ofFloat_injective
  cases hx : Binary64.ofFloat x with
  | nan =>
    cases hy : Binary64.ofFloat y with
    | nan => rfl
    | infinite negative =>
      rw [hx, hy] at h
      exact absurd h (by cases negative <;> decide)
    | finite negative m q =>
      have hm := Binary64.canonical_of_decode hy
      rw [hx, hy] at h
      exact absurd h.symm (writeNumber_finite_ne negative hm spelled?_nan)
  | infinite negative =>
    cases hy : Binary64.ofFloat y with
    | nan =>
      rw [hx, hy] at h
      exact absurd h (by cases negative <;> decide)
    | infinite negative' =>
      rw [hx, hy] at h
      cases negative <;> cases negative' <;> first | rfl | exact absurd h (by decide)
    | finite negative' m q =>
      have hm := Binary64.canonical_of_decode hy
      rw [hx, hy] at h
      exact absurd h.symm (writeNumber_finite_ne negative' hm (spelled?_infinite negative))
  | finite negative m q =>
    have hm := Binary64.canonical_of_decode hx
    rw [hx] at h
    cases hy : Binary64.ofFloat y with
    | nan =>
      rw [hy] at h
      exact absurd h (writeNumber_finite_ne negative hm spelled?_nan)
    | infinite negative' =>
      rw [hy] at h
      exact absurd h (writeNumber_finite_ne negative hm (spelled?_infinite negative'))
    | finite negative' m' q' =>
      rw [hy] at h
      exact finite_of_writeNumber_eq hm (Binary64.canonical_of_decode hy) h

/-! ## Characters -/

namespace Decimal

variable {d : Decimal}

/-- The characters of numerals. -/
def inNumeral (c : Char) : Bool :=
  c.isDigit || c ∈ ['.', 'e', '+', '-']

theorem inNumeral_of_isDigit {c : Char} (h : c.isDigit = true) : inNumeral c = true := by
  rw [inNumeral, h, Bool.true_or]

theorem inNumeral_digitText {digits : List Nat} (h : ∀ digit ∈ digits, digit < 10) :
    ∀ c ∈ digitText digits, inNumeral c = true :=
  fun c hc => inNumeral_of_isDigit (isDigit_of_mem_digitText h c hc)

theorem inNumeral_zeros (n : Nat) : ∀ c ∈ List.replicate n '0', inNumeral c = true := by
  rw [← digitText_zeros]
  exact inNumeral_digitText (lt_ten_zeros n)

theorem inNumeral_point {front back : List Char} (hfront : ∀ c ∈ front, inNumeral c = true)
    (hback : ∀ c ∈ back, inNumeral c = true) : ∀ c ∈ front ++ '.' :: back, inNumeral c = true :=
  List.forall_mem_append.2 ⟨hfront, List.forall_mem_cons.2 ⟨by decide, hback⟩⟩

theorem inNumeral_sign (negative : Bool) : ∀ c ∈ sign negative, inNumeral c = true :=
  List.all_eq_true.1 (by cases negative <;> decide)

theorem inNumeral_positional (h : IsWritable d) : ∀ c ∈ positional d, inNumeral c = true := by
  refine List.forall_mem_append.2 ⟨inNumeral_sign _, ?_⟩
  split
  · exact List.forall_mem_append.2 ⟨inNumeral_digitText h.lt_ten, inNumeral_zeros _⟩
  · dsimp only
    split
    · exact inNumeral_point
        (inNumeral_digitText fun digit hdigit => h.lt_ten digit (List.mem_of_mem_take hdigit))
        (inNumeral_digitText fun digit hdigit => h.lt_ten digit (List.mem_of_mem_drop hdigit))
    · exact inNumeral_point (inNumeral_zeros 1)
        (List.forall_mem_append.2 ⟨inNumeral_zeros _, inNumeral_digitText h.lt_ten⟩)

theorem inNumeral_scientific (h : IsWritable d) : ∀ c ∈ scientific d, inNumeral c = true := by
  have hexponent : ∀ e : Int,
      ∀ c ∈ 'e' :: (if e < 0 then '-' else '+') :: twoDigits e.natAbs, inNumeral c = true := by
    intro e
    refine List.forall_mem_cons.2 ⟨by decide, List.forall_mem_cons.2 ⟨?_, ?_⟩⟩
    · split <;> decide
    · exact fun c hc => inNumeral_of_isDigit (isDigit_of_mem_twoDigits c hc)
  refine List.forall_mem_append.2 ⟨List.forall_mem_append.2 ⟨inNumeral_sign _, ?_⟩, hexponent _⟩
  have hten := h.lt_ten
  split
  · next hdigits => exact absurd hdigits h.nonempty
  · next first hdigits =>
    rw [hdigits] at hten
    exact inNumeral_digitText hten
  · next first others _ hdigits =>
    rw [hdigits] at hten
    obtain ⟨hfirst, hothers⟩ := List.forall_mem_cons.1 hten
    exact inNumeral_point (inNumeral_digitText (by simpa using hfirst))
      (inNumeral_digitText hothers)

theorem inNumeral_writeDecimal (h : IsWritable d) :
    ∀ c ∈ Layout.language.writeDecimal d, inNumeral c = true := by
  rw [Layout.writeDecimal]
  split
  · simpa [Layout.language] using inNumeral_positional h
  · exact inNumeral_scientific h

theorem ne_of_inNumeral {c : Char} (h : inNumeral c = true) : c ≠ ' ' ∧ c ≠ '"' := by
  constructor <;> rintro rfl <;> exact absurd h (by decide)

end Decimal

/-- The text of a number is not empty and has no spaces or quotes. -/
theorem formatFloat_solid (x : Float) :
    (formatFloat x).toList ≠ [] ∧ ∀ c ∈ (formatFloat x).toList, c ≠ ' ' ∧ c ≠ '"' := by
  have hformat : formatFloat x = Layout.language.writeNumber (Binary64.ofFloat x) := rfl
  rw [hformat]
  cases hx : Binary64.ofFloat x with
  | nan => simp [Layout.writeNumber, Layout.language]
  | infinite negative => cases negative <;> simp [Layout.writeNumber, Layout.language]
  | finite negative m q =>
    have hm := Binary64.canonical_of_decode hx
    constructor
    · intro hnil
      obtain ⟨d, hd, -⟩ := exists_spelled?_writeNumber negative hm
      rw [hnil] at hd
      cases hd
    · rw [toList_writeNumber]
      exact fun c hc => Decimal.ne_of_inNumeral
        (Decimal.inNumeral_writeDecimal (isWritable_written negative hm) c hc)

end Juxta
