import Juxta.Decimal.Layout
import Juxta.Proofs.Decimal.Shortest

/-!
# Decimals read back

The text of a decimal number, in either notation, is read back as a decimal number of the same sign
and magnitude.  Its digits may differ, since positional notation has further zeros.

## What is here

* `spelled?` — the decimal number that a text spells; `readDecimal?_eq` — reading a floating-point
  number is to round that.
* `digitRun?_digitText` — digits are read back.
* `ReadsAs text d` — a text spells a decimal of the same sign and magnitude;
  `readsAs_positional`, `readsAs_scientific`, `readsAs_writeDecimal`.
-/

set_option autoImplicit false
namespace Juxta.Decimal

/-! ## What a text spells -/

/-- The digits of a numeral with or without a point, and how many of them follow it. -/
def mantissa? (cs : List Char) : Option (List Nat × Nat) := do
  let before := cs.takeWhile (· ≠ '.')
  let whole ← optionalRun? before
  let places ← optionalRun? (cs.drop (before.length + 1))
  if whole.isEmpty && places.isEmpty then none else some (whole ++ places, places.length)

/-- The exponent behind its letter, or none. -/
def exponent? : List Char → Option Int
  | [] => some 0
  | _ :: rest => signedRun? rest

/-- Whether a character belongs to a mantissa: only the letter of an exponent does not. -/
def inMantissa (c : Char) : Bool :=
  c ≠ 'e' && c ≠ 'E'

/-- The decimal number that a text without a sign spells. -/
def unsigned? (negative : Bool) (cs : List Char) : Option Decimal := do
  let mantissa := cs.takeWhile inMantissa
  let e ← exponent? (cs.drop mantissa.length)
  let (digits, places) ← mantissa? mantissa
  return ⟨negative, digits, e - places⟩

/-- The decimal number that a text spells. -/
def spelled? (cs : List Char) : Option Decimal :=
  let (negative, cs) := splitSign cs
  unsigned? negative cs

/-- To read a floating-point number is to round the decimal that is spelled. -/
theorem readDecimal?_eq (negative : Bool) (cs : List Char) :
    readDecimal? negative cs =
      (unsigned? negative cs).map fun d => nearest d.negative d.digits d.exponent := by
  have hmantissa : (fun c => decide (c ≠ 'e') && decide (c ≠ 'E')) = inMantissa := rfl
  have hread (e : Int) (front : List Char) :
      (do
        let whole ← optionalRun? (front.takeWhile (· ≠ '.'))
        let places ← optionalRun? (front.drop ((front.takeWhile (· ≠ '.')).length + 1))
        if whole.isEmpty && places.isEmpty then none
        else some (nearest negative (whole ++ places) (e - places.length))) =
      Option.map (fun d => nearest d.negative d.digits d.exponent) (do
        let (digits, places) ← mantissa? front
        return (⟨negative, digits, e - places⟩ : Decimal)) := by
    rw [mantissa?]
    cases optionalRun? (front.takeWhile (· ≠ '.')) with
    | none => rfl
    | some whole =>
      cases optionalRun? (front.drop ((front.takeWhile (· ≠ '.')).length + 1)) with
      | none => rfl
      | some places =>
        simp only [bind, Option.bind_some]
        split <;> rfl
  rw [readDecimal?, unsigned?, hmantissa]
  generalize cs.takeWhile inMantissa = front
  cases cs.drop front.length with
  | nil => exact hread 0 front
  | cons c rest =>
    dsimp only [exponent?]
    cases signedRun? rest with
    | none => rfl
    | some e => exact hread e front

/-! ## Digits -/

variable {digits : List Nat}

theorem digitChar_spec {d : Nat} (h : d < 10) :
    (Nat.digitChar d).isDigit = true ∧ (Nat.digitChar d).toNat - '0'.toNat = d := by
  have hall : ∀ e ∈ List.range 10,
      (Nat.digitChar e).isDigit = true ∧ (Nat.digitChar e).toNat - '0'.toNat = e := by decide
  exact hall d (List.mem_range.2 h)

theorem isDigit_of_mem_digitText (h : ∀ d ∈ digits, d < 10) :
    ∀ c ∈ digitText digits, c.isDigit = true := by
  intro c hc
  obtain ⟨d, hd, rfl⟩ := List.mem_map.1 hc
  exact (digitChar_spec (h d hd)).1

theorem digitText_ne_nil (hne : digits ≠ []) : digitText digits ≠ [] :=
  fun hnil => hne (List.map_eq_nil_iff.1 hnil)

/-- Digits are read back. -/
theorem digitRun?_digitText (hne : digits ≠ []) (h : ∀ d ∈ digits, d < 10) :
    digitRun? (digitText digits) = some digits := by
  rw [digitRun?_of_isDigit (digitText_ne_nil hne) (isDigit_of_mem_digitText h), digitText,
    List.map_map]
  refine congrArg some ((List.map_congr_left fun d hd => ?_).trans (List.map_id digits))
  exact (digitChar_spec (h d hd)).2

theorem optionalRun?_digitText (h : ∀ d ∈ digits, d < 10) :
    optionalRun? (digitText digits) = some digits := by
  rw [optionalRun?]
  split
  · next hnil =>
    rw [List.isEmpty_iff, digitText, List.map_eq_nil_iff] at hnil
    rw [hnil]
  · next hne =>
    refine digitRun?_digitText (fun hnil => hne ?_) h
    rw [hnil]
    rfl

/-! ## Mantissas -/

variable {whole places : List Nat}

theorem inMantissa_of_isDigit {c : Char} (h : c.isDigit = true) : inMantissa c = true := by
  rw [inMantissa, Bool.and_eq_true, decide_eq_true_eq, decide_eq_true_eq]
  constructor <;> rintro rfl <;> exact absurd h (by decide)

theorem inMantissa_digitText (h : ∀ d ∈ digits, d < 10) :
    ∀ c ∈ digitText digits, inMantissa c = true :=
  fun c hc => inMantissa_of_isDigit (isDigit_of_mem_digitText h c hc)

theorem inMantissa_point (hwhole : ∀ d ∈ whole, d < 10) (hplaces : ∀ d ∈ places, d < 10) :
    ∀ c ∈ digitText whole ++ '.' :: digitText places, inMantissa c = true :=
  List.forall_mem_append.2 ⟨inMantissa_digitText hwhole,
    List.forall_mem_cons.2 ⟨by decide, inMantissa_digitText hplaces⟩⟩

theorem mantissa?_digits (hne : digits ≠ []) (h : ∀ d ∈ digits, d < 10) :
    mantissa? (digitText digits) = some (digits, 0) := by
  have hbefore : (digitText digits).takeWhile (· ≠ '.') = digitText digits := by
    refine List.takeWhile_eq_self_iff.2 fun c hc => decide_eq_true ?_
    rintro rfl
    exact absurd (isDigit_of_mem_digitText h _ hc) (by decide)
  have hafter : (digitText digits).drop ((digitText digits).length + 1) = [] :=
    List.drop_eq_nil_of_le (Nat.le_succ _)
  rw [mantissa?, hbefore, hafter, optionalRun?_digitText h]
  simp [optionalRun?, hne]

theorem mantissa?_point (hne : whole ≠ []) (hwhole : ∀ d ∈ whole, d < 10)
    (hplaces : ∀ d ∈ places, d < 10) :
    mantissa? (digitText whole ++ '.' :: digitText places) =
      some (whole ++ places, places.length) := by
  have hbefore : (digitText whole ++ '.' :: digitText places).takeWhile (· ≠ '.') =
      digitText whole := by
    rw [List.takeWhile_append_of_pos, List.takeWhile_cons_of_neg (by decide), List.append_nil]
    intro c hc
    refine decide_eq_true ?_
    rintro rfl
    exact absurd (isDigit_of_mem_digitText hwhole _ hc) (by decide)
  have hafter : (digitText whole ++ '.' :: digitText places).drop
      ((digitText whole).length + 1) = digitText places := by
    rw [← List.drop_drop, List.drop_left]
    rfl
  rw [mantissa?, hbefore, hafter, optionalRun?_digitText hwhole, optionalRun?_digitText hplaces]
  simp [hne]

/-- A mantissa by itself is a number without an exponent. -/
theorem unsigned?_mantissa {cs : List Char} {n : Nat} (negative : Bool)
    (hcs : ∀ c ∈ cs, inMantissa c = true) (h : mantissa? cs = some (digits, n)) :
    unsigned? negative cs = some ⟨negative, digits, -n⟩ := by
  have hmantissa : cs.takeWhile inMantissa = cs := List.takeWhile_eq_self_iff.2 hcs
  rw [unsigned?, hmantissa, List.drop_length, h]
  simp [exponent?]

/-- A mantissa before an exponent. -/
theorem unsigned?_exponent {cs rest : List Char} {n : Nat} {e : Int} (negative : Bool)
    (hcs : ∀ c ∈ cs, inMantissa c = true) (h : mantissa? cs = some (digits, n))
    (he : signedRun? rest = some e) :
    unsigned? negative (cs ++ 'e' :: rest) = some ⟨negative, digits, e - n⟩ := by
  have hmantissa : (cs ++ 'e' :: rest).takeWhile inMantissa = cs := by
    rw [List.takeWhile_append_of_pos hcs, List.takeWhile_cons_of_neg (by decide), List.append_nil]
  rw [unsigned?, hmantissa, List.drop_left, h]
  simp [exponent?, he]

/-! ## Texts of decimals -/

variable {d : Decimal}

/-- The text spells a decimal of the same sign and magnitude. -/
def ReadsAs (cs : List Char) (d : Decimal) : Prop :=
  ∃ d', spelled? cs = some d' ∧ d'.negative = d.negative ∧ magnitude d' = magnitude d

/-- A sign stands in front of a number that starts with a digit. -/
theorem spelled?_sign {cs : List Char} (negative : Bool) (hcs : ∀ c ∈ cs.head?, c.isDigit = true) :
    spelled? (sign negative ++ cs) = unsigned? negative cs := by
  cases negative with
  | true => rfl
  | false =>
    cases cs with
    | nil => rfl
    | cons c cs =>
      rw [sign, spelled?, if_neg Bool.false_ne_true, List.nil_append,
        splitSign_of_isDigit (hcs c rfl)]

theorem head_digitText (hne : digits ≠ []) (h : ∀ d ∈ digits, d < 10) (rest : List Char) :
    ∀ c ∈ (digitText digits ++ rest).head?, c.isDigit = true := by
  intro c hc
  rw [List.head?_append_of_ne_nil _ (digitText_ne_nil hne)] at hc
  exact isDigit_of_mem_digitText h c (List.mem_of_mem_head? hc)

theorem digitText_append (front back : List Nat) :
    digitText (front ++ back) = digitText front ++ digitText back :=
  List.map_append

theorem digitText_zeros (n : Nat) : digitText (List.replicate n 0) = List.replicate n '0' :=
  List.map_replicate

/-- Digits without a point. -/
theorem readsAs_digits (hne : digits ≠ []) (hdigits : ∀ d ∈ digits, d < 10)
    (h : magnitude d = ofDigits digits) : ReadsAs (sign d.negative ++ digitText digits) d := by
  refine ⟨⟨d.negative, digits, -(0 : Nat)⟩, ?_, rfl, ?_⟩
  · rw [spelled?_sign _ (by simpa using head_digitText hne hdigits [])]
    exact unsigned?_mantissa d.negative (inMantissa_digitText hdigits)
      (mantissa?_digits hne hdigits)
  · rw [h, magnitude]
    simp

/-- Digits in front of a point, and perhaps digits behind it. -/
theorem readsAs_point (hne : whole ≠ []) (hwhole : ∀ d ∈ whole, d < 10)
    (hplaces : ∀ d ∈ places, d < 10)
    (h : magnitude d = ofDigits (whole ++ places) * 10 ^ (-places.length : Int)) :
    ReadsAs (sign d.negative ++ (digitText whole ++ '.' :: digitText places)) d := by
  refine ⟨⟨d.negative, whole ++ places, -places.length⟩, ?_, rfl, h.symm⟩
  rw [spelled?_sign _ (head_digitText hne hwhole _)]
  exact unsigned?_mantissa d.negative (inMantissa_point hwhole hplaces)
    (mantissa?_point hne hwhole hplaces)

theorem lt_ten_zeros (n : Nat) : ∀ d ∈ List.replicate n 0, d < 10 := by
  intro d hd
  rw [List.eq_of_mem_replicate hd]
  decide

/-- **Positional notation is read back.** -/
theorem readsAs_positional (h : IsWritable d) : ReadsAs (positional d) d := by
  rw [positional]
  dsimp only
  split
  · next hexponent =>
    obtain ⟨n, hn⟩ := Int.eq_ofNat_of_zero_le hexponent
    rw [hn, Int.toNat_natCast, ← digitText_zeros, ← digitText_append]
    refine readsAs_digits (fun hnil => h.nonempty (List.append_eq_nil_iff.1 hnil).1)
      (List.forall_mem_append.2 ⟨h.lt_ten, lt_ten_zeros n⟩) ?_
    rw [magnitude, hn, ofDigits_append, ofDigits_replicate_zero]
    simp
  · next hexponent =>
    obtain ⟨n, hn⟩ : ∃ n : Nat, d.exponent = -n := ⟨(-d.exponent).toNat, by omega⟩
    rw [hn, Int.neg_neg, Int.toNat_natCast]
    split
    · next hlt =>
      refine readsAs_point (fun hnil => ?_) (fun c hc => h.lt_ten c (List.mem_of_mem_take hc))
        (fun c hc => h.lt_ten c (List.mem_of_mem_drop hc)) ?_
      · have hlength := congrArg List.length hnil
        rw [List.length_take, List.length_nil] at hlength
        omega
      · rw [List.take_append_drop, List.length_drop, magnitude, hn,
          show d.digits.length - (d.digits.length - n) = n by omega]
    · next hge =>
      rw [List.cons_append, List.cons_append, ← digitText_zeros, ← digitText_append]
      refine readsAs_point (List.cons_ne_nil 0 []) (lt_ten_zeros 1)
        (List.forall_mem_append.2 ⟨lt_ten_zeros (n - d.digits.length), h.lt_ten⟩) ?_
      rw [magnitude, hn, ofDigits_append, ofDigits_append, ofDigits_replicate_zero,
        List.length_append, List.length_replicate, Nat.sub_add_cancel (Nat.le_of_not_lt hge)]
      simp [ofDigits]

/-! ### Scientific notation -/

theorem isDigit_of_mem_twoDigits {n : Nat} : ∀ c ∈ twoDigits n, c.isDigit = true := by
  have hdigits : ∀ c ∈ Nat.toDigits 10 n, c.isDigit = true := fun c hc =>
    Nat.isDigit_of_mem_toDigits (by decide) (by decide) hc
  rw [twoDigits]
  split
  · exact List.forall_mem_cons.2 ⟨by decide, hdigits⟩
  · exact hdigits

/-- The digits of an exponent are read back. -/
theorem digitRun?_twoDigits (n : Nat) :
    ∃ ds, digitRun? (twoDigits n) = some ds ∧ ofDigits ds = n := by
  have hne : twoDigits n ≠ [] := by
    rw [twoDigits]
    split
    · exact List.cons_ne_nil _ _
    · exact Nat.toDigits_ne_nil
  refine ⟨_, digitRun?_of_isDigit hne isDigit_of_mem_twoDigits, ?_⟩
  rw [twoDigits]
  split
  · show ofDigits ([0] ++ digitsOf n) = n
    rw [ofDigits_append, ofDigits_digitsOf]
    simp [ofDigits]
  · exact ofDigits_digitsOf n

theorem signedRun?_twoDigits (e : Int) :
    signedRun? ((if e < 0 then '-' else '+') :: twoDigits e.natAbs) = some e := by
  obtain ⟨ds, hds, hvalue⟩ := digitRun?_twoDigits e.natAbs
  split
  · next hneg =>
    have hsigned : Binary64.signed true e.natAbs = e := by
      rw [Binary64.signed, if_pos rfl]
      omega
    rw [signedRun?, splitSign]
    simp only [hds, Option.map_some, hvalue, hsigned]
  · next hnonneg =>
    have hsigned : Binary64.signed false e.natAbs = e := by
      rw [Binary64.signed, if_neg Bool.false_ne_true]
      omega
    rw [signedRun?, splitSign]
    simp only [hds, Option.map_some, hvalue, hsigned]

/-- **Scientific notation is read back**, to the very same digits. -/
theorem spelled?_scientific (h : IsWritable d) : spelled? (scientific d) = some d := by
  obtain ⟨negative, digits, exponent⟩ := d
  have hexponent := signedRun?_twoDigits (scientificExponent ⟨negative, digits, exponent⟩)
  have hten := h.lt_ten
  match digits with
  | [] => exact absurd rfl h.nonempty
  | [first] =>
    rw [scientific, List.append_assoc,
      spelled?_sign _ (head_digitText (List.cons_ne_nil _ _) hten _),
      unsigned?_exponent negative (inMantissa_digitText hten)
        (mantissa?_digits (List.cons_ne_nil _ _) hten) hexponent]
    simp [scientificExponent]
  | first :: second :: others =>
    obtain ⟨hfirst, hothers⟩ := List.forall_mem_cons.1 hten
    have hfirst : ∀ d ∈ [first], d < 10 := by simpa using hfirst
    have hhead (rest : List Char) :
        ∀ c ∈ (digitText [first] ++ '.' :: digitText (second :: others) ++ rest).head?,
          c.isDigit = true := by
      rw [List.append_assoc]
      exact head_digitText (List.cons_ne_nil _ _) hfirst _
    dsimp only [scientific]
    rw [List.append_assoc, spelled?_sign _ (hhead _),
      unsigned?_exponent negative (inMantissa_point hfirst hothers)
        (mantissa?_point (List.cons_ne_nil _ _) hfirst hothers) hexponent]
    simp [scientificExponent]

theorem readsAs_scientific (h : IsWritable d) : ReadsAs (scientific d) d :=
  ⟨d, spelled?_scientific h, rfl, rfl⟩

/-- **The text of a decimal is read back.** -/
theorem readsAs_writeDecimal (h : IsWritable d) : ReadsAs (Layout.language.writeDecimal d) d := by
  rw [Layout.writeDecimal]
  split
  · simpa [Layout.language] using readsAs_positional h
  · exact readsAs_scientific h

end Juxta.Decimal
