import Juxta.Proofs.Decimal.Writing
import Mathlib.Data.Nat.Digits.Defs

/-!
# Numbers are written exactly

A decimal without zeros at either end of its digits is determined by its sign and its magnitude.
Such a decimal is written for every floating-point number that is neither zero nor infinite.  Its
text is in fixed notation if the power of ten of its first digit is at least `-4` and less than
`21`, and in scientific notation otherwise.  The text is read back without loss, so that different
decimals have different texts.

## What is here

* `IsNormal d` — the digits of `d` neither begin nor end with a zero; `IsNormal.eq_of_magnitude_eq`
  — how such a decimal is determined.
* `IsFixed`, `IsScientific d` — the two notations, as texts; `isFixed_positional`,
  `isScientific_scientific` — that they are written.
* `isFixed_writeDecimal_iff` — which of them is chosen.
* `isNormal_shortest` — the decimals of floating-point numbers are normal.
* `numbers_written_exactly` — the main result.
-/

set_option autoImplicit false
namespace Juxta.Decimal

variable {d d' : Decimal} {digits : List Nat} {cs : List Char}

/-! ## Normal decimals -/

/-- A decimal whose digits neither begin nor end with a zero. -/
structure IsNormal (d : Decimal) : Prop extends IsWritable d where
  head : d.digits.head? ≠ some 0
  last : d.digits.getLast? ≠ some 0

theorem ofDigits_eq_reverse (digits : List Nat) :
    ofDigits digits = Nat.ofDigits 10 digits.reverse := by
  rw [Nat.ofDigits_eq_foldr, List.foldr_reverse, ofDigits]
  simp only [Nat.cast_id, Nat.add_comm]

/-- Digits that do not begin with a zero are determined by the number they denote. -/
theorem digits_eq_of_ofDigits_eq {digits digits' : List Nat} (hten : ∀ x ∈ digits, x < 10)
    (hten' : ∀ x ∈ digits', x < 10) (hhead : digits.head? ≠ some 0)
    (hhead' : digits'.head? ≠ some 0) (h : ofDigits digits = ofDigits digits') :
    digits = digits' := by
  have hback (l : List Nat) (hl : ∀ x ∈ l, x < 10) (hzero : l.head? ≠ some 0) :
      Nat.digits 10 (ofDigits l) = l.reverse := by
    rw [ofDigits_eq_reverse]
    refine Nat.digits_ofDigits 10 (by decide) _ (fun x hx => hl x (List.mem_reverse.1 hx)) ?_
    intro hne hlast
    rw [List.getLast_reverse] at hlast
    exact hzero (by rw [← hlast, List.head?_eq_some_head])
  rw [← List.reverse_inj, ← hback digits hten hhead, h, hback digits' hten' hhead']

/-- The last digit is the remainder by ten. -/
theorem getLast?_eq_mod (hne : digits ≠ []) (hten : ∀ x ∈ digits, x < 10) :
    digits.getLast? = some (ofDigits digits % 10) := by
  obtain ⟨front, last, rfl⟩ := digits.eq_nil_or_concat.resolve_left hne
  have hlast : last < 10 := hten last (by simp)
  rw [List.concat_eq_append, List.getLast?_concat, ofDigits_append]
  simp [ofDigits, Nat.mod_eq_of_lt hlast]

/-- Of two equal numbers, the one with the smaller exponent would end with a zero. -/
theorem IsNormal.exponent_le (h' : IsNormal d') (heq : magnitude d = magnitude d') :
    d.exponent ≤ d'.exponent := by
  by_contra hlt
  obtain ⟨k, hk⟩ : ∃ k : Nat, d.exponent = d'.exponent + (k + 1 : Nat) :=
    ⟨(d.exponent - d'.exponent).toNat - 1, by omega⟩
  have hten : (10 : ℚ) ^ d'.exponent ≠ 0 := by positivity
  have hscaled : ofDigits d.digits * 10 ^ (k + 1) = ofDigits d'.digits := by
    rw [magnitude, magnitude, hk, zpow_add₀ (by norm_num), zpow_natCast, mul_left_comm,
      mul_comm, mul_left_inj' hten] at heq
    exact_mod_cast heq
  apply h'.last
  rw [getLast?_eq_mod h'.nonempty h'.lt_ten, ← hscaled, Nat.pow_succ, ← Nat.mul_assoc,
    Nat.mul_mod_left]

/-- **A normal decimal is determined by its sign and its magnitude.** -/
theorem IsNormal.eq_of_magnitude_eq (h : IsNormal d) (h' : IsNormal d')
    (hsign : d.negative = d'.negative) (heq : magnitude d = magnitude d') : d = d' := by
  have hexponent : d.exponent = d'.exponent :=
    Int.le_antisymm (h'.exponent_le heq) (h.exponent_le heq.symm)
  have hten : (10 : ℚ) ^ d'.exponent ≠ 0 := by positivity
  have hdigits : d.digits = d'.digits := by
    refine digits_eq_of_ofDigits_eq h.lt_ten h'.lt_ten h.head h'.head ?_
    rw [magnitude, magnitude, hexponent, mul_left_inj' hten] at heq
    exact_mod_cast heq
  obtain ⟨negative, digits, exponent⟩ := d
  obtain ⟨negative', digits', exponent'⟩ := d'
  rw [Decimal.mk.injEq]
  exact ⟨hsign, hdigits, hexponent⟩

/-! ## Fixed notation -/

/-- The digits in front of the point.  There are some, and a zero begins them only if it stands by
itself. -/
structure IsWhole (cs : List Char) : Prop where
  nonempty : cs ≠ []
  isDigit : ∀ c ∈ cs, c.isDigit = true
  zero : cs.head? = some '0' → cs = ['0']

/-- The digits behind the point.  There are some, and the last is not a zero. -/
structure IsPlaces (cs : List Char) : Prop where
  nonempty : cs ≠ []
  isDigit : ∀ c ∈ cs, c.isDigit = true
  last : cs.getLast? ≠ some '0'

/-- A text in fixed notation: a sign, the digits in front of the point, and either no point or one
with digits behind it. -/
inductive IsFixed : List Char → Prop
  | whole (negative : Bool) {whole : List Char} :
    IsWhole whole → IsFixed (sign negative ++ whole)
  | point (negative : Bool) {whole places : List Char} :
    IsWhole whole → IsPlaces places → IsFixed (sign negative ++ (whole ++ '.' :: places))

theorem eq_some_zero_of_map {o : Option Nat} (hten : ∀ x ∈ o, x < 10)
    (h : o.map Nat.digitChar = some '0') : o = some 0 := by
  obtain ⟨n, rfl, hn⟩ := Option.map_eq_some_iff.1 h
  rw [← (digitChar_spec (hten n rfl)).2, hn, Nat.sub_self]

theorem isWhole_digitText (hne : digits ≠ []) (hten : ∀ x ∈ digits, x < 10)
    (hhead : digits.head? ≠ some 0) : IsWhole (digitText digits) where
  nonempty := digitText_ne_nil hne
  isDigit := isDigit_of_mem_digitText hten
  zero h := by
    rw [digitText, List.head?_map] at h
    exact absurd (eq_some_zero_of_map (fun x hx => hten x (List.mem_of_mem_head? hx)) h) hhead

theorem isPlaces_digitText (hne : digits ≠ []) (hten : ∀ x ∈ digits, x < 10)
    (hlast : digits.getLast? ≠ some 0) : IsPlaces (digitText digits) where
  nonempty := digitText_ne_nil hne
  isDigit := isDigit_of_mem_digitText hten
  last h := by
    rw [digitText, List.getLast?_map] at h
    exact hlast (eq_some_zero_of_map (fun x hx => hten x (List.mem_of_mem_getLast? hx)) h)

theorem isWhole_zero : IsWhole ['0'] where
  nonempty := List.cons_ne_nil _ _
  isDigit := List.forall_mem_singleton.2 rfl
  zero _ := rfl

/-- **Positional notation is fixed notation**, wherever the point stands. -/
theorem isFixed_positional (h : IsNormal d) : IsFixed (positional d) := by
  rw [positional]
  dsimp only
  split
  · -- the point is behind the digits, and is not written
    rw [← digitText_zeros, ← digitText_append]
    refine .whole _ (isWhole_digitText ?_ ?_ ?_)
    · exact fun hnil => h.nonempty (List.append_eq_nil_iff.1 hnil).1
    · exact List.forall_mem_append.2 ⟨h.lt_ten, lt_ten_zeros _⟩
    · rw [List.head?_append_of_ne_nil _ h.nonempty]
      exact h.head
  · next hneg =>
    split
    · -- the point is between the digits
      next hlt =>
      generalize hfront : d.digits.take (d.digits.length - (-d.exponent).toNat) = front
      generalize hback : d.digits.drop (d.digits.length - (-d.exponent).toNat) = back
      have hfrontLength := congrArg List.length hfront
      have hbackLength := congrArg List.length hback
      have hsplit : front ++ back = d.digits := by
        rw [← hfront, ← hback, List.take_append_drop]
      rw [List.length_take] at hfrontLength
      rw [List.length_drop] at hbackLength
      have hfrontNe : front ≠ [] := List.ne_nil_of_length_pos (by omega)
      have hbackNe : back ≠ [] := List.ne_nil_of_length_pos (by omega)
      obtain ⟨htenFront, htenBack⟩ := List.forall_mem_append.1 (hsplit ▸ h.lt_ten)
      refine .point _ (isWhole_digitText hfrontNe htenFront ?_)
        (isPlaces_digitText hbackNe htenBack ?_)
      · rw [← List.head?_append_of_ne_nil front hfrontNe, hsplit]
        exact h.head
      · rw [← List.getLast?_append_of_ne_nil front hbackNe, hsplit]
        exact h.last
    · -- the point is in front of the digits, perhaps with zeros between
      rw [List.cons_append, List.cons_append, ← digitText_zeros, ← digitText_append]
      refine .point _ isWhole_zero (isPlaces_digitText ?_ ?_ ?_)
      · exact fun hnil => h.nonempty (List.append_eq_nil_iff.1 hnil).2
      · exact List.forall_mem_append.2 ⟨lt_ten_zeros _, h.lt_ten⟩
      · rw [List.getLast?_append_of_ne_nil _ h.nonempty]
        exact h.last

/-! ## Scientific notation -/

/-- The digits of a mantissa behind its first: a point in front of them, if there are any. -/
def fraction (others : List Nat) : List Char :=
  if others = [] then [] else '.' :: digitText others

/-- The text of a decimal in scientific notation: its sign, its first digit, the others behind a
point, and an exponent with a sign and at least two digits. -/
def IsScientific (d : Decimal) (cs : List Char) : Prop :=
  ∃ first others mark exponent,
    d.digits = first :: others ∧
    cs = sign d.negative ++
      (Nat.digitChar first :: fraction others ++ 'e' :: mark :: exponent) ∧
    mark ∈ ['+', '-'] ∧ 2 ≤ exponent.length ∧ (∀ c ∈ exponent, c.isDigit = true)

theorem two_le_length_twoDigits (n : Nat) : 2 ≤ (twoDigits n).length := by
  rw [twoDigits]
  split
  · next hlt => rw [Nat.toDigits_of_lt_base hlt]; rfl
  · next hle =>
    have hpos : 0 < (Nat.toDigits 10 (n / 10)).length :=
      List.length_pos_of_ne_nil Nat.toDigits_ne_nil
    rw [Nat.toDigits_of_base_le (by decide) (Nat.le_of_not_lt hle), List.length_append,
      List.length_singleton]
    omega

theorem isScientific_scientific (h : d.digits ≠ []) : IsScientific d (scientific d) := by
  obtain ⟨first, others, hdigits⟩ := List.exists_cons_of_ne_nil h
  refine ⟨first, others, if d.scientificExponent < 0 then '-' else '+',
    twoDigits d.scientificExponent.natAbs, hdigits, ?_, ?_, two_le_length_twoDigits _,
    isDigit_of_mem_twoDigits⟩
  · rw [scientific, hdigits, fraction, List.append_assoc]
    rcases others with _ | ⟨second, others⟩ <;> rfl
  · split <;> decide

/-- The letter of an exponent tells the notations apart. -/
theorem not_mem_of_isFixed (h : IsFixed cs) : 'e' ∉ cs := by
  have hdigit {cs : List Char} (hcs : ∀ c ∈ cs, c.isDigit = true) : 'e' ∉ cs :=
    fun he => absurd (hcs _ he) (by decide)
  have hsign (negative : Bool) : 'e' ∉ sign negative := by
    rcases negative with _ | _ <;> decide
  rcases h with @⟨negative, whole, hwhole⟩ | @⟨negative, whole, places, hwhole, hplaces⟩
  · rw [List.mem_append, not_or]
    exact ⟨hsign negative, hdigit hwhole.isDigit⟩
  · rw [List.mem_append, List.mem_append, List.mem_cons, not_or, not_or, not_or]
    exact ⟨hsign negative, hdigit hwhole.isDigit, by decide, hdigit hplaces.isDigit⟩

theorem IsScientific.not_isFixed (h : IsScientific d cs) : ¬IsFixed cs := by
  obtain ⟨first, others, mark, exponent, -, rfl, -⟩ := h
  exact fun hfixed => not_mem_of_isFixed hfixed (by simp)

/-! ## The choice of a notation -/

theorem writeDecimal_language (d : Decimal) :
    Layout.language.writeDecimal d =
      if -4 ≤ d.scientificExponent ∧ d.scientificExponent < 21 then positional d
      else scientific d := by
  have hrange : Layout.language.isPositional d = true ↔
      -4 ≤ d.scientificExponent ∧ d.scientificExponent < 21 := by
    rw [Layout.isPositional, Bool.and_eq_true, decide_eq_true_iff, decide_eq_true_iff]
    rfl
  rw [Layout.writeDecimal]
  exact if_congr hrange (List.append_nil _) rfl

theorem isFixed_writeDecimal_iff (h : IsNormal d) :
    IsFixed (Layout.language.writeDecimal d) ↔
      -4 ≤ d.scientificExponent ∧ d.scientificExponent < 21 := by
  rw [writeDecimal_language]
  split
  · next hrange => exact iff_of_true (isFixed_positional h) hrange
  · next hrange =>
    exact iff_of_false (isScientific_scientific h.nonempty).not_isFixed hrange

theorem isScientific_writeDecimal (h : d.digits ≠ [])
    (hrange : ¬(-4 ≤ d.scientificExponent ∧ d.scientificExponent < 21)) :
    IsScientific d (Layout.language.writeDecimal d) := by
  rw [writeDecimal_language, if_neg hrange]
  exact isScientific_scientific h

/-- **Different decimals have different texts.** -/
theorem IsNormal.eq_of_writeDecimal_eq (h : IsNormal d) (h' : IsNormal d')
    (heq : Layout.language.writeDecimal d = Layout.language.writeDecimal d') : d = d' := by
  obtain ⟨e, he, hsign, hmagnitude⟩ := readsAs_writeDecimal h.toIsWritable
  obtain ⟨e', he', hsign', hmagnitude'⟩ := readsAs_writeDecimal h'.toIsWritable
  rw [heq, he'] at he
  obtain rfl := Option.some.inj he
  exact h.eq_of_magnitude_eq h' (hsign.symm.trans hsign') (hmagnitude.symm.trans hmagnitude')

/-! ## Floating-point numbers -/

/-- The digits of a positive number do not begin with a zero. -/
theorem head?_digitsOf {n : Nat} (hn : 0 < n) : (digitsOf n).head? ≠ some 0 := by
  induction n using Nat.strong_induction_on with
  | _ n ih =>
    rcases Nat.lt_or_ge n 10 with hlt | hge
    · rw [digitsOf, Nat.toDigits_of_lt_base hlt, List.map_singleton, (digitChar_spec hlt).2,
        List.head?_cons]
      exact fun hzero => hn.ne' (Option.some.inj hzero)
    · have hpos : 0 < n / 10 := Nat.div_pos hge (by decide)
      rw [digitsOf, Nat.toDigits_of_base_le (by decide) hge, List.map_append,
        List.head?_append_of_ne_nil _ (by simp [Nat.toDigits_ne_nil])]
      exact ih (n / 10) (Nat.div_lt_self hn (by decide)) hpos

/-- No zero is left at the end. -/
theorem getLast?_trimZeros (digits : List Nat) (e : Int) :
    (trimZeros digits e).1.getLast? ≠ some 0 := by
  rw [trimZeros_fst]
  intro hzero
  obtain ⟨front, hfront⟩ := List.getLast?_eq_some_iff.1 hzero
  have hne : digits.rdropWhile (· = 0) ≠ [] := by
    rw [hfront]
    exact List.append_ne_nil_of_right_ne_nil _ (List.cons_ne_nil _ _)
  have hlast := List.rdropWhile_last_not _ _ hne
  simp [hfront] at hlast

/-- **The decimals of floating-point numbers are normal.** -/
theorem isNormal_shortest {m : Nat} {q : Int} (h : Canonical m q) (hm : 0 < m) (negative : Bool) :
    IsNormal (shortest negative m q) := by
  have hwritable := isWritable_shortest h hm negative
  have hpos := (rounds_shortest h hm negative).pos hm
  obtain ⟨n, e, hshortest⟩ : ∃ n e, shortest negative m q =
      ⟨negative, (trimZeros (digitsOf n) e).1, (trimZeros (digitsOf n) e).2⟩ := ⟨_, _, rfl⟩
  rw [hshortest] at hwritable hpos ⊢
  rw [magnitude_trimZeros] at hpos
  have hn : 0 < n := by
    refine Nat.pos_of_ne_zero ?_
    rintro rfl
    simp at hpos
  obtain ⟨zeros, hdigits, -⟩ := trimZeros_eq (digitsOf n) e
  have hhead := head?_digitsOf hn
  rw [hdigits, List.head?_append_of_ne_nil _ hwritable.nonempty] at hhead
  exact ⟨hwritable, hhead, getLast?_trimZeros _ e⟩

/-- **Numbers are written exactly.**  Let `e` be the power of ten of the first digit of a decimal
whose digits neither begin nor end with a zero.

* The text is in fixed notation just if `-4 ≤ e < 21`, and otherwise in scientific notation.
* In either notation it is read back with the same sign and magnitude.
* Different decimals have different texts.
* The text of a floating-point number that is finite and not zero is that of its shortest decimal,
  which is such a decimal, has its sign, and rounds to it. -/
theorem numbers_written_exactly :
    (∀ (d : Decimal) (e : Int), IsNormal d → e = (d.digits.length : Int) - 1 + d.exponent →
      (IsFixed (Layout.language.writeDecimal d) ↔ -4 ≤ e ∧ e < 21) ∧
      (¬IsFixed (Layout.language.writeDecimal d) →
        IsScientific d (Layout.language.writeDecimal d)) ∧
      ReadsAs (Layout.language.writeDecimal d) d) ∧
    (∀ d d' : Decimal, IsNormal d → IsNormal d' →
      Layout.language.writeDecimal d = Layout.language.writeDecimal d' → d = d') ∧
    (∀ (x : Float) (negative : Bool) (m : Nat) (q : Int),
      Binary64.ofFloat x = .finite negative m q → m ≠ 0 →
      IsNormal (shortest negative m q) ∧ (shortest negative m q).negative = negative ∧
      Rounds m q (magnitude (shortest negative m q)) ∧
      (formatFloat x).toList = Layout.language.writeDecimal (shortest negative m q)) := by
  refine ⟨?text, fun d d' h h' heq => h.eq_of_writeDecimal_eq h' heq, ?float⟩
  case text =>
    rintro d e h rfl
    refine ⟨isFixed_writeDecimal_iff h, fun hfixed => ?_, readsAs_writeDecimal h.toIsWritable⟩
    exact isScientific_writeDecimal h.nonempty fun hrange =>
      hfixed ((isFixed_writeDecimal_iff h).2 hrange)
  case float =>
    intro x negative m q hx hne
    have hcanonical : Canonical m q := Binary64.canonical_of_decode hx
    have hm : 0 < m := Nat.pos_of_ne_zero hne
    have htext : formatFloat x = Layout.language.writeNumber (.finite negative m q) := by
      rw [← hx]
      rfl
    refine ⟨isNormal_shortest hcanonical hm negative, rfl,
      rounds_shortest hcanonical hm negative, ?_⟩
    rw [htext, toList_writeNumber, written, if_neg hne]

/-- The least power of ten in fixed notation, a number below it, and a floating-point number. -/
theorem numbers_written_exactly_samples :
    let tenThousandth : Decimal := ⟨false, [1], -4⟩
    let less : Decimal := ⟨true, [9, 9], -6⟩
    let x := Float.ofBits 0x4004000000000000
    IsFixed (Layout.language.writeDecimal tenThousandth) ∧
      ReadsAs (Layout.language.writeDecimal tenThousandth) tenThousandth ∧
      IsScientific less (Layout.language.writeDecimal less) ∧
      ReadsAs (Layout.language.writeDecimal less) less ∧
      Layout.language.writeDecimal less ≠ Layout.language.writeDecimal tenThousandth ∧
      (formatFloat x).toList =
        Layout.language.writeDecimal (shortest false 5629499534213120 (-51)) := by
  have htenThousandth : IsNormal ⟨false, [1], -4⟩ := ⟨⟨by decide, by decide⟩, by decide, by decide⟩
  have hless : IsNormal ⟨true, [9, 9], -6⟩ := ⟨⟨by decide, by decide⟩, by decide, by decide⟩
  obtain ⟨hfixed, -, hread⟩ := numbers_written_exactly.1 _ (-4) htenThousandth rfl
  obtain ⟨hfixedLess, hscientific, hreadLess⟩ := numbers_written_exactly.1 _ (-5) hless rfl
  have hdifferent := numbers_written_exactly.2.1 _ _ hless htenThousandth
  have hfloat := numbers_written_exactly.2.2 (Float.ofBits 0x4004000000000000) false
    5629499534213120 (-51) rfl (by decide)
  exact ⟨hfixed.2 (by decide), hread, hscientific fun h => absurd (hfixedLess.1 h) (by decide),
    hreadLess, fun heq => absurd (hdifferent heq) (by decide), hfloat.2.2.2⟩

end Juxta.Decimal
