import Juxta.Decimal.Numeral
import Mathlib.Data.List.TakeWhile

/-!
# What plain numerals denote

The numerals that are cut from a source are plain: digits, and digits with a point between them.
They have no sign and no words, and so the numbers that they denote are not negative and are never
not-a-number.  Being equal to itself is the whole difference between a number and not-a-number.

## What is here

* `readInteger?_nonneg` — an integer that digits spell is not negative.
* `beq_self_of_readFloat?` — a numeral that starts with a digit denotes a number.
* `exists_readInteger?`, `exists_readFloat?` — plain numerals can be read.
-/

set_option autoImplicit false
namespace Juxta

/-! ## Digits -/

theorem Text.isBlank_of_isDigit {c : Char} (h : c.isDigit = true) : isBlank c = false := by
  simp only [Char.isDigit, Bool.and_eq_true, decide_eq_true_eq] at h
  have hlow : 48 ≤ c.toNat := h.1
  have hhigh : c.toNat ≤ 57 := h.2
  simp only [isBlank, blankRanges, List.any_cons, List.any_nil, Bool.or_false,
    Bool.or_eq_false_iff, Bool.and_eq_false_imp, decide_eq_true_eq, decide_eq_false_iff_not,
    Nat.not_le]
  omega

/-- What stripping leaves of a text that starts with a character that is not blank starts with that
character. -/
theorem Text.strip_cons {text : String} {c : Char} {cs : List Char} (htext : text.toList = c :: cs)
    (hc : isBlank c = false) : ∃ cs', (strip text).toList = c :: cs' := by
  have hdrop : (c :: cs).dropWhile isBlank = c :: cs := List.dropWhile_cons_of_neg (by simp [hc])
  rw [strip, String.toList_ofList, htext, hdrop, List.reverse_cons, List.dropWhile_append]
  split
  · exact ⟨[], by simp [hc]⟩
  · exact ⟨_, by rw [List.reverse_append]; rfl⟩

/-- Nothing is stripped from a text without blanks. -/
theorem Text.strip_eq_self {text : String} (h : ∀ c ∈ text.toList, isBlank c = false) :
    strip text = text := by
  have hdrop : ∀ cs : List Char, (∀ c ∈ cs, isBlank c = false) → cs.dropWhile isBlank = cs := by
    intro cs hcs
    cases cs with
    | nil => rfl
    | cons c cs => exact List.dropWhile_cons_of_neg (by simp [hcs c List.mem_cons_self])
  rw [strip, hdrop _ h, hdrop _ fun c hc => h c (List.mem_reverse.1 hc), List.reverse_reverse,
    String.ofList_toList]

/-- A digit has a value. -/
theorem Text.exists_digit? {c : Char} (h : c.isDigit = true) : ∃ d, digit? c = some d := by
  simp only [Char.isDigit, Bool.and_eq_true, decide_eq_true_eq] at h
  have hlow : 48 ≤ c.toNat := h.1
  have hhigh : c.toNat ≤ 57 := h.2
  rw [digit?, zeros, List.find?_cons_of_pos]
  · exact ⟨_, rfl⟩
  · simp only [Bool.and_eq_true, decide_eq_true_eq]
    omega

namespace Decimal

theorem splitSign_of_isDigit {c : Char} {cs : List Char} (h : c.isDigit = true) :
    splitSign (c :: cs) = (false, c :: cs) := by
  rw [splitSign]
  · rintro rest hminus
    rw [(List.cons.inj hminus).1] at h
    exact absurd h (by decide)
  · rintro rest hplus
    rw [(List.cons.inj hplus).1] at h
    exact absurd h (by decide)

variable {text : String} {c : Char} {cs : List Char}

/-- An integer that starts with a digit is not negative. -/
theorem readInteger?_nonneg (htext : text.toList = c :: cs) (hc : c.isDigit = true) :
    0 ≤ (readInteger? text).getD 0 := by
  obtain ⟨cs', hstrip⟩ := Text.strip_cons htext (Text.isBlank_of_isDigit hc)
  rw [readInteger?, hstrip, signedRun?, splitSign_of_isDigit hc]
  cases hrun : digitRun? (c :: cs') with
  | none => simp only [hrun, Option.map_none, Option.getD_none, Int.le_refl]
  | some digits =>
    simp only [hrun, Option.map_some, Option.getD_some]
    exact Int.natCast_nonneg _

/-! ## Numbers and not-a-number -/

open Float.Model Float.Model.UnpackedFloat in
/-- A bit pattern is not-a-number only with all bits of its exponent and some of its mantissa. -/
theorem unpack_eq_notANumber {spec : Format} {b : BitVec spec.numBits}
    (h : UnpackedFloat.unpack spec b = .notANumber) :
    unpackExponent b = -1#_ ∧ unpackMantissa b ≠ 0#_ := by
  delta UnpackedFloat.unpack at h
  dsimp only at h
  by_cases hexp : unpackExponent b = -1#_
  · by_cases hman : unpackMantissa b = 0#_
    · rw [if_pos hexp, if_pos hman] at h
      cases h
    · exact ⟨hexp, hman⟩
  · rw [if_neg hexp] at h
    by_cases hzero : unpackExponent b = 0#_
    · rw [if_pos hzero] at h
      by_cases hman : unpackMantissa b = 0#_
      · rw [dif_pos hman] at h
        cases h
      · rw [dif_neg hman] at h
        cases h
    · rw [if_neg hzero] at h
      cases h

open Float.Model Float.Model.UnpackedFloat in
/-- What is a number before it is packed is one after it. -/
theorem unpack_pack_ne_notANumber {u : UnpackedFloat} (hu : u ≠ .notANumber) :
    (Float.Model.pack u).unpack ≠ .notANumber := by
  intro h
  obtain ⟨hexp, hman⟩ := unpack_eq_notANumber h
  dsimp only [Float.Model.pack] at hexp hman
  revert hexp hman
  fun_cases UnpackedFloat.pack Format.binary64 u with
  | case1 => exact absurd rfl hu
  | case2 s => simp [packedInfinity]
  | case3 s => simp [packedZero]
  | case4 s m e hm biased hbiased => simp [packedInfinity]
  | case5 s m e hm bits biased hbiased hbits =>
    have hlt : biased < 2 ^ 11 - 1 := by
      simp only at hbiased
      omega
    simp only [unpackExponent_packComponents, BitVec.neg_one_eq_allOnes, BitVec.reduceAllOnes,
      ← BitVec.toNat_inj, BitVec.toNat_ofNat, Nat.reducePow, Nat.mod_succ,
      unpackMantissa_packComponents, ne_eq, Nat.zero_mod, imp_false, Decidable.not_not]
    omega
  | case6 s m e hm bits biased hbiased hbits => simp

open Float.Model in
theorem compare_self {u : UnpackedFloat} (hu : u ≠ .notANumber) : u.compare u = some .eq := by
  cases u with
  | notANumber => exact absurd rfl hu
  | infinity s => cases s <;> rfl
  | zero s => rfl
  | finite s m e hm =>
    cases s with
    | positive =>
      show some ((compare e e).then (compare m m)) = some .eq
      simp
    | negative =>
      show some ((compare e e).then (compare m m)).swap = some .eq
      simp

open Float.Model in
/-- Bits up to those of infinity stand for a number. -/
theorem unpack_ne_notANumber {bits : Nat} (h : bits ≤ Binary64.infinityBits) :
    UnpackedFloat.unpack Format.binary64 (BitVec.ofNat 64 bits) ≠ .notANumber := by
  intro hnan
  obtain ⟨hexp, hman⟩ := unpack_eq_notANumber hnan
  have h : bits ≤ 2047 * 2 ^ 52 := h
  have hbits : (BitVec.ofNat 64 bits).toNat = bits := Nat.mod_eq_of_lt (by omega)
  have hexp : bits / 2 ^ 52 % 2 ^ 11 = 2047 := by
    have hexp := congrArg BitVec.toNat hexp
    simp only [UnpackedFloat.unpackExponent, Nat.reduceAdd, Nat.add_one_sub_one, Nat.reduceSub,
      BitVec.cast_eq, BitVec.extractLsb_toNat, Nat.shiftRight_eq_div_pow, Nat.reducePow,
      BitVec.reduceNeg, BitVec.toNat_ofNat, Nat.mod_succ] at hexp
    rw [← hbits]
    exact hexp
  apply hman
  apply BitVec.eq_of_toNat_eq
  simp only [UnpackedFloat.unpackMantissa, Nat.add_one_sub_one, Nat.sub_zero, Nat.reduceAdd,
    BitVec.cast_eq, BitVec.extractLsb_toNat, Nat.shiftRight_zero, Nat.reducePow,
    BitVec.toNat_ofNat, Nat.zero_mod]
  rw [hbits]
  omega

theorem beq_self_assemble {bits : Nat} (h : bits ≤ Binary64.infinityBits) :
    (Binary64.assemble false bits == Binary64.assemble false bits) = true := by
  have hzero : (if false = true then Binary64.signBit else 0) + bits = bits := Nat.zero_add bits
  have hcompare := compare_self (unpack_pack_ne_notANumber (unpack_ne_notANumber h))
  rw [Binary64.assemble, hzero]
  exact (beq_iff_eq (α := Option Ordering)).2 hcompare

theorem ratioBits_le (num den : Nat) : Binary64.ratioBits num den ≤ Binary64.infinityBits := by
  rw [Binary64.ratioBits]
  split
  · exact Nat.zero_le _
  · exact Nat.min_le_right _ _

theorem beq_self_of_readDecimal? {x : Float} (h : readDecimal? false cs = some x) :
    (x == x) = true := by
  simp only [readDecimal?, bind] at h
  split at h
  all_goals
    simp only [Option.bind_eq_some_iff] at h
    obtain ⟨exponent, -, whole, -, places, -, h⟩ := h
    split at h
    · cases h
    · obtain rfl := Option.some.inj h
      exact beq_self_assemble (ratioBits_le _ _)

theorem toLower_of_isDigit (hc : c.isDigit = true) : c.toLower = c := by
  simp only [Char.isDigit, Bool.and_eq_true, decide_eq_true_eq] at hc
  exact dif_neg fun hupper => absurd (UInt32.le_trans hupper.1 hc.2) (by decide)

/-- A numeral that starts with a digit denotes a number. -/
theorem beq_self_of_readFloat? (htext : text.toList = c :: cs) (hc : c.isDigit = true) :
    ((readFloat? text).getD 0 == (readFloat? text).getD 0) = true := by
  obtain ⟨cs', hstrip⟩ := Text.strip_cons htext (Text.isBlank_of_isDigit hc)
  rw [readFloat?, hstrip, splitSign_of_isDigit hc]
  simp only
  split
  · exact beq_self_assemble (Nat.le_refl _)
  · split
    · next hword =>
      have hnan := congrArg String.toList hword
      rw [String.toList_ofList, List.map_cons, toLower_of_isDigit hc] at hnan
      rw [(List.cons.inj hnan).1] at hc
      exact absurd hc (by decide)
    · cases hread : readDecimal? false (c :: cs') with
      | none => decide
      | some x => exact beq_self_of_readDecimal? hread

/-! ## Plain numerals can be read -/

/-- Digits are a run of digits. -/
theorem exists_digitRun? (hne : cs ≠ []) (h : ∀ c ∈ cs, c.isDigit = true) :
    ∃ d ds, digitRun? cs = some (d :: ds) := by
  fun_induction digitRun? cs with
  | case1 => exact absurd rfl hne
  | case2 c =>
    obtain ⟨d, hd⟩ := Text.exists_digit? (h c List.mem_cons_self)
    exact ⟨d, [], by rw [hd]; rfl⟩
  | case3 c rest => exact absurd (h '_' (by simp)) (by decide)
  | case4 c rest hrest _ ih =>
    obtain ⟨hc, h⟩ := List.forall_mem_cons.1 h
    obtain ⟨d, hd⟩ := Text.exists_digit? hc
    obtain ⟨d', ds, hds⟩ := ih (fun hnil => by subst hnil; exact hrest rfl) h
    exact ⟨d, d' :: ds, by rw [hd, hds]; rfl⟩

/-- Digits spell an integer. -/
theorem exists_readInteger? (hne : text.toList ≠ []) (h : ∀ c ∈ text.toList, c.isDigit = true) :
    ∃ n, readInteger? text = some n := by
  obtain ⟨c, cs, hcs⟩ := List.exists_cons_of_ne_nil hne
  obtain ⟨d, ds, hds⟩ := exists_digitRun? hne h
  rw [readInteger?, Text.strip_eq_self fun c hc => Text.isBlank_of_isDigit (h c hc), signedRun?,
    hcs, splitSign_of_isDigit (h c (hcs ▸ List.mem_cons_self)), ← hcs]
  exact ⟨_, congrArg (Option.map _) hds⟩

/-- Digits are a run that may be empty. -/
theorem exists_optionalRun? (h : ∀ c ∈ cs, c.isDigit = true) : ∃ ds, optionalRun? cs = some ds := by
  rw [optionalRun?]
  split
  · exact ⟨_, rfl⟩
  · next hne =>
    obtain ⟨d, ds, hds⟩ := exists_digitRun? (by simpa using hne) h
    exact ⟨_, hds⟩

theorem exists_readDecimal? {whole places : List Char} (negative : Bool) (hne : whole ≠ [])
    (hwhole : ∀ c ∈ whole, c.isDigit = true) (hplaces : ∀ c ∈ places, c.isDigit = true) :
    ∃ x, readDecimal? negative (whole ++ '.' :: places) = some x := by
  have hmantissa : (whole ++ '.' :: places).takeWhile (fun c => c ≠ 'e' && c ≠ 'E') =
      whole ++ '.' :: places := by
    refine List.takeWhile_eq_self_iff.2 fun c hc => ?_
    rw [List.mem_append, List.mem_cons] at hc
    have hdigit : c.isDigit = true → (c ≠ 'e' && c ≠ 'E') = true := by
      intro hdigit
      simp only [Bool.and_eq_true, decide_eq_true_eq]
      constructor <;> rintro rfl <;> exact absurd hdigit (by decide)
    rcases hc with hc | rfl | hc
    · exact hdigit (hwhole c hc)
    · decide
    · exact hdigit (hplaces c hc)
  have hbefore : (whole ++ '.' :: places).takeWhile (· ≠ '.') = whole := by
    rw [List.takeWhile_append_of_pos, List.takeWhile_cons_of_neg (by decide), List.append_nil]
    intro c hc
    rw [decide_eq_true_eq]
    rintro rfl
    exact absurd (hwhole _ hc) (by decide)
  have hafter : (whole ++ '.' :: places).drop (whole.length + 1) = places := by
    rw [List.drop_append, List.drop_eq_nil_of_le (Nat.le_succ _)]
    simp
  obtain ⟨d, ds, hds⟩ := exists_digitRun? hne hwhole
  obtain ⟨es, hes⟩ := exists_optionalRun? hplaces
  have hwholeRun : optionalRun? whole = some (d :: ds) := by
    rw [optionalRun?, if_neg (by simpa using hne), hds]
  rw [readDecimal?]
  simp only [hmantissa, List.drop_length, hbefore, hafter, hwholeRun, hes]
  exact ⟨_, rfl⟩

/-- Digits with a point between them spell a number. -/
theorem exists_readFloat? {whole places : List Char} (htext : text.toList = whole ++ '.' :: places)
    (hne : whole ≠ []) (hwhole : ∀ c ∈ whole, c.isDigit = true)
    (hplaces : ∀ c ∈ places, c.isDigit = true) : ∃ x, readFloat? text = some x := by
  have hblank : ∀ c ∈ text.toList, Text.isBlank c = false := by
    intro c hc
    rw [htext, List.mem_append, List.mem_cons] at hc
    rcases hc with hc | rfl | hc
    · exact Text.isBlank_of_isDigit (hwhole c hc)
    · decide
    · exact Text.isBlank_of_isDigit (hplaces c hc)
  have hsign : splitSign text.toList = (false, text.toList) := by
    obtain ⟨c, cs, hcs⟩ := List.exists_cons_of_ne_nil hne
    rw [htext, hcs]
    exact splitSign_of_isDigit (hwhole c (hcs ▸ List.mem_cons_self))
  rw [readFloat?, Text.strip_eq_self hblank, hsign]
  dsimp only
  split
  · exact ⟨_, rfl⟩
  · split
    · exact ⟨_, rfl⟩
    · rw [htext]
      exact exists_readDecimal? false hne hwhole hplaces

end Decimal
end Juxta
