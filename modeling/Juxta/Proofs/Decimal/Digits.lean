import Juxta.Proofs.Decimal.Numeral
import Mathlib.Tactic.Ring

/-!
# Digits and what they denote

Writing a natural number in decimal and reading the digits back are inverse to each other, be it
with the digits as numbers or as characters.

## What is here

* `ofDigits_append`, `ofDigits_digitsOf` — the number that digits denote.
* `digitRun?_of_isDigit` — the digits of a run of digit characters.
* `readInteger?_of_isDigit`, `readInteger?_repr` — the integer that digits spell.
-/

set_option autoImplicit false
namespace Juxta

/-- A digit has the value that its place after the zero says. -/
theorem Text.digit?_of_isDigit {c : Char} (h : c.isDigit = true) :
    digit? c = some (c.toNat - '0'.toNat) := by
  simp only [Char.isDigit, Bool.and_eq_true, decide_eq_true_eq] at h
  have hlow : 48 ≤ c.toNat := h.1
  have hhigh : c.toNat ≤ 57 := h.2
  rw [digit?, zeros, List.find?_cons_of_pos]
  · rfl
  · simp only [Bool.and_eq_true, decide_eq_true_eq]
    omega

namespace Decimal

theorem foldl_ofDigits (digits : List Nat) (n : Nat) :
    digits.foldl (fun n d => 10 * n + d) n = n * 10 ^ digits.length + ofDigits digits := by
  induction digits generalizing n with
  | nil => simp [ofDigits]
  | cons d digits ih =>
    have hcons : ofDigits (d :: digits) = d * 10 ^ digits.length + ofDigits digits := by
      rw [ofDigits, List.foldl_cons, ih, Nat.mul_zero, Nat.zero_add]
    rw [List.foldl_cons, ih, hcons, List.length_cons, Nat.pow_succ]
    ring

theorem ofDigits_append (front back : List Nat) :
    ofDigits (front ++ back) = ofDigits front * 10 ^ back.length + ofDigits back := by
  rw [ofDigits, List.foldl_append, foldl_ofDigits]
  rfl

/-- The digits of a number denote it. -/
@[simp] theorem ofDigits_digitsOf (n : Nat) : ofDigits (digitsOf n) = n := by
  rw [digitsOf, ofDigits, List.foldl_map]
  exact Nat.ofDigitChars_ten_toDigits

theorem digitRun?_of_isDigit {cs : List Char} (hne : cs ≠ [])
    (h : ∀ c ∈ cs, c.isDigit = true) : digitRun? cs = some (cs.map (·.toNat - '0'.toNat)) := by
  fun_induction digitRun? cs with
  | case1 => exact absurd rfl hne
  | case2 c => rw [Text.digit?_of_isDigit (h c List.mem_cons_self)]; rfl
  | case3 c rest => exact absurd (h '_' (by simp)) (by decide)
  | case4 c rest hrest _ ih =>
    obtain ⟨hc, h⟩ := List.forall_mem_cons.1 h
    rw [Text.digit?_of_isDigit hc, ih (fun hnil => hrest (by rw [hnil])) h]
    rfl

theorem isDigit_of_mem_repr {n : Nat} {c : Char} (h : c ∈ n.repr.toList) : c.isDigit = true := by
  rw [Nat.toList_repr] at h
  exact Nat.isDigit_of_mem_toDigits (by decide) (by decide) h

theorem toList_repr_ne_nil (n : Nat) : n.repr.toList ≠ [] := by
  rw [Nat.toList_repr]
  exact Nat.toDigits_ne_nil

/-- **Digits spell the number that they denote.** -/
theorem readInteger?_of_isDigit {text : String} (hne : text.toList ≠ [])
    (h : ∀ c ∈ text.toList, c.isDigit = true) :
    readInteger? text = some ↑(ofDigits (text.toList.map (·.toNat - '0'.toNat))) := by
  have hstrip : Text.strip text = text :=
    Text.strip_eq_self fun c hc => Text.isBlank_of_isDigit (h c hc)
  obtain ⟨c, cs, hcs⟩ := List.exists_cons_of_ne_nil hne
  have hsign : splitSign text.toList = (false, text.toList) := by
    rw [hcs]
    exact splitSign_of_isDigit (h c (hcs ▸ List.mem_cons_self))
  rw [readInteger?, hstrip, signedRun?, hsign]
  dsimp only
  rw [digitRun?_of_isDigit hne h, Option.map_some]
  rfl

/-- **The numeral of a natural number spells it.** -/
theorem readInteger?_repr (n : Nat) : readInteger? n.repr = some ↑n := by
  rw [readInteger?_of_isDigit (toList_repr_ne_nil n) fun c => isDigit_of_mem_repr, Nat.toList_repr,
    ← digitsOf, ofDigits_digitsOf]

end Decimal
end Juxta
